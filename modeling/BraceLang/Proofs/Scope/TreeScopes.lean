import BraceLang.Proofs.Forest
import BraceLang.Proofs.Tree.Functions
import BraceLang.Proofs.Tree.Walk
import BraceLang.Scope.TreeScopes

/-!
# `Proofs.Scope.TreeScopes` — the scopes found in a tree are those of the program

The walks over the syntax tree look up every number that they come to. In a part of a tree that is
held they find it, so they cannot fail there, and what they collect can be told from the outline
alone. For the outline of some code that is what `Code.declarations`, `Code.references` and
`Code.resolve` say.

## Contents
- `mapM_eq_ok`, for rows of steps that do not fail.
- `Outline.contents`, with **`Holds.collect_eq`**: the contents of a block, for any outline.
- `Code.blocks` and `Code.contents_outline`, the contents of the outline of some code.
- `BlocksFound.resolveBlock_eq` and **`Program.scopes_tree`**.
- `Scopes.visited_eq`: the scopes are met in pre-order.
-/

namespace BraceLang

/-- If no step of a row fails, the row does not fail. -/
theorem mapM_eq_ok {α β ε : Type} {f : α → Except ε β} {g : α → β} {as : List α}
    (h : ∀ a ∈ as, f a = .ok (g a)) : as.mapM f = .ok (as.map g) := by
  induction as with
  | nil => rfl
  | cons a as ih =>
    rw [List.mapM_cons, h a List.mem_cons_self, ih fun b hb => h b (List.mem_cons_of_mem a hb)]
    rfl

/-- A row of steps goes on after a step that does not fail. -/
theorem mapM_cons_eq_ok {α β ε : Type} {f : α → Except ε β} {a : α} {as : List α} {b : β}
    {bs : List β} (h : f a = .ok b) (hs : as.mapM f = .ok bs) :
    (a :: as).mapM f = .ok (b :: bs) := by
  rw [List.mapM_cons, h, hs]
  rfl

namespace BlockContents

@[simp] theorem append_mk (v w : List Variable) (r q : List String)
    (b d : List (Scope.Kind × Nat)) :
    (⟨v, r, b⟩ : BlockContents).append ⟨w, q, d⟩ = ⟨v ++ w, r ++ q, b ++ d⟩ := rfl

@[simp] theorem empty_append (a : BlockContents) : empty.append a = a := rfl

@[simp] theorem append_empty (a : BlockContents) : a.append empty = a := by
  simp [append, empty]

end BlockContents

/-! ## The contents of a block, for any outline -/

namespace Outline

/-- The variable that a declaration with these nodes below it declares. -/
def declaredVariable? (o : Outline) : Option Variable := do
  let type ← o.rootOfKind? .type
  let name ← o.rootOfKind? .identifier
  return ⟨name.text, type.text, name.start, name.span, false⟩

/-- What a node with these nodes below it contributes to the block that it stands in, apart from
    the nodes below it. -/
def ownContents (nested : Bool) (l : Label) (children : Outline) : BlockContents :=
  match l.kind with
  | .variableDeclaration => ⟨children.declaredVariable?.toList, [], []⟩
  | .leaf .identifier => ⟨[], if nested then [] else l.value.toList, []⟩
  | .assignment =>
    ⟨[], if nested then [] else ((children.rootOfKind? .identifier).map Label.text).toList, []⟩
  | _ => .empty

/-- What the trees of an outline, which stand below a node of the kind `above` and are numbered from
    `base` on, contribute to the block that they stand in. -/
def contents (isolate nested : Bool) (above : NodeKind) (base : Nat) : Outline → BlockContents
  | .nil => .empty
  | .node l children siblings =>
    BlockContents.append
      (if l.kind.opensScope then
        BlockContents.append
          ⟨[], [], if nested then [] else [(Scope.Kind.ofBlock above l.kind, base)]⟩
          (if isolate then .empty else contents isolate true l.kind (base + 1) children)
      else
        (ownContents nested l children).append (contents isolate nested l.kind (base + 1) children))
      (contents isolate nested above (base + 1 + children.size) siblings)

end Outline

namespace Tree

variable {t : Tree} {base fuel : Nat} {l : Label} {o children siblings : Outline}
  {isolate nested : Bool}

namespace Holds

theorem declaredVariable?_eq {ids : List Nat} (h : t.Holds base (.node l children siblings)) :
    t.declaredVariable? ⟨base, l, ids⟩ = children.declaredVariable? := by
  rw [Tree.declaredVariable?, Outline.declaredVariable?, ← h.label_childOfKind?,
    ← h.label_childOfKind?]
  cases t.childOfKind? base .type with
  | none => rfl
  | some type => cases t.childOfKind? base .identifier <;> rfl

theorem ownContents_eq {ids : List Nat} (h : t.Holds base (.node l children siblings)) :
    t.ownContents nested ⟨base, l, ids⟩ = Outline.ownContents nested l children := by
  rw [Tree.ownContents, Outline.ownContents, h.declaredVariable?_eq, ← h.label_childOfKind?]
  simp only [Option.map_map]
  rfl

/-- If the walk over the children of a node does not fail, neither does the walk below it. -/
theorem collect_of_mapM {parts : List BlockContents} (h : t.Holds base (.node l children siblings))
    (hparts : (children.rootIds (base + 1)).mapM
      (t.childContents isolate nested l.kind (t.collect isolate fuel)) = .ok parts) :
    t.collect isolate (fuel + 1) nested base = .ok (.join parts) := by
  rw [Tree.collect, h.node_eq]
  show (((children.rootIds (base + 1)).mapM _ : Except Failure _) >>= _) = _
  rw [hparts]
  rfl

/-- What a child contributes, if the walk below it does not fail. -/
theorem childContents_eq {above : NodeKind} {below : Bool → Nat → Except Failure BlockContents}
    (h : t.Holds base (.node l children siblings))
    (hbelow : ∀ nested, below nested base =
      .ok (Outline.contents isolate nested l.kind (base + 1) children)) :
    t.childContents isolate nested above below base = .ok (if l.kind.opensScope then
        BlockContents.append
          ⟨[], [], if nested then [] else [(Scope.Kind.ofBlock above l.kind, base)]⟩
          (if isolate then .empty else Outline.contents isolate true l.kind (base + 1) children)
      else (Outline.ownContents nested l children).append
        (Outline.contents isolate nested l.kind (base + 1) children)) := by
  rw [Tree.childContents, h.node_eq]
  show (if l.kind.opensScope then _ else _) = _
  split
  · rw [hbelow]
    cases isolate <;> rfl
  · rw [hbelow, h.ownContents_eq]
    rfl

/-- The walk over the trees at the top of a part does not fail. -/
theorem mapM_childContents (isolate nested : Bool) (above : NodeKind) (h : t.Holds base o)
    (hfuel : o.size ≤ fuel) :
    ∃ parts, (o.rootIds base).mapM (t.childContents isolate nested above (t.collect isolate fuel)) =
      .ok parts ∧ .join parts = Outline.contents isolate nested above base o := by
  induction o generalizing base fuel nested above with
  | nil => exact ⟨[], rfl, rfl⟩
  | node l c s ihc ihs =>
    rw [Forest.size] at hfuel
    obtain ⟨parts, hparts, hjoin⟩ := ihs nested above h.beside (by omega : s.size ≤ fuel)
    have hbelow : ∀ nested, t.collect isolate fuel nested base =
        .ok (Outline.contents isolate nested l.kind (base + 1) c) := by
      intro nested
      obtain ⟨fuel, rfl⟩ : ∃ k, fuel = k + 1 := ⟨fuel - 1, by omega⟩
      obtain ⟨parts, hparts, hjoin⟩ := ihc nested l.kind h.below (by omega : c.size ≤ fuel)
      rw [h.collect_of_mapM hparts, hjoin]
    refine ⟨_, mapM_cons_eq_ok (h.childContents_eq hbelow) hparts, ?_⟩
    rw [Outline.contents, ← hjoin]
    rfl

/-- **The walk below a node does not fail, and collects what the outline says.** -/
theorem collect_eq (isolate nested : Bool) (h : t.Holds base (.node l children siblings))
    (hfuel : children.size < fuel) :
    t.collect isolate fuel nested base =
      .ok (Outline.contents isolate nested l.kind (base + 1) children) := by
  obtain ⟨fuel, rfl⟩ : ∃ k, fuel = k + 1 := ⟨fuel - 1, by omega⟩
  obtain ⟨parts, hparts, hjoin⟩ := h.below.mapM_childContents isolate nested l.kind
    (by omega : children.size ≤ fuel)
  rw [h.collect_of_mapM hparts, hjoin]

end Holds

end Tree

/-! ## The contents of code -/

namespace Outline

variable {isolate nested : Bool} {above : NodeKind} {base : Nat} {l : Label}
  {children siblings : Outline}

theorem contents_block (h : l.kind.opensScope = true) :
    contents isolate nested above base (.node l children siblings) = BlockContents.append
      (BlockContents.append ⟨[], [], if nested then [] else [(Scope.Kind.ofBlock above l.kind, base)]⟩
        (if isolate then .empty else contents isolate true l.kind (base + 1) children))
      (contents isolate nested above (base + 1 + children.size) siblings) := by
  rw [contents, if_pos h]

theorem contents_plain (h : l.kind.opensScope = false) :
    contents isolate nested above base (.node l children siblings) = BlockContents.append
      ((ownContents nested l children).append (contents isolate nested l.kind (base + 1) children))
      (contents isolate nested above (base + 1 + children.size) siblings) := by
  rw [contents, if_neg (by simp [h])]

/-- A leaf contributes its text if it is a name. -/
theorem ownContents_leaf (t : Token) : ownContents nested (.ofToken (.leaf t.kind) t) .nil =
    ⟨[], if nested then [] else identifierTexts [t], []⟩ := by
  rw [ownContents, identifierTexts]
  cases hk : t.kind <;> cases nested <;> simp [Label.ofToken, Label.covering, BlockContents.empty, hk]

/-- A row of leaves contributes the names among them. -/
theorem contents_leaves (tokens : List Token) (base : Nat) :
    contents isolate nested above base (leaves tokens) =
      ⟨[], if nested then [] else identifierTexts tokens, []⟩ := by
  induction tokens generalizing base with
  | nil => cases nested <;> rfl
  | cons t tokens ih =>
    have hrest := ih (base + 1)
    show contents isolate nested above base (.node (.ofToken (.leaf t.kind) t) .nil (leaves tokens)) = _
    rw [contents_plain rfl, ownContents_leaf, Forest.size, Nat.add_zero, hrest]
    have hcons : identifierTexts (t :: tokens) = identifierTexts [t] ++ identifierTexts tokens := by
      rw [identifierTexts, identifierTexts, identifierTexts, ← List.map_append, ← List.filter_append]
      rfl
    rw [contents, BlockContents.append_empty, BlockContents.append_mk, hcons]
    cases nested <;> rfl

theorem contents_expression (tokens : List Token) (base : Nat) :
    contents isolate nested above base (expression tokens) =
      ⟨[], if nested then [] else identifierTexts tokens, []⟩ := by
  cases tokens with
  | nil => cases nested <;> rfl
  | cons t tokens =>
    rw [expression, Forest.single, contents_plain rfl, contents_leaves]
    cases nested <;> simp [ownContents, contents, Label.covering]

end Outline

/-- A statement without a block contributes what it declares and the names that it uses. -/
theorem Simple.contents_node (s : Simple) (isolate nested : Bool) (above : NodeKind) (base : Nat)
    (siblings : Outline) :
    Outline.contents isolate nested above base (.node s.label s.parts siblings) =
      BlockContents.append ⟨s.declaredVariable?.toList, if nested then [] else s.references, []⟩
        (Outline.contents isolate nested above (base + 1 + s.parts.size) siblings) := by
  rw [Outline.contents_plain (by cases s <;> rfl)]
  congr 1
  cases s with
  | declaration type name suffix initializer semicolon =>
    rw [label, parts, Outline.contents_plain rfl, Outline.contents_plain rfl,
      Outline.contents_expression]
    rfl
  | call name opening arguments closing semicolon =>
    rw [label, parts, Outline.contents_plain rfl, Forest.single, Outline.contents_plain rfl,
      Outline.contents_leaves]
    have hnames : identifierTexts (argumentTokens arguments) = identifierTexts arguments := by
      rw [identifierTexts, identifierTexts, argumentTokens, List.filter_filter]
      congr 2
      funext t
      rw [Token.isArgument]
      cases t.kind <;> rfl
    rw [hnames]
    cases nested <;> simp [Outline.ownContents, Outline.contents, Label.covering, Label.ofToken,
      declaredVariable?, references]
  | ret keyword value semicolon =>
    rw [label, parts, Outline.contents_expression]
    rfl
  | assignment target operator value semicolon =>
    rw [label, parts, Outline.contents_plain rfl, Outline.contents_expression]
    cases nested <;> rfl

/-- A block that is met contributes itself and the declarations in it. -/
def BlockContents.ofBlock (isolate nested : Bool) (kind : Scope.Kind) (id : Nat)
    (inner : BlockContents) : BlockContents :=
  BlockContents.append ⟨[], [], if nested then [] else [(kind, id)]⟩
    (if isolate then .empty else inner)

namespace Header

variable {isolate nested : Bool} {above : NodeKind} {base : Nat} {l block otherBlock : Label}
  {body other blocks siblings : Outline}

/-- A header contributes the names in its condition. -/
theorem contents_node (h : Header) (hl : l.kind.opensScope = false)
    (hown : ∀ children, Outline.ownContents nested l children = .empty) :
    Outline.contents isolate nested above base
      (.node l (.node h.conditionLabel (Outline.leaves h.condition) blocks) siblings) =
      BlockContents.append
        (BlockContents.append ⟨[], if nested then [] else identifierTexts h.condition, []⟩
          (Outline.contents isolate nested l.kind (base + 2 + h.condition.length) blocks))
        (Outline.contents isolate nested above (base + 2 + h.condition.length + blocks.size)
          siblings) := by
  rw [Outline.contents_plain hl, hown, Outline.contents_plain rfl, Outline.contents_leaves,
    Forest.size, Outline.size_leaves,
    show base + 1 + 1 + h.condition.length = base + 2 + h.condition.length by omega,
    show base + 1 + (1 + h.condition.length + blocks.size) =
      base + 2 + h.condition.length + blocks.size by omega]
  rfl

/-- A statement with one block. -/
theorem contents_oneBlock (h : Header) (hl : l.kind.opensScope = false)
    (hown : ∀ children, Outline.ownContents nested l children = .empty)
    (hblock : block.kind.opensScope = true) :
    Outline.contents isolate nested above base
      (.node l (.node h.conditionLabel (Outline.leaves h.condition) (.single block body))
        siblings) =
      BlockContents.append
        (BlockContents.append ⟨[], if nested then [] else identifierTexts h.condition, []⟩
          (.ofBlock isolate nested (.ofBlock l.kind block.kind) (base + 2 + h.condition.length)
            (Outline.contents isolate true block.kind (base + 3 + h.condition.length) body)))
        (Outline.contents isolate nested above (base + 3 + h.condition.length + body.size)
          siblings) := by
  rw [h.contents_node hl hown, Forest.single, Outline.contents_block hblock, Outline.contents,
    BlockContents.append_empty, Forest.size, Forest.size,
    show base + 2 + h.condition.length + 1 = base + 3 + h.condition.length by omega,
    show base + 2 + h.condition.length + (1 + body.size + 0) =
      base + 3 + h.condition.length + body.size by omega]
  rfl

/-- A statement with two blocks. -/
theorem contents_twoBlocks (h : Header) (hl : l.kind.opensScope = false)
    (hown : ∀ children, Outline.ownContents nested l children = .empty)
    (hblock : block.kind.opensScope = true) (hother : otherBlock.kind.opensScope = true) :
    Outline.contents isolate nested above base
      (.node l (.node h.conditionLabel (Outline.leaves h.condition)
        (.node block body (.single otherBlock other))) siblings) =
      BlockContents.append
        (BlockContents.append ⟨[], if nested then [] else identifierTexts h.condition, []⟩
          (BlockContents.append
            (.ofBlock isolate nested (.ofBlock l.kind block.kind) (base + 2 + h.condition.length)
              (Outline.contents isolate true block.kind (base + 3 + h.condition.length) body))
            (.ofBlock isolate nested (.ofBlock l.kind otherBlock.kind)
              (base + 3 + h.condition.length + body.size)
              (Outline.contents isolate true otherBlock.kind
                (base + 4 + h.condition.length + body.size) other))))
        (Outline.contents isolate nested above
          (base + 4 + h.condition.length + body.size + other.size) siblings) := by
  rw [h.contents_node hl hown, Outline.contents_block hblock, Forest.single,
    Outline.contents_block hother, Outline.contents, BlockContents.append_empty, Forest.size,
    Forest.size, Forest.size,
    show base + 2 + h.condition.length + 1 = base + 3 + h.condition.length by omega,
    show base + 3 + h.condition.length + body.size + 1 =
      base + 4 + h.condition.length + body.size by omega,
    show base + 2 + h.condition.length + (1 + body.size + (1 + other.size + 0)) =
      base + 4 + h.condition.length + body.size + other.size by omega]
  rfl

end Header

namespace Code

/-- The blocks of the statements in some code of which the first statement has the number `base` in
    the syntax tree, without those inside these blocks. -/
def blocks (base : Nat) : Code → List (Scope.Kind × Nat)
  | done => []
  | skip _ rest => rest.blocks base
  | simple s rest => rest.blocks (base + 1 + s.parts.size)
  | loop kind h body _ rest =>
    (kind.scopeKind, base + 2 + h.condition.length) ::
      rest.blocks (base + 3 + h.condition.length + body.nodeCount)
  | ifThen h body _ rest =>
    (.ifBody, base + 2 + h.condition.length) ::
      rest.blocks (base + 3 + h.condition.length + body.nodeCount)
  | ifThenElse h body _ _ other _ rest =>
    (.ifBody, base + 2 + h.condition.length) ::
      (.elseBranch, base + 3 + h.condition.length + body.nodeCount) ::
        rest.blocks (base + 4 + h.condition.length + body.nodeCount + other.nodeCount)

/-- A walk over some code collects its declarations, and if it is not made for a block further out,
    its names and its blocks. -/
theorem contents_outline (c : Code) (isolate nested : Bool) (above : NodeKind) (base : Nat) :
    Outline.contents isolate nested above base c.outline =
      ⟨c.declarations isolate, if nested then [] else c.references,
        if nested then [] else c.blocks base⟩ := by
  induction c generalizing nested above base with
  | done => cases nested <;> rfl
  | skip _ rest ih => exact ih nested above base
  | simple s rest ih =>
    rw [outline, s.contents_node, ih]
    cases nested <;> rfl
  | loop kind h body closing rest ihb ih =>
    rw [outline, h.contents_oneBlock (by cases kind <;> rfl) (by cases kind <;> exact fun _ => rfl)
      rfl, ihb, ih, size_outline]
    have hkind : Scope.Kind.ofBlock kind.nodeKind .loopBody = kind.scopeKind := by
      cases kind <;> rfl
    cases isolate <;> cases nested <;>
      simp [BlockContents.ofBlock, declarations, references, blocks, Label.covering, hkind]
  | ifThen h body closing rest ihb ih =>
    rw [outline, h.contents_oneBlock rfl (fun _ => rfl) rfl, ihb, ih, size_outline]
    cases isolate <;> cases nested <;>
      simp [BlockContents.ofBlock, declarations, references, blocks, Label.covering,
        Scope.Kind.ofBlock]
  | ifThenElse h body closing e other otherClosing rest ihb iho ih =>
    rw [outline, h.contents_twoBlocks rfl (fun _ => rfl) rfl rfl, ihb, iho, ih, size_outline,
      size_outline]
    cases isolate <;> cases nested <;>
      simp [BlockContents.ofBlock, declarations, references, blocks, Label.covering,
        Scope.Kind.ofBlock]

end Code

/-! ## The scopes of a program -/

namespace Tree.Holds

variable {t : Tree} {base fuel : Nat} {l : Label} {siblings : Outline} {config : Config}

/-- If the scopes of the blocks inside a block are found, so is the scope of the block. -/
theorem resolveBlock_of_mapM {c : Code} {parts : List Resolved} (name : String) (kind : Scope.Kind)
    (h : t.Holds base (.node l c.outline siblings))
    (hparts : (c.blocks (base + 1)).mapM (fun block =>
      t.resolveBlock config fuel block.1.name block.1 block.2) = .ok parts) :
    t.resolveBlock config (fuel + 1) name kind base =
      .ok (Scope.above config
        ⟨name, kind, l.start.line, l.stop.line, c.declarations config.isolateScopes⟩ c.references
        (.join parts)) := by
  have hsize := h.size_le
  rw [Forest.size] at hsize
  rw [Tree.resolveBlock, h.node_eq]
  show (t.collect config.isolateScopes t.size false base >>= _) = _
  rw [h.collect_eq config.isolateScopes false (by omega), c.contents_outline]
  show (((c.blocks (base + 1)).mapM _ : Except Failure _) >>= _) = _
  rw [hparts]
  rfl

/-- In a tree that holds some code, the scopes of the blocks in that code are found. -/
def BlocksFound (t : Tree) (config : Config) (c : Code) : Prop :=
  ∀ base fuel, t.Holds base c.outline → c.nodeCount ≤ fuel →
    ∃ parts, (c.blocks base).mapM (fun block =>
        t.resolveBlock config fuel block.1.name block.1 block.2) = .ok parts ∧
      .join parts = c.resolve config

theorem BlocksFound.resolveBlock_eq {c : Code} (hc : BlocksFound t config c) (fuel : Nat)
    (name : String) (kind : Scope.Kind) (h : t.Holds base (.node l c.outline siblings))
    (hfuel : c.nodeCount < fuel) :
    t.resolveBlock config fuel name kind base =
      .ok (Scope.above config
        ⟨name, kind, l.start.line, l.stop.line, c.declarations config.isolateScopes⟩ c.references
        (c.resolve config)) := by
  obtain ⟨fuel, rfl⟩ : ∃ k, fuel = k + 1 := ⟨fuel - 1, by omega⟩
  obtain ⟨parts, hparts, hjoin⟩ := hc (base + 1) fuel h.below (by omega)
  rw [h.resolveBlock_of_mapM name kind hparts, hjoin]

theorem blocksFound (t : Tree) (config : Config) (c : Code) : BlocksFound t config c := by
  induction c with
  | done => exact fun _ _ _ _ => ⟨[], rfl, rfl⟩
  | skip _ rest ih => exact ih
  | simple s rest ih =>
    intro base fuel h hfuel
    rw [Code.nodeCount] at hfuel
    exact ih _ fuel h.beside (by omega)
  | loop kind hd body closing rest ihb ih =>
    intro base fuel h hfuel
    rw [Code.nodeCount] at hfuel
    obtain ⟨hblock, -, -⟩ := h.header
    obtain ⟨-, hbeside, -⟩ := h.oneBlock
    rw [body.size_outline] at hbeside
    obtain ⟨parts, hparts, hjoin⟩ := ih _ fuel hbeside (by omega)
    have hbody := ihb.resolveBlock_eq fuel kind.scopeKind.name kind.scopeKind hblock
      (by omega)
    exact ⟨_, mapM_cons_eq_ok hbody hparts, congrArg _ hjoin⟩
  | ifThen hd body closing rest ihb ih =>
    intro base fuel h hfuel
    rw [Code.nodeCount] at hfuel
    obtain ⟨hblock, -, -⟩ := h.header
    obtain ⟨-, hbeside, -⟩ := h.oneBlock
    rw [body.size_outline] at hbeside
    obtain ⟨parts, hparts, hjoin⟩ := ih _ fuel hbeside (by omega)
    have hbody := ihb.resolveBlock_eq fuel Scope.Kind.ifBody.name .ifBody hblock
      (by omega)
    exact ⟨_, mapM_cons_eq_ok hbody hparts, congrArg _ hjoin⟩
  | ifThenElse hd body closing e other otherClosing rest ihb iho ih =>
    intro base fuel h hfuel
    rw [Code.nodeCount] at hfuel
    obtain ⟨hblock, -, -⟩ := h.header
    obtain ⟨-, -, hbeside, -⟩ := h.twoBlocks
    have hother := hblock.beside
    rw [body.size_outline, show base + 2 + hd.condition.length + 1 + body.nodeCount =
      base + 3 + hd.condition.length + body.nodeCount by omega] at hother
    rw [body.size_outline, other.size_outline, show base + 3 + hd.condition.length +
      body.nodeCount + 1 + other.nodeCount =
        base + 4 + hd.condition.length + body.nodeCount + other.nodeCount by omega] at hbeside
    obtain ⟨parts, hparts, hjoin⟩ := ih _ fuel hbeside (by omega)
    have hbody := ihb.resolveBlock_eq fuel Scope.Kind.ifBody.name .ifBody hblock
      (by omega)
    have hother := iho.resolveBlock_eq fuel Scope.Kind.elseBranch.name .elseBranch hother
      (by omega)
    exact ⟨_, mapM_cons_eq_ok hbody (mapM_cons_eq_ok hother hparts),
      congrArg (fun r => Resolved.append _ (Resolved.append _ r)) hjoin⟩

/-- The scopes of a function are found. -/
theorem functionScopes_eq {id : Nat} {f : Function} {more : Outline}
    (h : t.Holds id (f.outline ++ more)) :
    t.functionScopes config (f.node id) = .ok (f.scopes config) := by
  rw [Tree.functionScopes, Function.scopes]
  have hid : (f.node id).id = id := rfl
  rw [hid, h.childOfKind?_functionBody, Function.bodyNode?]
  cases hb : f.body with
  | none => rfl
  | some b =>
    have hbody := (h.below.append).2
    rw [hb] at hbody
    have hsize : 1 + b.code.outline.size + 0 ≤ t.size := hbody.size_le
    rw [b.code.size_outline] at hsize
    have hresolve := (blocksFound t config b.code).resolveBlock_eq t.size f.name.text .function
      hbody (by omega)
    show (t.resolveBlock config t.size f.name.text .function (id + 1 + f.startOutline.size) >>= _) = _
    rw [hresolve]
    rfl

end Tree.Holds

namespace Program

/-- **The scopes found in the tree of a program are those of the program.** -/
theorem scopes_tree (p : Program) (config : Config) :
    p.tree.scopes config = .ok (p.scopes config) := by
  have hall : ∀ d ∈ p.numberedFunctions,
      p.tree.functionScopes config (d.2.node d.1) = .ok (d.2.scopes config) := by
    rintro ⟨id, f⟩ hf
    obtain ⟨more, hheld⟩ := p.tree_holds_functions.function hf
    exact hheld.functionScopes_eq
  have hparts : p.tree.functions.mapM (p.tree.functionScopes config) =
      .ok (p.functions.map fun f => f.scopes config) := by
    rw [p.functions_tree, List.mapM_map]
    show p.numberedFunctions.mapM (fun d => p.tree.functionScopes config (d.2.node d.1)) = _
    rw [mapM_eq_ok hall, ← p.map_snd_numberedFunctions, List.map_map]
    rfl
  rw [Tree.scopes, hparts, Program.scopes]
  show Except.ok _ = Except.ok _
  rw [List.foldr_map]

end Program

namespace Scopes

/-- **Working off a stack of scopes meets them in pre-order**, function by function. -/
theorem visited_eq (scopes : Scopes) : scopes.visited = scopes.labels := by
  rw [visited]
  induction scopes with
  | nil => rfl
  | node s inner beside _ ih =>
    rw [Forest.trees, List.flatMap_cons, ih, Forest.visit_singleton, Forest.labels_node, List.cons_append]

theorem findings_eq (scopes : Scopes) : scopes.findings = scopes.diagnostics := by
  rw [findings, visited_eq, diagnostics]

end Scopes

end BraceLang
