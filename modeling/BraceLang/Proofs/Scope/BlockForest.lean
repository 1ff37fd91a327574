import BraceLang.Proofs.Compilation
import BraceLang.Proofs.Scope.Lines
import BraceLang.Proofs.Scope.Usage

/-!
# `Proofs.Scope.BlockForest` — scopes stand inside one another as blocks do

Each block has its scope, and the scope of a block inside of another one is found below the scope of that
one. To say so apart from how scopes are made, the blocks of the tree are put into a forest of their own:
the bodies of functions are at the top, and below a block are the blocks that belong to it.

A statement may hold two blocks, bare braces are none, and an `else` that holds just another `if` is a block
with one block in it. All this is a matter of which nodes are blocks, so the outline of code decides it, and
one induction over code compares the two forests.

## Contents
- `Scope.StandsFor`, the scope of a block.
- `Tree.BlocksIn`, the blocks right inside a block, and `Tree.IsBlockForest`.
- `Scopes.LinesNest`, how the lines of scopes do.
- `Outline.blockForest`, with `labels_blockForest` and `roots_blockForest`.
- `Holds.blocksIn`, from a part of a tree to its blocks, and `Program.isBlockForest`.
- `Code.alike_frames` and **`Program.scopes_mirror_blocks`**.
-/

namespace BraceLang

/-! ## Blocks and scopes -/

/-- The kind and the name of the scope of a block, which depend on the node right above the block. -/
def Label.scopeHead? (above block : Label) : Option (Scope.Kind × String) :=
  match above.kind, block.kind with
  | .functionDeclaration, .functionBody => some (.function, above.text)
  | .ifStatement, .ifBody => some (.ifBody, "if")
  | .ifStatement, .elseBranch => some (.elseBranch, "else")
  | .forStatement, .loopBody => some (.forBody, "for")
  | .whileStatement, .loopBody => some (.whileBody, "while")
  | _, _ => none

/-- The scope has the lines of the block, and the kind and the name that the block has by what it is a part
    of. -/
structure Scope.StandsFor (t : Tree) (s : Scope) (block : Tree.Node) : Prop where
  startLine : s.startLine = block.label.start.line
  endLine : s.endLine = block.label.stop.line
  head : ∃ above, t.get? above.id = some above ∧ block.id ∈ above.children ∧
    above.label.scopeHead? block.label = some (s.kind, s.name)

/-- In a row are, in source order, the bodies and `else` branches of which the block is the nearest one
    above. -/
structure Tree.BlocksIn (t : Tree) (block : Tree.Node) (row : List Tree.Node) : Prop where
  mem_iff : ∀ m, m ∈ row ↔
    t.get? m.id = some m ∧ m.label.kind.opensScope = true ∧ t.BelongsTo m.id block.id
  ordered : row.Pairwise fun m n => m.id < n.id

/-- The forest holds the blocks of a tree as they stand inside one another: at the top are the bodies of the
    functions in source order, and below each block are those that are right inside it. -/
structure Tree.IsBlockForest (t : Tree) (blocks : Forest Tree.Node) : Prop where
  labels : blocks.labels = t.blocks
  roots : blocks.roots = t.definitions.map Prod.snd
  below : ∀ b inner, (b, inner) ∈ blocks.subtrees → t.BlocksIn b inner.roots

/-- The lines of a scope are in order and cover its variables and the scopes inside it, which follow one
    another, as those at the top do. -/
structure Scopes.LinesNest (scopes : Scopes) : Prop where
  ordered : ∀ s ∈ scopes.labels, s.startLine ≤ s.endLine
  covers : ∀ s ∈ scopes.labels, ∀ v ∈ s.locals, s.containsLine v.position.line = true
  inside : ∀ s inner, (s, inner) ∈ scopes.subtrees → ∀ child ∈ inner.roots,
    s.startLine ≤ child.startLine ∧ child.endLine ≤ s.endLine
  follow : ∀ s inner, (s, inner) ∈ scopes.subtrees →
    inner.roots.Pairwise fun a b => a.endLine ≤ b.startLine
  followAtTop : scopes.roots.Pairwise fun a b => a.endLine ≤ b.startLine

theorem Scopes.Within.linesNest {lo hi : Nat} {scopes : Scopes} (h : Within lo hi scopes) :
    scopes.LinesNest := by
  have hcovers : ∀ s ∈ scopes.labels, s.Covers := by
    intro s hs
    obtain ⟨⟨s, inner⟩, hmem, rfl⟩ := List.mem_map.mp hs
    exact (h.of_mem_subtrees hmem).1
  constructor
  case ordered => exact fun s hs => (hcovers s hs).1
  case covers => exact fun s hs => (hcovers s hs).2
  case inside => exact fun s inner hs child hc => (h.of_mem_subtrees hs).2.of_mem_roots hc
  case follow => exact fun s inner hs => (h.of_mem_subtrees hs).2.pairwise_roots
  case followAtTop => exact h.pairwise_roots

/-! ## The blocks of an outline -/

namespace Outline

/-- The blocks of an outline, each over the blocks that are right inside it. -/
def blockForest (base : Nat) : Outline → Forest Tree.Node
  | .nil => .nil
  | .node l children siblings =>
    if l.kind.isBlock then
      .node ⟨base, l, rootIds (base + 1) children⟩ (blockForest (base + 1) children)
        (blockForest (base + 1 + children.size) siblings)
    else blockForest (base + 1) children ++ blockForest (base + 1 + children.size) siblings

variable {base : Nat} {l block otherBlock : Label} {o children siblings body other : Outline}
  {h : Header}

theorem blockForest_of_isBlock (hl : l.kind.isBlock = true) :
    blockForest base (.node l children siblings) =
      .node ⟨base, l, rootIds (base + 1) children⟩ (children.blockForest (base + 1))
        (siblings.blockForest (base + 1 + children.size)) := by
  rw [blockForest, if_pos hl]

theorem blockForest_of_not_isBlock (hl : l.kind.isBlock = false) :
    blockForest base (.node l children siblings) =
      children.blockForest (base + 1) ++ siblings.blockForest (base + 1 + children.size) := by
  rw [blockForest, if_neg (Bool.eq_false_iff.mp hl)]

theorem blockForest_append (o more : Outline) (base : Nat) :
    (o ++ more).blockForest base = o.blockForest base ++ more.blockForest (base + o.size) := by
  induction o generalizing base with
  | nil => rfl
  | node l c s _ ih =>
    have hsize : base + 1 + c.size + s.size = base + (1 + c.size + s.size) := by omega
    rw [Forest.node_append, blockForest, blockForest, ih, hsize, Forest.size]
    split
    · rw [Forest.node_append]
    · rw [Forest.append_assoc]

/-- An outline without a block has an empty forest of blocks. -/
theorem blockForest_eq_nil (ho : ∀ l ∈ o.labels, l.kind.isBlock = false) (base : Nat) :
    o.blockForest base = .nil := by
  induction o generalizing base with
  | nil => rfl
  | node l c s ihc ihs =>
    rw [Forest.labels_node] at ho
    obtain ⟨hl, hrest⟩ := List.forall_mem_cons.mp ho
    obtain ⟨hc, hs⟩ := List.forall_mem_append.mp hrest
    rw [blockForest_of_not_isBlock hl, ihc hc, ihs hs]
    rfl

/-- In pre-order, the forest lists the blocks of the outline. -/
theorem labels_blockForest (o : Outline) (base : Nat) :
    (o.blockForest base).labels = o.blocks base := by
  induction o generalizing base with
  | nil => rfl
  | node l c s ihc ihs =>
    rw [blocks_node]
    by_cases hl : l.kind.isBlock = true
    · rw [blockForest_of_isBlock hl, blocks_of_isBlock hl, Forest.labels_node, ihc, ihs]
      rfl
    · have hl' : l.kind.isBlock = false := Bool.eq_false_iff.mpr hl
      rw [blockForest_of_not_isBlock hl', blocks_of_not_isBlock hl', Forest.labels_append, ihc, ihs]

/-- At the top of the forest are the blocks that are met by a walk that goes into no block. -/
theorem roots_blockForest (o : Outline) (base : Nat) :
    (o.blockForest base).roots = o.innerBlocks base := by
  induction o generalizing base with
  | nil => rfl
  | node l c s ihc ihs =>
    rw [innerBlocks_node]
    by_cases hl : l.kind.isBlock = true
    · rw [blockForest_of_isBlock hl, innerBlocks_of_isBlock hl, Forest.roots, ihs]
      rfl
    · have hl' : l.kind.isBlock = false := Bool.eq_false_iff.mpr hl
      rw [blockForest_of_not_isBlock hl', innerBlocks_of_not_isBlock hl', Forest.roots_append, ihc,
        ihs]

/-- The blocks of the first tree come before those of the others. -/
theorem blockForest_node : blockForest base (.node l children siblings) =
    blockForest base (.single l children) ++ siblings.blockForest (base + 1 + children.size) := by
  rw [show Forest.node l children siblings = .single l children ++ siblings from rfl,
    blockForest_append, Forest.single, Forest.size, Forest.size,
    show base + (1 + children.size + 0) = base + 1 + children.size by omega]

/-- The blocks of a statement with a header are those behind the header. -/
theorem blockForest_header (hl : l.kind.isBlock = false) (behind : Outline) :
    blockForest base (.node l (.node h.conditionLabel (leaves h.condition) behind) siblings) =
      behind.blockForest (base + 2 + h.condition.length) ++
        siblings.blockForest (base + 2 + h.condition.length + behind.size) := by
  rw [blockForest_of_not_isBlock hl, blockForest_of_not_isBlock rfl,
    blockForest_eq_nil (isBlock_leaves _), Forest.nil_append, Forest.size, size_leaves,
    show base + 1 + 1 + h.condition.length = base + 2 + h.condition.length by omega,
    show base + 1 + (1 + h.condition.length + behind.size) =
      base + 2 + h.condition.length + behind.size by omega]

/-- The first block of a statement is one of its children. -/
theorem mem_rootIds_header (more : Outline) : base + 2 + h.condition.length ∈ rootIds (base + 1)
    (.node h.conditionLabel (leaves h.condition) (.node block body more)) := by
  simp [rootIds, size_leaves]

/-- So is the second one. -/
theorem mem_rootIds_header_second :
    base + 2 + h.condition.length + 1 + body.size ∈ rootIds (base + 1)
      (.node h.conditionLabel (leaves h.condition) (.node block body (.single otherBlock other))) := by
  simp [rootIds, size_leaves, Forest.single]

end Outline

/-! ## Inside a block -/

namespace Tree.Holds

variable {t : Tree} {base : Nat} {l : Label} {o children siblings : Outline}

/-- Right inside a block are those that its forest has at the top. -/
theorem blocksIn_block (h : t.Holds base (.node l children siblings)) (hl : l.kind.isBlock = true)
    (hin : ∀ m ∈ children.labels, m.kind.isBlock = m.kind.opensScope) :
    t.BlocksIn ⟨base, l, children.rootIds (base + 1)⟩ (children.blockForest (base + 1)).roots := by
  rw [children.roots_blockForest]
  constructor
  · intro m
    have hkind (hm : m ∈ children.shallow (base + 1)) :
        m.label.kind.isBlock = m.label.kind.opensScope := by
      apply hin
      rw [← children.map_label_number (base + 1)]
      exact List.mem_map_of_mem ((Outline.shallow_sublist _ _).subset hm)
    rw [Outline.innerBlocks, List.mem_filter]
    constructor
    · rintro ⟨hm, hblock⟩
      obtain ⟨hget, hbelongs⟩ := (h.mem_shallow_iff hl).mp hm
      exact ⟨hget, (hkind hm).symm.trans hblock, hbelongs⟩
    · rintro ⟨hget, hopens, hbelongs⟩
      have hm := (h.mem_shallow_iff hl).mpr ⟨hget, hbelongs⟩
      exact ⟨hm, (hkind hm).trans hopens⟩
  · have hsublist := (Outline.shallow_sublist children (base + 1)).filter (·.label.kind.isBlock)
    exact (Outline.pairwise_number _ _).sublist (hsublist.trans List.filter_sublist)

/-- Inside each block of an outline are the blocks that its forest of blocks tells. -/
theorem blocksIn (h : t.Holds base o) (hin : ∀ m ∈ o.labels, m.kind.isBlock = m.kind.opensScope) :
    ∀ b inner, (b, inner) ∈ (o.blockForest base).subtrees → t.BlocksIn b inner.roots := by
  induction o generalizing base with
  | nil => exact fun _ _ hmem => absurd hmem List.not_mem_nil
  | node l c s ihc ihs =>
    rw [Forest.labels_node] at hin
    obtain ⟨-, hrest⟩ := List.forall_mem_cons.mp hin
    obtain ⟨hc, hs⟩ := List.forall_mem_append.mp hrest
    have hbelow := ihc h.below hc
    have hbeside := ihs h.beside hs
    intro b inner hmem
    by_cases hl : l.kind.isBlock = true
    · rw [Outline.blockForest_of_isBlock hl, Forest.subtrees, List.mem_cons, List.mem_append] at hmem
      rcases hmem with heq | hmem | hmem
      · obtain ⟨rfl, rfl⟩ := Prod.mk.inj heq
        exact h.blocksIn_block hl hc
      · exact hbelow b inner hmem
      · exact hbeside b inner hmem
    · rw [Outline.blockForest_of_not_isBlock (Bool.eq_false_iff.mpr hl), Forest.subtrees_append,
        List.mem_append] at hmem
      exact hmem.elim (hbelow b inner) (hbeside b inner)

end Tree.Holds

/-! ## The blocks of a program -/

namespace Function

/-- The blocks of a function are its body, if it has one, and those inside the body. -/
theorem blockForest_outline (f : Function) (id : Nat) :
    f.outline.blockForest id = f.bodyOutline.blockForest (id + 1 + f.startOutline.size) := by
  rw [f.outline_eq, Forest.single, Outline.blockForest_of_not_isBlock rfl,
    Outline.blockForest_append, Outline.blockForest_eq_nil f.isBlock_startOutline,
    Forest.nil_append]
  exact Forest.append_nil _

theorem roots_blockForest (f : Function) (id : Nat) :
    (f.outline.blockForest id).roots = (f.bodyNode? id).toList := by
  rw [f.blockForest_outline, bodyOutline, bodyNode?]
  cases f.body with
  | none => rfl
  | some b =>
    show (Outline.blockForest _ (.node _ b.code.outline .nil)).roots = _
    rw [Outline.blockForest_of_isBlock rfl,
      show id + 1 + f.startOutline.size + 1 = id + 2 + f.startOutline.size by omega]
    rfl

theorem blocksIn_outline {t : Tree} {f : Function} {id : Nat} {more : Outline}
    (h : t.Holds id (f.outline ++ more)) :
    ∀ b inner, (b, inner) ∈ (f.outline.blockForest id).subtrees → t.BlocksIn b inner.roots := by
  have hbody := (h.below.append).2
  rw [f.blockForest_outline, bodyOutline]
  cases hb : f.body with
  | none => exact fun _ _ hmem => absurd hmem List.not_mem_nil
  | some body =>
    rw [hb] at hbody
    intro b inner hmem
    change _ ∈ (Outline.blockForest _ (.node _ body.code.outline .nil)).subtrees at hmem
    rw [Outline.blockForest_of_isBlock rfl, Forest.subtrees, List.mem_cons, List.mem_append] at hmem
    rcases hmem with heq | hmem | hmem
    · obtain ⟨rfl, rfl⟩ := Prod.mk.inj heq
      exact hbody.blocksIn_block rfl body.code.isBlock_labels
    · exact hbody.below.blocksIn body.code.isBlock_labels b inner hmem
    · exact absurd hmem List.not_mem_nil

end Function

namespace Program

variable (p : Program)

theorem blockForest_outline : p.outline.blockForest 0 =
    Outline.blockForest 1 (p.functions.foldr (fun f rest => f.outline ++ rest) .nil) := by
  rw [outline, Forest.single, Outline.blockForest_of_not_isBlock rfl]
  exact Forest.append_nil _

theorem roots_blockForest : (p.outline.blockForest 0).roots =
    p.numberedFunctions.filterMap fun (id, f) => f.bodyNode? id := by
  have hrow (fs : List Function) (base : Nat) :
      (Outline.blockForest base (fs.foldr (fun f rest => f.outline ++ rest) .nil)).roots =
        (numberFunctions base fs).filterMap fun (id, f) => f.bodyNode? id := by
    induction fs generalizing base with
    | nil => rfl
    | cons f fs ih =>
      rw [List.foldr_cons, Outline.blockForest_append, Forest.roots_append, f.roots_blockForest, ih,
        f.size_outline, numberFunctions, filterMap_cons_toList]
  rw [p.blockForest_outline, hrow]
  rfl

/-- What is said of a forest of blocks in the part of each function is said of that of the program. -/
theorem of_mem_subtrees_blockForest {b : Tree.Node} {inner : Forest Tree.Node}
    (h : (b, inner) ∈ (p.outline.blockForest 0).subtrees) :
    ∃ id f, (id, f) ∈ p.numberedFunctions ∧ (b, inner) ∈ (f.outline.blockForest id).subtrees := by
  have hrow (fs : List Function) (base : Nat) (h : (b, inner) ∈
      (Outline.blockForest base (fs.foldr (fun f rest => f.outline ++ rest) .nil)).subtrees) :
      ∃ id f, (id, f) ∈ numberFunctions base fs ∧ (b, inner) ∈ (f.outline.blockForest id).subtrees := by
    induction fs generalizing base with
    | nil => exact absurd h List.not_mem_nil
    | cons f fs ih =>
      rw [List.foldr_cons, Outline.blockForest_append, Forest.subtrees_append, f.size_outline] at h
      rcases List.mem_append.mp h with hfirst | hrest
      · exact ⟨base, f, List.mem_cons_self, hfirst⟩
      · obtain ⟨id, g, hg, hmem⟩ := ih _ hrest
        exact ⟨id, g, List.mem_cons_of_mem _ hg, hmem⟩
  rw [p.blockForest_outline] at h
  exact hrow p.functions 1 h

/-- **The blocks of a program stand inside one another as the outline tells.** -/
theorem isBlockForest : p.tree.IsBlockForest (p.outline.blockForest 0) where
  labels := p.outline.labels_blockForest 0
  roots := by
    rw [p.roots_blockForest, Tree.definitions, p.functions_tree, List.filterMap_map,
      List.map_filterMap]
    apply List.filterMap_congr
    intro x hx
    show _ = ((p.tree.childOfKind? x.1 .functionBody).map _).map _
    rw [p.childOfKind?_functionBody hx, Option.map_map]
    exact Option.map_id'.symm
  below b inner hmem := by
    obtain ⟨id, f, hf, hin⟩ := p.of_mem_subtrees_blockForest hmem
    obtain ⟨more, hheld⟩ := p.tree_holds_functions.function hf
    exact f.blocksIn_outline hheld b inner hin

end Program

/-! ## Scopes and blocks -/

/-- A scope stands for a child of a node if it has the lines of the child and is named as one. -/
theorem Tree.Holds.standsFor {t : Tree} {base : Nat} {l : Label} {children siblings : Outline}
    {s : Scope} {block : Tree.Node} (h : t.Holds base (.node l children siblings))
    (hmem : block.id ∈ children.rootIds (base + 1))
    (hhead : l.scopeHead? block.label = some (s.kind, s.name))
    (hstart : s.startLine = block.label.start.line) (hend : s.endLine = block.label.stop.line) :
    s.StandsFor t block where
  startLine := hstart
  endLine := hend
  head := ⟨⟨base, l, children.rootIds (base + 1)⟩, h.root, hmem, hhead⟩

/-- A block with what is inside it. -/
theorem Scope.alike_block {t : Tree} {base : Nat} {l : Label} {children : Outline} {s : Scope}
    {inner : Scopes} (hl : l.kind.isBlock = true)
    (hs : s.StandsFor t ⟨base, l, children.rootIds (base + 1)⟩)
    (hinner : Forest.Alike (StandsFor t) inner (children.blockForest (base + 1))) :
    Forest.Alike (StandsFor t) (.single s inner) (Outline.blockForest base (.single l children)) := by
  show Forest.Alike _ _ (Outline.blockForest base (.node l children .nil))
  rw [Outline.blockForest_of_isBlock hl]
  exact .node hs hinner .nil

/-- The scopes of some code stand for its blocks. -/
theorem Code.alike_frames {t : Tree} (isolate : Bool) (c : Code) {base : Nat}
    (h : t.Holds base c.outline) :
    Forest.Alike (Scope.StandsFor t) (c.frames isolate) (c.outline.blockForest base) := by
  induction c generalizing base with
  | done => exact .nil
  | skip x rest ih => exact ih h
  | simple s rest ih =>
    have hl : s.label.kind.isBlock = false := by cases s <;> rfl
    rw [outline, Outline.blockForest_of_not_isBlock hl, Outline.blockForest_eq_nil s.isBlock_parts]
    exact ih h.beside
  | loop kind hd body closing rest ihb ih =>
    have hl : kind.nodeKind.isBlock = false := by cases kind <;> rfl
    obtain ⟨hblock, hrest, -⟩ := h.header
    rw [outline, Outline.blockForest_header hl]
    show Forest.Alike _ (.single _ (body.frames isolate) ++ rest.frames isolate) _
    refine .append (Scope.alike_block rfl ?_ (ihb hblock.below)) (ih hrest)
    refine h.standsFor (Outline.mem_rootIds_header _) ?_ rfl rfl
    cases kind <;> rfl
  | ifThen hd body closing rest ihb ih =>
    obtain ⟨hblock, hrest, -⟩ := h.header
    rw [outline, Outline.blockForest_header rfl]
    show Forest.Alike _ (.single _ (body.frames isolate) ++ rest.frames isolate) _
    refine .append (Scope.alike_block rfl ?_ (ihb hblock.below)) (ih hrest)
    exact h.standsFor (Outline.mem_rootIds_header _) rfl rfl rfl
  | ifThenElse hd body closing e other otherClosing rest ihb iho ih =>
    obtain ⟨hblock, hrest, -⟩ := h.header
    rw [outline, Outline.blockForest_header rfl, Outline.blockForest_node, Forest.append_assoc]
    show Forest.Alike _ (.single _ (body.frames isolate) ++
      (.single _ (other.frames isolate) ++ rest.frames isolate)) _
    refine .append (Scope.alike_block rfl ?_ (ihb hblock.below)) <|
      .append (Scope.alike_block rfl ?_ (iho hblock.beside.below)) (ih hrest)
    · exact h.standsFor (Outline.mem_rootIds_header _) rfl rfl rfl
    · exact h.standsFor Outline.mem_rootIds_header_second rfl rfl rfl

/-- The scopes of a function stand for its blocks. -/
theorem Function.alike_frames {t : Tree} (isolate : Bool) (f : Function) {id : Nat} {more : Outline}
    (h : t.Holds id (f.outline ++ more)) :
    Forest.Alike (Scope.StandsFor t) (f.frames isolate) (f.outline.blockForest id) := by
  have hbody := (h.below.append).2
  rw [f.blockForest_outline, frames, bodyOutline]
  cases hb : f.body with
  | none => exact .nil
  | some b =>
    rw [hb] at hbody
    refine Scope.alike_block rfl (h.standsFor ?_ rfl rfl rfl) (b.code.alike_frames isolate hbody.below)
    rw [Outline.rootIds_append, hb]
    exact List.mem_append_right _ List.mem_cons_self

namespace Program

theorem alike_frames (p : Program) (isolate : Bool) :
    Forest.Alike (Scope.StandsFor p.tree) (p.frames isolate) (p.outline.blockForest 0) := by
  have hrow (fs : List Function) (base : Nat)
      (h : p.tree.Holds base (fs.foldr (fun f rest => f.outline ++ rest) .nil)) :
      Forest.Alike (Scope.StandsFor p.tree) (framesOf isolate fs)
        (Outline.blockForest base (fs.foldr (fun f rest => f.outline ++ rest) .nil)) := by
    induction fs generalizing base with
    | nil => exact .nil
    | cons f fs ih =>
      rw [List.foldr_cons] at h ⊢
      rw [Outline.blockForest_append]
      exact (f.alike_frames isolate h).append (ih _ h.append.2)
  rw [p.blockForest_outline]
  exact hrow p.functions 1 p.tree_holds_functions

theorem alike_scopes (p : Program) (config : Config) :
    Forest.Alike (Scope.StandsFor p.tree) (p.scopes config) (p.outline.blockForest 0) := by
  have hframes := p.alike_frames config.isolateScopes
  rw [← p.map_unmarked_scopes] at hframes
  -- without marks a scope has the same lines, kind and name
  exact hframes.of_map.imp fun s b hs => ⟨hs.startLine, hs.endLine, hs.head⟩

/-- **The scopes of a program stand inside one another as its blocks do**, and each stands for its block,
    whose lines it has. -/
theorem scopes_mirror_blocks {source : String} {limit : Nat} {p : Program}
    (hread : read limit (tokenize source).tokens = .ok p) (config : Config) :
    ∃ scopes blocks, p.tree.scopes config = .ok scopes ∧ p.tree.IsBlockForest blocks ∧
      Forest.Alike (Scope.StandsFor p.tree) scopes blocks ∧ scopes.LinesNest :=
  ⟨p.scopes config, p.outline.blockForest 0, p.scopes_tree config, p.isBlockForest,
    p.alike_scopes config, (within_scopes hread config).linesNest⟩

/-- A loop over several lines around a chain of `if`s. -/
def chainInLoop : String :=
  "void f() \x7b\n while (a) \x7b\n  if (b) \x7b int x; \x7d\n  else if (c) \x7b g(); \x7d\n \x7d\n\x7d"

theorem scopes_mirror_blocks_chainInLoop :
    ∃ p scopes blocks, read 4 (tokenize chainInLoop).tokens = .ok p ∧
      p.tree.scopes {} = .ok scopes ∧ p.tree.IsBlockForest blocks ∧
      Forest.Alike (Scope.StandsFor p.tree) scopes blocks ∧ scopes.LinesNest := by
  have hok : (read 4 (tokenize chainInLoop).tokens).isOk = true := by decide +kernel
  obtain ⟨p, hread⟩ := exists_ok_of_isOk hok
  obtain ⟨scopes, blocks, hscopes, hblocks, halike, hlines⟩ := scopes_mirror_blocks hread {}
  exact ⟨p, scopes, blocks, hread, hscopes, hblocks, halike, hlines⟩

/-- The second `if` has its scope inside that of the `else`. -/
example : (read 4 (tokenize chainInLoop).tokens).toOption.map (fun p =>
    (p.scopes {}).map fun s => (s.name, s.startLine, s.endLine)) =
      some (.single ("f", 1, 6) <| .single ("while", 2, 5) <| .node ("if", 3, 3) .nil <|
        .single ("else", 4, 4) <| .single ("if", 4, 4) .nil) := by decide +kernel

end Program

end BraceLang
