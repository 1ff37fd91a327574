import BraceLang.Program.Reader
import BraceLang.Proofs.Scope.Lookup
import BraceLang.Proofs.Tree.Parts
import BraceLang.Token.Lexer

/-!
# `Proofs.Scope.Usage` — usage tracking is lookup in the syntax tree

A block hands the names that it does not declare to the block around it, where they are looked up along
with the references there. So the names that a block gets are those that are looked up in it in the sense
of the syntax tree, and a variable is marked just if its name is among them.

## Contents
- `Outline.blocks` and `Outline.innerBlocks`, the blocks of an outline.
- `Holds.declares_iff` and `Holds.looksUp_iff`, what is declared and looked up in a block, told by the code
  in it.
- `Resolved.Follows`, with `Follows.block` for the scope of a block, and **`Code.resolve_follows`**.
- `Program.forall₂_blocks`, from functions to a program, and **`Program.scopes_isolated`**.
-/

namespace BraceLang

/-! ## The blocks of an outline -/

namespace Outline

/-- The blocks of an outline, in the order of their numbers. -/
def blocks (base : Nat) (o : Outline) : List Tree.Node :=
  (o.number base).filter (·.label.kind.isBlock)

/-- The blocks of an outline that are not inside of one another. -/
def innerBlocks (base : Nat) (o : Outline) : List Tree.Node :=
  (o.shallow base).filter (·.label.kind.isBlock)

/-- The nodes of an outline that count in a block around it, as to what they declare. -/
def counted (isolate : Bool) (base : Nat) (o : Outline) : List Tree.Node :=
  if isolate then o.shallow base else o.number base

theorem counted_sublist (isolate : Bool) (base : Nat) (o : Outline) :
    (o.counted isolate base).Sublist (o.number base) := by
  cases isolate with
  | true => exact shallow_sublist o base
  | false => exact List.Sublist.refl _

variable {base : Nat} {l : Label} {o children siblings : Outline} {h : Header}

/-- The blocks of the first tree come before those of the others. -/
theorem blocks_node : blocks base (.node l children siblings) =
    blocks base (.single l children) ++ blocks (base + 1 + children.size) siblings := by
  simp only [blocks, Forest.single, number, List.append_nil, ← List.cons_append, List.filter_append]

theorem innerBlocks_node : innerBlocks base (.node l children siblings) =
    innerBlocks base (.single l children) ++ innerBlocks (base + 1 + children.size) siblings := by
  simp only [innerBlocks, Forest.single, shallow, List.append_nil, ← List.cons_append,
    List.filter_append]

theorem blocks_of_isBlock (hl : l.kind.isBlock = true) : blocks base (.single l children) =
    ⟨base, l, rootIds (base + 1) children⟩ :: blocks (base + 1) children := by
  rw [blocks, Forest.single, number, number, List.append_nil, List.filter_cons, if_pos hl]
  rfl

theorem innerBlocks_of_isBlock (hl : l.kind.isBlock = true) :
    innerBlocks base (.single l children) = [⟨base, l, rootIds (base + 1) children⟩] := by
  rw [innerBlocks, Forest.single, shallow, shallow, if_pos hl, List.filter_cons, if_pos hl]
  rfl

theorem blocks_of_not_isBlock (hl : l.kind.isBlock = false) :
    blocks base (.single l children) = blocks (base + 1) children := by
  rw [blocks, Forest.single, number, number, List.append_nil,
    List.filter_cons_of_neg (by simp [hl])]
  rfl

theorem innerBlocks_of_not_isBlock (hl : l.kind.isBlock = false) :
    innerBlocks base (.single l children) = innerBlocks (base + 1) children := by
  rw [innerBlocks, Forest.single, shallow, shallow, if_neg (by simp [hl]), List.append_nil,
    List.filter_cons_of_neg (by simp [hl])]
  rfl

theorem blocks_append (o more : Outline) (base : Nat) :
    (o ++ more).blocks base = o.blocks base ++ more.blocks (base + o.size) := by
  rw [blocks, number_append, List.filter_append]
  rfl

/-- An outline without a block has none. -/
theorem blocks_eq_nil (ho : ∀ l ∈ o.labels, l.kind.isBlock = false) : o.blocks base = [] := by
  induction o generalizing base with
  | nil => rfl
  | node l c s ihc ihs =>
    rw [Forest.labels_node] at ho
    obtain ⟨hl, hrest⟩ := List.forall_mem_cons.mp ho
    obtain ⟨hc, hs⟩ := List.forall_mem_append.mp hrest
    rw [blocks_node, blocks_of_not_isBlock hl, ihc hc, ihs hs, List.append_nil]

theorem innerBlocks_eq_nil (ho : ∀ l ∈ o.labels, l.kind.isBlock = false) :
    o.innerBlocks base = [] := by
  have hsublist : (o.innerBlocks base).Sublist (o.blocks base) := (shallow_sublist o base).filter _
  rw [blocks_eq_nil ho] at hsublist
  exact List.sublist_nil.mp hsublist

theorem isBlock_leaves (tokens : List Token) :
    ∀ l ∈ (leaves tokens).labels, l.kind.isBlock = false :=
  fun l hl => NodeKind.isBlock_of_isPart (isPart_leaves tokens l hl)

/-- The blocks of a statement with a header are those behind the header. -/
theorem blocks_header (hl : l.kind.isBlock = false) (behind : Outline) :
    blocks base (.node l (.node h.conditionLabel (leaves h.condition) behind) siblings) =
      blocks (base + 2 + h.condition.length) behind ++
        blocks (base + 2 + h.condition.length + behind.size) siblings := by
  rw [blocks_node, blocks_of_not_isBlock hl, blocks_node, blocks_of_not_isBlock rfl,
    blocks_eq_nil (isBlock_leaves _), List.nil_append, Forest.size, size_leaves,
    show base + 1 + 1 + h.condition.length = base + 2 + h.condition.length by omega,
    show base + 1 + (1 + h.condition.length + behind.size) =
      base + 2 + h.condition.length + behind.size by omega]

theorem innerBlocks_header (hl : l.kind.isBlock = false) (behind : Outline) :
    innerBlocks base (.node l (.node h.conditionLabel (leaves h.condition) behind) siblings) =
      innerBlocks (base + 2 + h.condition.length) behind ++
        innerBlocks (base + 2 + h.condition.length + behind.size) siblings := by
  rw [innerBlocks_node, innerBlocks_of_not_isBlock hl, innerBlocks_node,
    innerBlocks_of_not_isBlock rfl, innerBlocks_eq_nil (isBlock_leaves _), List.nil_append,
    Forest.size, size_leaves,
    show base + 1 + 1 + h.condition.length = base + 2 + h.condition.length by omega,
    show base + 1 + (1 + h.condition.length + behind.size) =
      base + 2 + h.condition.length + behind.size by omega]

end Outline

/-! ## Code -/

/-- The parts of a statement without a block are no blocks. -/
theorem Simple.isBlock_parts (s : Simple) : ∀ l ∈ s.parts.labels, l.kind.isBlock = false :=
  fun l hl => NodeKind.isBlock_of_isPart (s.isPart_parts l hl)

namespace Code

/-- In some code every block has a scope of its own, for none is the body of a function. -/
theorem isBlock_labels (c : Code) : ∀ l ∈ c.outline.labels, l.kind.isBlock = l.kind.opensScope := by
  have hplain {o : Outline} (ho : ∀ l ∈ o.labels, l.kind.isBlock = false) :
      ∀ l ∈ o.labels, l.kind.isBlock = l.kind.opensScope := by
    intro l hl
    have hnot := ho l hl
    cases hkind : l.kind <;> rw [hkind] at hnot <;> first | rfl | nomatch hnot
  induction c with
  | done => exact fun _ hl => absurd hl List.not_mem_nil
  | skip x rest ih => exact ih
  | simple s rest ih =>
    rw [outline, Forest.labels_node]
    refine List.forall_mem_cons.mpr ⟨?_, List.forall_mem_append.mpr ⟨hplain s.isBlock_parts, ih⟩⟩
    cases s <;> rfl
  | loop kind hd body closing rest ihb ih =>
    have hcondition := hplain (Outline.isBlock_leaves hd.condition)
    simp only [outline, Forest.single, Forest.labels_node, Forest.labels_nil, List.append_nil,
      List.forall_mem_cons, List.forall_mem_append]
    exact ⟨by cases kind <;> rfl, ⟨rfl, hcondition, rfl, ihb⟩, ih⟩
  | ifThen hd body closing rest ihb ih =>
    have hcondition := hplain (Outline.isBlock_leaves hd.condition)
    simp only [outline, Forest.single, Forest.labels_node, Forest.labels_nil, List.append_nil,
      List.forall_mem_cons, List.forall_mem_append]
    exact ⟨rfl, ⟨rfl, hcondition, rfl, ihb⟩, ih⟩
  | ifThenElse hd body closing e other otherClosing rest ihb iho ih =>
    have hcondition := hplain (Outline.isBlock_leaves hd.condition)
    simp only [outline, Forest.single, Forest.labels_node, Forest.labels_nil, List.append_nil,
      List.forall_mem_cons, List.forall_mem_append]
    exact ⟨rfl, ⟨rfl, hcondition, rfl, ihb, rfl, iho⟩, ih⟩

end Code

namespace Tree.Holds

variable {t : Tree} {base id : Nat} {l : Label} {siblings : Outline} {c : Code} {isolate : Bool}
  {name : String}

theorem references_eq (h : t.Holds base c.outline) :
    c.references = (c.outline.shallow base).filterMap t.reference? := by
  have hcontents := (h.contents_isolated c.isBlock_labels .ifBody).2
  rwa [c.contents_outline] at hcontents

theorem declarations_eq (h : t.Holds base c.outline) (isolate : Bool) :
    c.declarations isolate = (c.outline.counted isolate base).filterMap t.localVariable? := by
  cases isolate with
  | true =>
    have hcontents := (h.contents_isolated c.isBlock_labels .ifBody).1
    rwa [c.contents_outline] at hcontents
  | false =>
    have hcontents := h.contents_declared false .ifBody
    rwa [c.contents_outline] at hcontents

section Block

variable (h : t.Holds base (.node l c.outline siblings)) (hl : l.kind.isBlock = true)

include h hl

theorem mem_counted_iff {n : Node} : n ∈ c.outline.counted isolate (base + 1) ↔
    t.get? n.id = some n ∧ t.CountsIn isolate n.id base := by
  rw [h.below.mem_iff_of_sublist (Outline.counted_sublist _ _ _)]
  cases isolate with
  | true => exact and_congr_right' (h.belongsTo_iff hl).symm
  | false => exact and_congr_right' (h.transBelongsTo_iff hl).symm

/-- The names that are declared in a block are those of the variables that count in it. -/
theorem declares_iff :
    t.Declares isolate base name ↔ ∃ v ∈ c.declarations isolate, v.name = name := by
  rw [h.below.declarations_eq isolate]
  constructor
  · rintro ⟨n, v, hn, hv, hname, hcounts⟩
    have hmem := (h.mem_counted_iff hl).mpr ⟨hn, hcounts⟩
    exact ⟨v, List.mem_filterMap.mpr ⟨n, hmem, hv⟩, hname⟩
  · rintro ⟨v, hv, hname⟩
    obtain ⟨n, hmem, hn⟩ := List.mem_filterMap.mp hv
    obtain ⟨hget, hcounts⟩ := (h.mem_counted_iff hl).mp hmem
    exact ⟨n, v, hget, hn, hname, hcounts⟩

/-- The names that are looked up in a block are the references in it and what the blocks directly inside it
    leave. -/
theorem looksUp_iff : t.LooksUp isolate name base ↔ name ∈ c.references ∨
    ∃ b ∈ c.outline.innerBlocks (base + 1), t.LooksUp isolate name b.id ∧
      ¬ t.Declares isolate b.id name := by
  rw [h.below.references_eq]
  constructor
  · intro hlooks
    cases hlooks with
    | here hn hreference hbelongs =>
      have hmem := (h.mem_shallow_iff hl).mpr ⟨hn, hbelongs⟩
      exact .inl (List.mem_filterMap.mpr ⟨_, hmem, hreference⟩)
    | @outward id _ hlooks hnot hbelongs =>
      obtain ⟨b, hb, hkind⟩ := hlooks.isBlock
      obtain ⟨n, hn, rfl⟩ := (h.belongsTo_iff hl).mp hbelongs
      have hget := ((h.mem_shallow_iff hl).mp hn).1
      rw [hb] at hget
      obtain rfl := Option.some.inj hget
      exact .inr ⟨b, List.mem_filter.mpr ⟨hn, hkind⟩, hlooks, hnot⟩
  · rintro (hreference | ⟨b, hb, hlooks, hnot⟩)
    · obtain ⟨n, hn, hname⟩ := List.mem_filterMap.mp hreference
      obtain ⟨hget, hbelongs⟩ := (h.mem_shallow_iff hl).mp hn
      exact .here hget hname hbelongs
    · exact .outward hlooks hnot ((h.mem_shallow_iff hl).mp (List.mem_filter.mp hb).1).2

end Block

end Tree.Holds

/-! ## Looking names up -/

/-- A declaration alone does not make a variable used. -/
theorem Tree.used_localVariable? {t : Tree} {n : Tree.Node} {v : Variable}
    (h : t.localVariable? n = some v) : v.used = false := by
  unfold localVariable? declaredVariable? at h
  split at h
  · obtain ⟨type, -, h⟩ := Option.bind_eq_some_iff.mp h
    obtain ⟨name, -, h⟩ := Option.bind_eq_some_iff.mp h
    obtain rfl := Option.some.inj h
    rfl
  · exact absurd h (Option.some_ne_none v).symm

/-- The list that a function that may fail gives, related with what it was asked of. -/
theorem forall₂_filterMap {α β : Type} (f : α → Option β) (as : List α) :
    List.Forall₂ (fun b a => f a = some b) (as.filterMap f) (as.filter fun a => (f a).isSome) := by
  induction as with
  | nil => exact .nil
  | cons a as ih =>
    cases ha : f a with
    | none =>
      rw [List.filterMap_cons_none ha, List.filter_cons_of_neg (by simp [ha])]
      exact ih
    | some b =>
      rw [List.filterMap_cons_some ha, List.filter_cons_of_pos (by simp [ha])]
      exact .cons ha ih

/-- What is found in a row of blocks is what the tree says of these blocks. The scopes are those of the
    blocks `all`, in which a variable is used just if its name is looked up in the block, and the names
    that are left are those that are looked up in one of the blocks `outer`, which does not declare them. -/
structure Resolved.Follows (t : Tree) (config : Config) (all outer : List Tree.Node) (r : Resolved) :
    Prop where
  scopes : List.Forall₂ (t.ScopeOf config.isolateScopes fun b _ v =>
    t.LooksUp config.isolateScopes v.name b.id) r.scopes.labels all
  free : ∀ name, name ∈ r.free ↔ ∃ b ∈ outer, t.LooksUp config.isolateScopes name b.id ∧
    ¬ t.Declares config.isolateScopes b.id name

namespace Resolved.Follows

variable {t : Tree} {config : Config} {base : Nat} {l : Label} {siblings : Outline} {c : Code}
  {all outer more others : List Tree.Node} {r s : Resolved}

theorem nil : Follows t config [] [] ⟨.nil, []⟩ where
  scopes := .nil
  free name := by simp

theorem append (hr : r.Follows t config all outer) (hs : s.Follows t config more others) :
    (r.append s).Follows t config (all ++ more) (outer ++ others) where
  scopes := by
    rw [Resolved.append, Forest.labels_append]
    exact List.rel_append hr.scopes hs.scopes
  free name := by
    rw [Resolved.append, List.mem_append, hr.free, hs.free]
    simp only [List.mem_append, or_and_right, exists_or]

/-- The variables of the declarations that count in a block, with those marked of which the name is looked
    up in it. -/
theorem locals (h : t.Holds base (.node l c.outline siblings)) (hl : l.kind.isBlock = true)
    {isolate : Bool} {names : List String}
    (hnames : ∀ name, name ∈ names ↔ t.LooksUp isolate name base) :
    ∃ declarations : List Tree.Node,
      declarations.Pairwise (fun n m => n.id < m.id) ∧
      (∀ n, n ∈ declarations ↔ t.get? n.id = some n ∧ (t.localVariable? n).isSome = true ∧
        t.CountsIn isolate n.id base) ∧
      List.Forall₂ (fun v n => ∃ w, t.localVariable? n = some w ∧ v = { w with used := v.used } ∧
          (v.used = true ↔ t.LooksUp isolate v.name base))
        ((c.declarations isolate).map fun v => { v with used := v.used || names.contains v.name })
        declarations := by
  refine ⟨(c.outline.counted isolate (base + 1)).filter fun n => (t.localVariable? n).isSome,
    ?_, ?_, ?_⟩
  · exact ((Outline.pairwise_number _ _).sublist (Outline.counted_sublist _ _ _)).filter _
  · intro n
    rw [List.mem_filter, h.mem_counted_iff hl]
    exact and_right_comm.trans and_assoc
  · rw [List.forall₂_map_left_iff, h.below.declarations_eq]
    refine (forall₂_filterMap _ _).imp ?_
    intro v n hv
    refine ⟨v, hv, rfl, ?_⟩
    rw [← hnames, Tree.used_localVariable? hv, Bool.false_or, List.contains_iff_mem]

/-- **Looking names up in a block.** -/
theorem block (htrack : config.trackUsage = true)
    (hc : (c.resolve config).Follows t config (c.outline.blocks (base + 1))
      (c.outline.innerBlocks (base + 1)))
    (h : t.Holds base (.node l c.outline siblings)) (hl : l.kind.isBlock = true) (name : String)
    (kind : Scope.Kind) {first last : Token} (hstart : first.position.line = l.start.line)
    (hstop : last.endPosition.line = l.stop.line) :
    (Scope.ofBlock config name kind first last c (c.resolve config)).Follows t config
      (Outline.blocks base (.single l c.outline))
      (Outline.innerBlocks base (.single l c.outline)) := by
  have hnames (name : String) : name ∈ c.references ++ (c.resolve config).free ↔
      t.LooksUp config.isolateScopes name base := by
    rw [List.mem_append, hc.free, h.looksUp_iff hl]
  rw [Scope.ofBlock, Scope.above, if_pos htrack, Outline.blocks_of_isBlock hl,
    Outline.innerBlocks_of_isBlock hl]
  constructor
  · show List.Forall₂ _ (Forest.single _ _).labels _
    rw [Forest.single, Forest.labels_node, Forest.labels_nil, List.append_nil]
    exact .cons ⟨hstart, hstop, locals h hl hnames⟩ hc.scopes
  · intro name'
    show name' ∈ List.filter _ (c.references ++ (c.resolve config).free) ↔ _
    simp only [List.mem_filter, hnames, List.mem_singleton, exists_eq_left, h.declares_iff hl]
    simp [Scope.declares]

end Resolved.Follows

/-- **Names are looked up in some code as the syntax tree says.** -/
theorem Code.resolve_follows {t : Tree} {config : Config} (htrack : config.trackUsage = true) (c : Code)
    {base : Nat} (h : t.Holds base c.outline) :
    (c.resolve config).Follows t config (c.outline.blocks base) (c.outline.innerBlocks base) := by
  induction c generalizing base with
  | done => exact .nil
  | skip x rest ih => exact ih h
  | simple s rest ih =>
    have hl : s.label.kind.isBlock = false := by cases s <;> rfl
    rw [outline, Outline.blocks_node, Outline.blocks_of_not_isBlock hl,
      Outline.blocks_eq_nil s.isBlock_parts, Outline.innerBlocks_node,
      Outline.innerBlocks_of_not_isBlock hl, Outline.innerBlocks_eq_nil s.isBlock_parts]
    exact ih h.beside
  | loop kind hd body closing rest ihb ih =>
    have hl : kind.nodeKind.isBlock = false := by cases kind <;> rfl
    obtain ⟨hblock, hrest, -⟩ := h.header
    have hbody := Resolved.Follows.block htrack (ihb hblock.below) hblock rfl kind.scopeKind.name
      kind.scopeKind rfl rfl
    rw [outline, Outline.blocks_header hl, Outline.innerBlocks_header hl]
    exact hbody.append (ih hrest)
  | ifThen hd body closing rest ihb ih =>
    obtain ⟨hblock, hrest, -⟩ := h.header
    have hbody := Resolved.Follows.block htrack (ihb hblock.below) hblock rfl
      Scope.Kind.ifBody.name .ifBody rfl rfl
    rw [outline, Outline.blocks_header rfl, Outline.innerBlocks_header rfl]
    exact hbody.append (ih hrest)
  | ifThenElse hd body closing e other otherClosing rest ihb iho ih =>
    obtain ⟨hblock, hrest, -⟩ := h.header
    have hbody := Resolved.Follows.block htrack (ihb hblock.below) hblock rfl
      Scope.Kind.ifBody.name .ifBody rfl rfl
    have hother := Resolved.Follows.block htrack (iho hblock.beside.below) hblock.beside rfl
      Scope.Kind.elseBranch.name .elseBranch rfl rfl
    rw [outline, Outline.blocks_header rfl, Outline.innerBlocks_header rfl, Outline.blocks_node,
      Outline.innerBlocks_node, List.append_assoc, List.append_assoc]
    exact hbody.append (hother.append (ih hrest))

/-! ## Functions and programs -/

/-- What comes before the body of a function are no blocks. -/
theorem Function.isBlock_startOutline (f : Function) :
    ∀ l ∈ f.startOutline.labels, l.kind.isBlock = false :=
  fun l hl => NodeKind.isBlock_of_isPart (f.isPart_startOutline l hl)

/-- The scopes of a function, before those that are copies of each other are made to agree. -/
theorem Function.exists_forall₂_scopeOf {t : Tree} {config : Config} {id : Nat} {f : Function}
    {more : Outline} (htrack : config.trackUsage = true) (h : t.Holds id (f.outline ++ more)) :
    ∃ scopes : Scopes, f.scopes config = scopes.settle config ∧
      List.Forall₂ (t.ScopeOf config.isolateScopes fun b _ v =>
        t.LooksUp config.isolateScopes v.name b.id) scopes.labels (f.outline.blocks id) := by
  have hbody := (h.below.append).2
  rw [Function.scopes, outline, Outline.blocks_of_not_isBlock rfl, Outline.blocks_append,
    Outline.blocks_eq_nil f.isBlock_startOutline, List.nil_append]
  cases hb : f.body with
  | none =>
    refine ⟨.nil, ?_, .nil⟩
    show Forest.nil = Scopes.settle config .nil
    rw [Scopes.settle]
    split <;> rfl
  | some b =>
    rw [hb] at hbody
    have hcode := b.code.resolve_follows htrack hbody.below
    have hblock : (Scope.ofBlock config f.name.text .function b.brace b.last b.code
        (b.code.resolve config)).Follows t config _ _ :=
      .block htrack hcode hbody rfl f.name.text .function rfl rfl
    exact ⟨_, rfl, hblock.scopes⟩

namespace Program

/-- What holds of a row for each function and the blocks of the function holds of all these rows and the
    blocks of the program. -/
theorem forall₂_blocks {α : Type} (p : Program) (row : Function → List α) {R : α → Tree.Node → Prop}
    (hall : ∀ id f, (id, f) ∈ p.numberedFunctions → List.Forall₂ R (row f) (f.outline.blocks id)) :
    List.Forall₂ R (p.functions.flatMap row) p.tree.blocks := by
  have hrow (fs : List Function) (base : Nat) (hall : ∀ id f, (id, f) ∈ numberFunctions base fs →
      List.Forall₂ R (row f) (f.outline.blocks id)) :
      List.Forall₂ R (fs.flatMap row)
        (Outline.blocks base (fs.foldr (fun f rest => f.outline ++ rest) .nil)) := by
    induction fs generalizing base with
    | nil => exact .nil
    | cons f fs ih =>
      have hfirst := hall base f List.mem_cons_self
      have hrest := ih (base + f.nodeCount) fun id g hg => hall id g (List.mem_cons_of_mem _ hg)
      rw [List.flatMap_cons, List.foldr_cons, Outline.blocks_append, f.size_outline]
      exact List.rel_append hfirst hrest
  have hroot := hrow p.functions 1 hall
  rwa [← Outline.blocks_of_not_isBlock (l := p.label) rfl] at hroot

theorem labels_scopes (p : Program) (config : Config) :
    (p.scopes config).labels = p.functions.flatMap fun f => (f.scopes config).labels := by
  rw [scopes]
  induction p.functions with
  | nil => rfl
  | cons f fs ih => rw [List.foldr_cons, Forest.labels_append, ih, List.flatMap_cons]

/-- What holds of the scopes and the blocks of every function holds of those of the program. -/
theorem forall₂_scopes (p : Program) (config : Config) {R : Scope → Tree.Node → Prop}
    (hall : ∀ id f, (id, f) ∈ p.numberedFunctions →
      List.Forall₂ R (f.scopes config).labels (f.outline.blocks id)) :
    List.Forall₂ R (p.scopes config).labels p.tree.blocks := by
  rw [p.labels_scopes config]
  exact p.forall₂_blocks _ hall

/-- The isolated scopes of a program and its blocks. -/
theorem forall₂_scopeOf_isolated (p : Program) {config : Config} (htrack : config.trackUsage = true)
    (hisolate : config.isolateScopes = true) :
    List.Forall₂ (p.tree.ScopeOf true fun b _ v => p.tree.LooksUp true v.name b.id)
      (p.scopes config).labels p.tree.blocks := by
  apply p.forall₂_scopes config
  intro id f hf
  obtain ⟨more, hheld⟩ := p.tree_holds_functions.function hf
  obtain ⟨scopes, hscopes, hfollows⟩ := f.exists_forall₂_scopeOf htrack hheld
  have hsettle : scopes.settle config = scopes := by
    rw [Scopes.settle, htrack, hisolate]
    rfl
  rw [hscopes, hsettle]
  rwa [hisolate] at hfollows

/-- **With isolated scopes a variable is used just if its name is looked up in its block.** The blocks of
    the program have scopes, in the order of their numbers, and the scope of a block has exactly the
    variables that are declared in it. -/
theorem scopes_isolated (p : Program) {config : Config} (htrack : config.trackUsage = true)
    (hisolate : config.isolateScopes = true) :
    ∃ scopes, p.tree.scopes config = .ok scopes ∧
      List.Forall₂ (p.tree.ScopeOf true fun b _ v => p.tree.LooksUp true v.name b.id)
        scopes.labels p.tree.blocks :=
  ⟨p.scopes config, p.scopes_tree config, p.forall₂_scopeOf_isolated htrack hisolate⟩

/-- A name that is declared around a block and in it, and used in the inner block only. -/
def shadowing : List Token :=
  (tokenize "void f() \x7b int x; if (y) \x7b int x = 1; g(x); \x7d \x7d").tokens

theorem read_shadowing : ∃ p, read 3 shadowing = .ok p := by
  have hread : (read 3 shadowing).toOption.isSome = true := by decide +kernel
  cases hp : read 3 shadowing with
  | error e =>
    rw [hp] at hread
    exact absurd hread Bool.false_ne_true
  | ok p => exact ⟨p, rfl⟩

theorem scopes_isolated_shadowing :
    ∃ p, read 3 shadowing = .ok p ∧ ∃ scopes,
      p.tree.scopes { trackUsage := true, isolateScopes := true } = .ok scopes ∧
      List.Forall₂ (p.tree.ScopeOf true fun b _ v => p.tree.LooksUp true v.name b.id)
        scopes.labels p.tree.blocks := by
  obtain ⟨p, hread⟩ := read_shadowing
  exact ⟨p, hread, p.scopes_isolated rfl rfl⟩

/-- The outer declaration is not used, for the inner one keeps the reference. -/
example : (read 3 shadowing).toOption.map (fun p =>
    (p.scopes { trackUsage := true, isolateScopes := true }).labels.map fun s =>
      s.locals.map Variable.used) = some [[false], [true]] := by decide +kernel

end Program

end BraceLang
