import BraceLang.Proofs.Scope.TreeScopes
import BraceLang.Proofs.Tree.Depth
import BraceLang.Proofs.Tree.Placement
import Mathlib.Data.List.Forall2
import Mathlib.Logic.Relation

/-!
# `Proofs.Scope.Lookup` — what a name means, told by the syntax tree

A node belongs to the nearest block above it, so the condition of a statement belongs to the block that
the statement stands in. A name is looked up in the block that the reference belongs to, and from there
outward as long as no declaration of the name counts.

These are relations between nodes of a tree, which say nothing about how scopes are built. In a part of a
tree that is held they can be read off the outline: what belongs to a block are the nodes that are met
below it by a walk that goes into no other block.

## Contents
- `Tree.BelongsTo`, `Tree.CountsIn`, `Tree.Declares` and `Tree.LooksUp`.
- `Tree.ScopeOf`, what is said about the scope of a block.
- `Outline.shallow`, the walk that stops at blocks.
- **`Holds.belongsTo_iff`** and **`Holds.transBelongsTo_iff`**, what belongs to a block and to the blocks
  inside it.
- `Holds.contents_declared` and `Holds.contents_isolated`: what a walk collects.
-/

namespace BraceLang

namespace Tree

/-! ## Blocks, declarations and references -/

/-- The node `id` belongs to a block: this is the nearest block above it. -/
inductive BelongsTo (t : Tree) : Nat → Nat → Prop
  | directly {n : Node} {id block : Nat} : t.get? block = some n → n.label.kind.isBlock = true →
      id ∈ n.children → BelongsTo t id block
  | through {n : Node} {id above block : Nat} : t.get? above = some n →
      n.label.kind.isBlock = false → id ∈ n.children → BelongsTo t above block →
      BelongsTo t id block

/-- The variable that a node declares, if it is a declaration. -/
def localVariable? (t : Tree) (n : Node) : Option Variable :=
  match n.label.kind with
  | .variableDeclaration => t.declaredVariable? n
  | _ => none

/-- The name that a node refers to, if it is a name in a row of tokens or an assignment. -/
def reference? (t : Tree) (n : Node) : Option String :=
  match n.label.kind with
  | .leaf .identifier => n.label.value
  | .assignment => (t.childOfKind? n.id .identifier).map (·.label.text)
  | _ => none

/-- The node `id` counts in a block: it belongs to the block or, unless scopes are isolated, to a block
    inside it. -/
def CountsIn (t : Tree) (isolate : Bool) (id block : Nat) : Prop :=
  if isolate then t.BelongsTo id block else Relation.TransGen t.BelongsTo id block

/-- Some declaration of a name counts in the block. -/
def Declares (t : Tree) (isolate : Bool) (block : Nat) (name : String) : Prop :=
  ∃ n v, t.get? n.id = some n ∧ t.localVariable? n = some v ∧ v.name = name ∧
    t.CountsIn isolate n.id block

/-- A name is looked up in the block: some reference of it belongs to the block, or to a block inside
    it from where nothing on the way outward declares the name. -/
inductive LooksUp (t : Tree) (isolate : Bool) (name : String) : Nat → Prop
  | here {n : Node} {block : Nat} : t.get? n.id = some n → t.reference? n = some name →
      t.BelongsTo n.id block → LooksUp t isolate name block
  | outward {block outer : Nat} : LooksUp t isolate name block → ¬ t.Declares isolate block name →
      t.BelongsTo block outer → LooksUp t isolate name outer

/-- The blocks of a tree, in the order of their numbers. -/
def blocks (t : Tree) : List Node := t.nodes.toList.filter (·.label.kind.isBlock)

/-- The scope of a block goes from its first line to its last and has, in the order of their numbers,
    exactly the variables of the declarations that count in it. Which of them are used is said by `used`,
    which is asked of the block, the declaration and its variable. -/
structure ScopeOf (t : Tree) (isolate : Bool) (used : Node → Node → Variable → Prop) (s : Scope)
    (block : Node) : Prop where
  startLine : s.startLine = block.label.start.line
  endLine : s.endLine = block.label.stop.line
  locals : ∃ declarations : List Node,
    declarations.Pairwise (fun n m => n.id < m.id) ∧
    (∀ n, n ∈ declarations ↔ t.get? n.id = some n ∧ (t.localVariable? n).isSome = true ∧
      t.CountsIn isolate n.id block.id) ∧
    List.Forall₂ (fun v n => ∃ w, t.localVariable? n = some w ∧ v = { w with used := v.used } ∧
      (v.used = true ↔ used block n v)) s.locals declarations

variable {t : Tree} {id block : Nat}

theorem BelongsTo.isBlock (h : t.BelongsTo id block) :
    ∃ n, t.get? block = some n ∧ n.label.kind.isBlock = true := by
  induction h with
  | directly hblock hkind _ => exact ⟨_, hblock, hkind⟩
  | through _ _ _ _ ih => exact ih

theorem LooksUp.isBlock {isolate : Bool} {name : String} (h : t.LooksUp isolate name block) :
    ∃ n, t.get? block = some n ∧ n.label.kind.isBlock = true := by
  cases h with
  | here _ _ hbelongs => exact hbelongs.isBlock
  | outward _ _ hbelongs => exact hbelongs.isBlock

end Tree

/-! ## Walks that stop at blocks -/

theorem filterMap_cons_toList {α β : Type} (f : α → Option β) (a : α) (as : List α) :
    (a :: as).filterMap f = (f a).toList ++ as.filterMap f := by
  rw [List.filterMap_cons]
  cases f a <;> rfl

namespace Outline

/-- The nodes of an outline that stand below no block of it, in pre-order. -/
def shallow (base : Nat) : Outline → List Tree.Node
  | .nil => []
  | .node l children siblings =>
    ⟨base, l, rootIds (base + 1) children⟩ ::
      ((if l.kind.isBlock then [] else shallow (base + 1) children) ++
        shallow (base + 1 + children.size) siblings)

variable {o : Outline} {base id : Nat} {n : Tree.Node}

theorem shallow_sublist (o : Outline) (base : Nat) : (o.shallow base).Sublist (o.number base) := by
  induction o generalizing base with
  | nil => exact List.Sublist.refl _
  | node l c s ihc ihs =>
    rw [shallow, number]
    refine (List.Sublist.append ?_ (ihs _)).cons_cons _
    split
    · exact List.nil_sublist _
    · exact ihc _

/-- The nodes at the top are met. -/
theorem exists_mem_shallow_of_rootIds (h : id ∈ o.rootIds base) :
    ∃ n ∈ o.shallow base, n.id = id := by
  induction o generalizing base with
  | nil => exact absurd h List.not_mem_nil
  | node l c s _ ihs =>
    rw [shallow]
    rcases List.mem_cons.mp h with rfl | hs
    · exact ⟨_, List.mem_cons_self, rfl⟩
    · obtain ⟨n, hn, hid⟩ := ihs hs
      exact ⟨n, List.mem_cons_of_mem _ (List.mem_append_right _ hn), hid⟩

/-- With a node that is no block its children are met. -/
theorem exists_mem_shallow_of_children (hn : n ∈ o.shallow base) (hkind : n.label.kind.isBlock = false)
    (hid : id ∈ n.children) : ∃ m ∈ o.shallow base, m.id = id := by
  induction o generalizing base with
  | nil => exact absurd hn List.not_mem_nil
  | node l c s ihc ihs =>
    rw [shallow] at hn ⊢
    have hin (hl : l.kind.isBlock = false) {m : Tree.Node} (hm : m ∈ shallow (base + 1) c) :
        m ∈ (if l.kind.isBlock then [] else shallow (base + 1) c) := by
      rwa [hl, if_neg Bool.false_ne_true]
    rcases List.mem_cons.mp hn with rfl | hrest
    · obtain ⟨m, hm, hmid⟩ := exists_mem_shallow_of_rootIds hid
      exact ⟨m, List.mem_cons_of_mem _ (List.mem_append_left _ (hin hkind hm)), hmid⟩
    · rcases List.mem_append.mp hrest with hc | hs
      · by_cases hl : l.kind.isBlock = true
        · rw [if_pos hl] at hc
          exact absurd hc List.not_mem_nil
        · rw [if_neg hl] at hc
          obtain ⟨m, hm, hmid⟩ := ihc hc
          have hl' : l.kind.isBlock = false := Bool.eq_false_iff.mpr hl
          exact ⟨m, List.mem_cons_of_mem _ (List.mem_append_left _ (hin hl' hm)), hmid⟩
      · obtain ⟨m, hm, hmid⟩ := ihs hs
        exact ⟨m, List.mem_cons_of_mem _ (List.mem_append_right _ hm), hmid⟩

end Outline

/-! ## What belongs to a block -/

namespace Tree.Holds

variable {t : Tree} {base id block : Nat} {l : Label} {o children siblings : Outline}

/-- What is met below a block without going into other blocks belongs to that block. -/
theorem belongsTo_of_mem_shallow (h : t.Holds base o)
    (hroots : ∀ r ∈ o.rootIds base, t.BelongsTo r block) :
    ∀ n ∈ o.shallow base, t.BelongsTo n.id block := by
  induction o generalizing base with
  | nil => exact fun _ hn => absurd hn List.not_mem_nil
  | node l c s ihc ihs =>
    obtain ⟨hroot, hrest⟩ := List.forall_mem_cons.mp hroots
    have hin := ihs h.beside hrest
    rw [Outline.shallow]
    refine List.forall_mem_cons.mpr ⟨hroot, List.forall_mem_append.mpr ⟨?_, hin⟩⟩
    split
    · exact fun _ hn => absurd hn List.not_mem_nil
    · next hl =>
      refine ihc h.below ?_
      intro r hr
      exact .through h.root (Bool.eq_false_iff.mpr hl) hr hroot

/-- **What belongs to a block** is met below it without going into other blocks. -/
theorem belongsTo_iff (h : t.Holds base (.node l children siblings)) (hl : l.kind.isBlock = true) :
    t.BelongsTo id base ↔ ∃ n ∈ children.shallow (base + 1), n.id = id := by
  constructor
  · intro hbelongs
    induction hbelongs with
    | directly hn _ hid =>
      rw [h.root] at hn
      obtain rfl := Option.some.inj hn
      exact Outline.exists_mem_shallow_of_rootIds hid
    | through hn hkind hid _ ih =>
      obtain ⟨m, hm, rfl⟩ := ih h
      have hget := h.below.get?_of_mem_number ((Outline.shallow_sublist _ _).subset hm)
      rw [hn] at hget
      obtain rfl := Option.some.inj hget
      exact Outline.exists_mem_shallow_of_children hm hkind hid
  · rintro ⟨n, hn, rfl⟩
    refine h.below.belongsTo_of_mem_shallow ?_ n hn
    intro r hr
    exact .directly h.root hl hr

/-- The nodes of a part of the tree are told by their numbers. -/
theorem mem_iff_of_sublist {n : Node} {row : List Node} (h : t.Holds base o)
    (hrow : row.Sublist (o.number base)) :
    n ∈ row ↔ t.get? n.id = some n ∧ ∃ m ∈ row, m.id = n.id := by
  have hin {m : Node} (hm : m ∈ row) : t.get? m.id = some m := h.get?_of_mem_number (hrow.subset hm)
  constructor
  · intro hn
    exact ⟨hin hn, n, hn, rfl⟩
  · rintro ⟨hn, m, hm, hid⟩
    have hget := hin hm
    rw [hid, hn] at hget
    obtain rfl := Option.some.inj hget
    exact hm

theorem mem_shallow_iff {n : Node} (h : t.Holds base (.node l children siblings))
    (hl : l.kind.isBlock = true) :
    n ∈ children.shallow (base + 1) ↔ t.get? n.id = some n ∧ t.BelongsTo n.id base := by
  rw [h.below.mem_iff_of_sublist (Outline.shallow_sublist _ _), h.belongsTo_iff hl]

/-- What stands below a block belongs to it or to a block inside it. -/
theorem transBelongsTo_of_mem_number (h : t.Holds base o)
    (hroots : ∀ r ∈ o.rootIds base, Relation.TransGen t.BelongsTo r block) :
    ∀ n ∈ o.number base, Relation.TransGen t.BelongsTo n.id block := by
  induction o generalizing base with
  | nil => exact fun _ hn => absurd hn List.not_mem_nil
  | node l c s ihc ihs =>
    obtain ⟨hroot, hrest⟩ := List.forall_mem_cons.mp hroots
    have hin := ihs h.beside hrest
    rw [Outline.number]
    refine List.forall_mem_cons.mpr ⟨hroot, List.forall_mem_append.mpr ⟨?_, hin⟩⟩
    refine ihc h.below ?_
    intro r hr
    by_cases hl : l.kind.isBlock = true
    · exact .head (.directly h.root hl hr) hroot
    · -- the child of a node that is no block belongs to what the node belongs to
      obtain ⟨inner, hinner, houter⟩ := Relation.TransGen.head'_iff.mp hroot
      exact .head' (.through h.root (Bool.eq_false_iff.mpr hl) hr hinner) houter

/-- What belongs to a block or to one of the nodes below it is one of these nodes. -/
theorem bounds_of_belongsTo (h : t.Holds base (.node l children siblings))
    (hbelongs : t.BelongsTo id block)
    (hblock : block = base ∨ (base + 1 ≤ block ∧ block < base + 1 + children.size)) :
    base + 1 ≤ id ∧ id < base + 1 + children.size := by
  have hchild {n : Node} {id above : Nat} (hn : t.get? above = some n) (hid : id ∈ n.children)
      (hin : base + 1 ≤ above ∧ above < base + 1 + children.size) :
      base + 1 ≤ id ∧ id < base + 1 + children.size := by
    obtain ⟨m, hm, rfl⟩ := Outline.exists_mem_number hin.1 hin.2
    have hget := h.below.get?_of_mem_number hm
    rw [hn] at hget
    obtain rfl := Option.some.inj hget
    exact Outline.mem_children_bounds hm hid
  induction hbelongs with
  | directly hn _ hid =>
    rcases hblock with rfl | hin
    · rw [h.root] at hn
      obtain rfl := Option.some.inj hn
      exact Outline.mem_rootIds_bounds hid
    · exact hchild hn hid hin
  | through hn _ hid _ ih => exact hchild hn hid (ih hblock)

/-- **What belongs to a block or to the blocks inside it** are the nodes below it. -/
theorem transBelongsTo_iff (h : t.Holds base (.node l children siblings))
    (hl : l.kind.isBlock = true) :
    Relation.TransGen t.BelongsTo id base ↔ ∃ n ∈ children.number (base + 1), n.id = id := by
  constructor
  · intro hbelongs
    have hbounds : base + 1 ≤ id ∧ id < base + 1 + children.size := by
      induction hbelongs using Relation.TransGen.head_induction_on with
      | single hbelongs => exact h.bounds_of_belongsTo hbelongs (.inl rfl)
      | head hbelongs _ ih => exact h.bounds_of_belongsTo hbelongs (.inr ih)
    exact Outline.exists_mem_number hbounds.1 hbounds.2
  · rintro ⟨n, hn, rfl⟩
    refine h.below.transBelongsTo_of_mem_number ?_ n hn
    intro r hr
    exact .single (.directly h.root hl hr)

/-! ## What a walk collects -/

section Contents

variable {isolate nested : Bool}

theorem ownContents_declared (h : t.Holds base (.node l children siblings)) :
    (Outline.ownContents nested l children).declared =
      (t.localVariable? ⟨base, l, children.rootIds (base + 1)⟩).toList := by
  have hown : t.ownContents nested ⟨base, l, children.rootIds (base + 1)⟩ = _ := h.ownContents_eq
  rw [← hown, Tree.ownContents, Tree.localVariable?]
  split <;> simp_all [BlockContents.empty]

theorem ownContents_references (h : t.Holds base (.node l children siblings)) :
    (Outline.ownContents false l children).references =
      (t.reference? ⟨base, l, children.rootIds (base + 1)⟩).toList := by
  have hown : t.ownContents false ⟨base, l, children.rootIds (base + 1)⟩ = _ := h.ownContents_eq
  rw [← hown, Tree.ownContents, Tree.reference?]
  split <;> simp_all [BlockContents.empty]

/-- A node with a scope of its own declares nothing and refers to nothing. -/
theorem localVariable?_of_opensScope {n : Node} (hn : n.label.kind.opensScope = true) :
    t.localVariable? n = none ∧ t.reference? n = none := by
  rw [Tree.localVariable?, Tree.reference?]
  cases hkind : n.label.kind <;> rw [hkind] at hn <;> first | exact ⟨rfl, rfl⟩ | nomatch hn

/-- Unless scopes are isolated, a walk collects the variables of all declarations. -/
theorem contents_declared (h : t.Holds base o) (nested : Bool) (above : NodeKind) :
    (Outline.contents false nested above base o).declared =
      (o.number base).filterMap t.localVariable? := by
  induction o generalizing base nested above with
  | nil => rfl
  | node l c s ihc ihs =>
    have hs := ihs h.beside nested above
    rw [Outline.number, filterMap_cons_toList, List.filterMap_append, ← hs]
    by_cases hl : l.kind.opensScope = true
    · have hnone := (localVariable?_of_opensScope (t := t)
        (n := ⟨base, l, Outline.rootIds (base + 1) c⟩) hl).1
      rw [Outline.contents_block hl, hnone, ← ihc h.below true l.kind]
      simp [BlockContents.append]
    · have hl' : l.kind.opensScope = false := Bool.eq_false_iff.mpr hl
      have hown : (Outline.ownContents nested l c).declared = _ := h.ownContents_declared
      rw [Outline.contents_plain hl', ← ihc h.below nested l.kind, ← hown]
      simp [BlockContents.append]

/-- If scopes are isolated, a walk collects the variables and the names that it meets without going into
    blocks. Only function bodies, which open no scope inside of a function, would differ. -/
theorem contents_isolated (h : t.Holds base o)
    (hblocks : ∀ l ∈ o.labels, l.kind.isBlock = l.kind.opensScope) (above : NodeKind) :
    (Outline.contents true false above base o).declared =
        (o.shallow base).filterMap t.localVariable? ∧
      (Outline.contents true false above base o).references =
        (o.shallow base).filterMap t.reference? := by
  induction o generalizing base above with
  | nil => exact ⟨rfl, rfl⟩
  | node l c s ihc ihs =>
    rw [Forest.labels_node] at hblocks
    obtain ⟨hroot, hrest⟩ := List.forall_mem_cons.mp hblocks
    obtain ⟨hbelow, hbeside⟩ := List.forall_mem_append.mp hrest
    obtain ⟨hdeclared, hreferences⟩ := ihs h.beside hbeside above
    rw [Outline.shallow, filterMap_cons_toList, filterMap_cons_toList, List.filterMap_append,
      List.filterMap_append, ← hdeclared, ← hreferences, hroot]
    by_cases hl : l.kind.opensScope = true
    · obtain ⟨hnone, hnone'⟩ := localVariable?_of_opensScope (t := t)
        (n := ⟨base, l, Outline.rootIds (base + 1) c⟩) hl
      rw [Outline.contents_block hl, hnone, hnone', if_pos hl]
      simp [BlockContents.append, BlockContents.empty]
    · have hl' : l.kind.opensScope = false := Bool.eq_false_iff.mpr hl
      obtain ⟨hdeclared', hreferences'⟩ := ihc h.below hbelow l.kind
      have hown : (Outline.ownContents false l c).declared = _ := h.ownContents_declared
      rw [Outline.contents_plain hl', if_neg hl, ← hdeclared', ← hreferences', ← hown,
        ← h.ownContents_references]
      simp [BlockContents.append]

end Contents

end Tree.Holds

end BraceLang
