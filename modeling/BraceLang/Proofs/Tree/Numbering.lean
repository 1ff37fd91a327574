import BraceLang.Program.Tree
import BraceLang.Proofs.Table

/-!
# `Proofs.Tree.Numbering` — where the parts of an outline stand in the syntax tree

The tree is the list of the nodes of an outline in pre-order. `Tree.Holds t base o` says that the
part `o` of that outline has been numbered from `base` on. It is inherited by the children of a
node and by its siblings, and it turns questions to the tree into questions to the outline.

## Contents
- `Outline.tops`, the nodes of the trees at the top of an outline, and `Outline.number_add`, for numbers
  from elsewhere on.
- `Tree.Holds`, with `root`, `below`, `beside` and `append`, and `holds_ofOutline`.
- `get?_ofOutline_eq_some_iff`, which nodes the tree of an outline has.
- `Holds.children_eq` and `Holds.childOfKind?_eq`, what the tree answers about a node, and
  `Holds.oneBlock` and `Holds.twoBlocks` for the statements that hold blocks.
-/

namespace BraceLang

/-- The node with its number and those of its children raised. -/
def Tree.Node.raise (more : Nat) (n : Node) : Node := ⟨n.id + more, n.label, n.children.map (· + more)⟩

namespace Outline

/-- The nodes of the trees at the top of an outline that is numbered from `base`. -/
def tops (base : Nat) : Outline → List Tree.Node
  | .nil => []
  | .node l children siblings =>
    ⟨base, l, rootIds (base + 1) children⟩ :: tops (base + 1 + children.size) siblings

theorem number_append (o more : Outline) (base : Nat) :
    (o ++ more).number base = o.number base ++ more.number (base + o.size) := by
  induction o generalizing base with
  | nil => rfl
  | node l c s _ ih =>
    rw [Forest.node_append, number, number, ih, Forest.size, List.cons_append, List.append_assoc,
      show base + 1 + c.size + s.size = base + (1 + c.size + s.size) by omega]

theorem tops_append (o more : Outline) (base : Nat) :
    (o ++ more).tops base = o.tops base ++ more.tops (base + o.size) := by
  induction o generalizing base with
  | nil => rfl
  | node l c s _ ih =>
    rw [Forest.node_append, tops, tops, ih, Forest.size, List.cons_append,
      show base + 1 + c.size + s.size = base + (1 + c.size + s.size) by omega]

/-- The numbers in an outline are those from `base` on. -/
theorem map_id_number (o : Outline) (base : Nat) :
    (o.number base).map Tree.Node.id = List.range' base o.size := by
  induction o generalizing base with
  | nil => rfl
  | node l c s ihc ihs =>
    rw [number, List.map_cons, List.map_append, ihc, ihs, Forest.size,
      show 1 + c.size + s.size = (c.size + s.size) + 1 by omega, List.range'_succ,
      ← List.range'_append_1]

theorem rootIds_add (o : Outline) (base more : Nat) :
    o.rootIds (base + more) = (o.rootIds base).map (· + more) := by
  induction o generalizing base with
  | nil => rfl
  | node l c s _ ih =>
    rw [rootIds, rootIds, List.map_cons, ← ih,
      show base + more + 1 + c.size = base + 1 + c.size + more by omega]

/-- If an outline is numbered from a greater number on, all its numbers are that much greater. -/
theorem number_add (o : Outline) (base more : Nat) :
    o.number (base + more) = (o.number base).map (Tree.Node.raise more) := by
  induction o generalizing base with
  | nil => rfl
  | node l c s ihc ihs =>
    rw [number, number, List.map_cons, List.map_append, ← ihc, ← ihs, Tree.Node.raise, ← rootIds_add,
      show base + more + 1 = base + 1 + more by omega,
      show base + 1 + more + c.size = base + 1 + c.size + more by omega]

/-- The nodes of an outline are listed in the order of their numbers. -/
theorem pairwise_number (o : Outline) (base : Nat) :
    (o.number base).Pairwise (fun n m => n.id < m.id) := by
  rw [← List.pairwise_map (f := Tree.Node.id) (R := (· < ·)), map_id_number]
  exact List.pairwise_lt_range'

theorem id_of_mem_number {o : Outline} {base : Nat} {n : Tree.Node} (h : n ∈ o.number base) :
    base ≤ n.id ∧ n.id < base + o.size := by
  have hid : n.id ∈ (o.number base).map Tree.Node.id := List.mem_map_of_mem h
  rwa [map_id_number, List.mem_range'_1] at hid

/-- The numbers of an outline are those of its nodes. -/
theorem exists_mem_number {o : Outline} {base id : Nat} (hle : base ≤ id) (hlt : id < base + o.size) :
    ∃ n ∈ o.number base, n.id = id := by
  have hmem : id ∈ (o.number base).map Tree.Node.id := by
    rw [map_id_number, List.mem_range'_1]
    exact ⟨hle, hlt⟩
  exact List.mem_map.mp hmem

theorem map_id_tops (o : Outline) (base : Nat) :
    (o.tops base).map Tree.Node.id = o.rootIds base := by
  induction o generalizing base with
  | nil => rfl
  | node l c s _ ihs => rw [tops, rootIds, List.map_cons, ihs]

theorem rootIds_append (o more : Outline) (base : Nat) :
    (o ++ more).rootIds base = o.rootIds base ++ more.rootIds (base + o.size) := by
  rw [← map_id_tops, tops_append, List.map_append, map_id_tops, map_id_tops]

theorem map_label_tops (o : Outline) (base : Nat) :
    (o.tops base).map Tree.Node.label = o.roots := by
  induction o generalizing base with
  | nil => rfl
  | node l c s _ ihs => rw [tops, Forest.roots, List.map_cons, ihs]

theorem size_leaves (tokens : List Token) : (leaves tokens).size = tokens.length := by
  rw [leaves, Forest.size_ofLabels, List.length_map]

/-- The numbers at the top, when a statement with one block comes first. -/
theorem rootIds_oneBlock {h : Header} {l block : Label} {body siblings : Outline} {base : Nat} :
    rootIds base (.node l (.node h.conditionLabel (leaves h.condition) (.single block body))
      siblings) = base :: siblings.rootIds (base + 3 + h.condition.length + body.size) := by
  rw [rootIds, Forest.single, Forest.size, Forest.size, Forest.size, size_leaves,
    show base + 1 + (1 + h.condition.length + (1 + body.size + 0)) =
      base + 3 + h.condition.length + body.size by omega]

/-- The numbers at the top, when a statement with two blocks comes first. -/
theorem rootIds_twoBlocks {h : Header} {l block otherBlock : Label}
    {body other siblings : Outline} {base : Nat} :
    rootIds base (.node l (.node h.conditionLabel (leaves h.condition)
      (.node block body (.single otherBlock other))) siblings) =
      base :: siblings.rootIds
        (base + 3 + h.condition.length + body.size + 1 + other.size) := by
  rw [rootIds, Forest.single, Forest.size, Forest.size, Forest.size, Forest.size, size_leaves,
    show base + 1 + (1 + h.condition.length + (1 + body.size + (1 + other.size + 0))) =
      base + 3 + h.condition.length + body.size + 1 + other.size by omega]

end Outline

namespace Tree

variable {t : Tree} {base : Nat} {l : Label} {o children siblings : Outline}

/-- The outline `o` is a part of the tree, and its first node has the number `base`. -/
def Holds (t : Tree) (base : Nat) (o : Outline) : Prop := RowsAt t.nodes base (o.number base)

/-- The tree of an outline holds all of it. -/
theorem holds_ofOutline (o : Outline) : (ofOutline o).Holds 0 o := RowsAt.toArray _

namespace Holds

theorem root (h : t.Holds base (.node l children siblings)) :
    t.get? base = some ⟨base, l, Outline.rootIds (base + 1) children⟩ :=
  RowsAt.head h

theorem below (h : t.Holds base (.node l children siblings)) : t.Holds (base + 1) children :=
  (RowsAt.tail h).left

theorem beside (h : t.Holds base (.node l children siblings)) :
    t.Holds (base + 1 + children.size) siblings := by
  have hr := (RowsAt.tail h).right
  rwa [Outline.length_number] at hr

/-- Two outlines side by side are held one after the other. -/
theorem append {more : Outline} (h : t.Holds base (o ++ more)) :
    t.Holds base o ∧ t.Holds (base + o.size) more := by
  rw [Holds, Outline.number_append] at h
  have hr := h.right
  rw [Outline.length_number] at hr
  exact ⟨h.left, hr⟩

/-- Looking up the numbers of the trees at the top gives their nodes. -/
theorem filterMap_get? (h : t.Holds base o) : (o.rootIds base).filterMap t.get? = o.tops base := by
  induction o generalizing base with
  | nil => rfl
  | node l c s _ ih =>
    rw [Outline.rootIds, Outline.tops, List.filterMap_cons_some h.root, ih h.beside]

/-- The children of a node are the trees at the top of the outline below it. -/
theorem children_eq (h : t.Holds base (.node l children siblings)) :
    t.children base = children.tops (base + 1) := by
  rw [Tree.children, h.root]
  exact h.below.filterMap_get?

/-- The tree gives the nodes of an outline that it holds. -/
theorem get?_of_mem_number {n : Node} (h : t.Holds base o) (hn : n ∈ o.number base) :
    t.get? n.id = some n := by
  induction o generalizing base with
  | nil => exact absurd hn List.not_mem_nil
  | node l c s ihc ihs =>
    rw [Outline.number] at hn
    rcases List.mem_cons.mp hn with rfl | hrest
    · exact h.root
    · rcases List.mem_append.mp hrest with hc | hs
      · exact ihc h.below hc
      · exact ihs h.beside hs

theorem childOfKind?_eq (h : t.Holds base (.node l children siblings)) (kind : NodeKind) :
    t.childOfKind? base kind = (children.tops (base + 1)).find? (·.label.kind == kind) := by
  rw [Tree.childOfKind?, h.children_eq]

/-- A statement with a header has the node of its condition first, and then its blocks. -/
theorem header {h : Header} {blocks : Outline}
    (ho : t.Holds base
      (.node l (.node h.conditionLabel (Outline.leaves h.condition) blocks) siblings)) :
    t.Holds (base + 2 + h.condition.length) blocks ∧
      t.Holds (base + 2 + h.condition.length + blocks.size) siblings ∧
      t.children base =
        ⟨base + 1, h.conditionLabel, (Outline.leaves h.condition).rootIds (base + 2)⟩ ::
          blocks.tops (base + 2 + h.condition.length) := by
  have hsize := Outline.size_leaves h.condition
  have hat : base + 1 + 1 + h.condition.length = base + 2 + h.condition.length := by omega
  have hblocks := ho.below.beside
  have hbeside := ho.beside
  rw [hsize, hat] at hblocks
  rw [Forest.size, hsize, show base + 1 + (1 + h.condition.length + blocks.size) =
    base + 2 + h.condition.length + blocks.size by omega] at hbeside
  refine ⟨hblocks, hbeside, ?_⟩
  rw [ho.children_eq, Outline.tops, hsize, hat]

/-- A statement with one block. -/
theorem oneBlock {h : Header} {block : Label} {body : Outline}
    (ho : t.Holds base (.node l (.node h.conditionLabel (Outline.leaves h.condition)
      (.single block body)) siblings)) :
    t.Holds (base + 3 + h.condition.length) body ∧
      t.Holds (base + 3 + h.condition.length + body.size) siblings ∧
      ∃ ids, t.children base = [⟨base + 1, h.conditionLabel, ids⟩,
        ⟨base + 2 + h.condition.length, block, body.rootIds (base + 3 + h.condition.length)⟩] := by
  obtain ⟨hblock, hbeside, hchildren⟩ := ho.header
  have hat : base + 2 + h.condition.length + 1 = base + 3 + h.condition.length := by omega
  have hbody := hblock.below
  rw [hat] at hbody
  rw [Forest.single, Forest.size, Forest.size, show base + 2 + h.condition.length +
    (1 + body.size + 0) = base + 3 + h.condition.length + body.size by omega] at hbeside
  refine ⟨hbody, hbeside, (Outline.leaves h.condition).rootIds (base + 2), ?_⟩
  rw [hchildren, Forest.single, Outline.tops, Outline.tops, hat]

/-- A statement with two blocks. -/
theorem twoBlocks {h : Header} {block otherBlock : Label} {body other : Outline}
    (ho : t.Holds base (.node l (.node h.conditionLabel (Outline.leaves h.condition)
      (.node block body (.single otherBlock other))) siblings)) :
    t.Holds (base + 3 + h.condition.length) body ∧
      t.Holds (base + 3 + h.condition.length + body.size + 1) other ∧
      t.Holds (base + 3 + h.condition.length + body.size + 1 + other.size) siblings ∧
      ∃ ids, t.children base = [⟨base + 1, h.conditionLabel, ids⟩,
        ⟨base + 2 + h.condition.length, block, body.rootIds (base + 3 + h.condition.length)⟩,
        ⟨base + 3 + h.condition.length + body.size, otherBlock,
          other.rootIds (base + 3 + h.condition.length + body.size + 1)⟩] := by
  obtain ⟨hblock, hbeside, hchildren⟩ := ho.header
  have hat : base + 2 + h.condition.length + 1 = base + 3 + h.condition.length := by omega
  have hbody := hblock.below
  have hother := hblock.beside.below
  rw [hat] at hbody hother
  rw [Forest.single, Forest.size, Forest.size, Forest.size, show base + 2 + h.condition.length +
    (1 + body.size + (1 + other.size + 0)) =
      base + 3 + h.condition.length + body.size + 1 + other.size by omega] at hbeside
  refine ⟨hbody, hother, hbeside, (Outline.leaves h.condition).rootIds (base + 2), ?_⟩
  rw [hchildren, Forest.single, Outline.tops, Outline.tops, Outline.tops, hat]

/-- The second block of a statement with two blocks. -/
theorem secondBlock {h : Header} {block : Label} {body others : Outline}
    (ho : t.Holds base (.node l (.node h.conditionLabel (Outline.leaves h.condition)
      (.node block body others)) siblings)) :
    t.Holds (base + 3 + h.condition.length + body.size) others := by
  have hsecond := ho.header.1.beside
  rwa [show base + 2 + h.condition.length + 1 + body.size =
    base + 3 + h.condition.length + body.size by omega] at hsecond

end Holds

/-- The nodes of the tree of an outline are those of the outline, each under its own number. -/
theorem get?_ofOutline_eq_some_iff {id : Nat} {n : Node} :
    (ofOutline o).get? id = some n ↔ n ∈ o.number 0 ∧ n.id = id := by
  constructor
  · intro h
    have hget : (o.number 0)[id]? = some n := by
      rw [← h, Tree.get?, ofOutline, List.getElem?_toArray]
    refine ⟨List.mem_of_getElem? hget, ?_⟩
    have hid : ((o.number 0).map Node.id)[id]? = some n.id := by
      rw [List.getElem?_map, hget, Option.map_some]
    rw [Outline.map_id_number] at hid
    obtain ⟨hlt, heq⟩ := List.getElem?_eq_some_iff.mp hid
    rw [List.getElem_range'] at heq
    omega
  · rintro ⟨hn, rfl⟩
    exact (holds_ofOutline o).get?_of_mem_number hn

end Tree

end BraceLang
