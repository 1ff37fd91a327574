import BraceLang.Flow.Station
import BraceLang.Proofs.Tree.Numbering

/-!
# `Proofs.Tree.Walk` — walks over the parts of a tree

A walk that starts at a part of an outline meets the nodes of this part in the order of their
numbers. What is asked of the nodes below a node is then asked of the labels of its outline.

## Contents
- `Holds.node_eq`, `Holds.label_childOfKind?` and `Holds.childText_eq`: looking up what is held.
- `Holds.size_le`: a part is no larger than the tree.
- **`Holds.walk_eq`** and `Holds.descendants_eq`.
- `Holds.leafText_leaves`, the text of a row of leaves.
-/

namespace BraceLang

namespace Outline

/-- The labels of the numbered nodes are those of the outline. -/
theorem map_label_number (o : Outline) (base : Nat) :
    (o.number base).map Tree.Node.label = o.labels := by
  induction o generalizing base with
  | nil => rfl
  | node l c s ihc ihs => rw [number, List.map_cons, List.map_append, ihc, ihs, Forest.labels_node]

theorem labels_ofLabels (labels : List Label) : (Forest.ofLabels labels).labels = labels := by
  induction labels with
  | nil => rfl
  | cons l labels ih => rw [Forest.ofLabels, Forest.labels_node, ih, Forest.labels_nil, List.nil_append]

/-- The label of the first tree at the top that is of a kind. -/
def rootOfKind? (kind : NodeKind) (o : Outline) : Option Label := o.roots.find? (·.kind == kind)

/-- The text of the first tree at the top that is of a kind, or the empty text. -/
def rootText (kind : NodeKind) (o : Outline) : String :=
  ((o.rootOfKind? kind).map Label.text).getD ""

end Outline

namespace Tree

variable {t : Tree} {base fuel : Nat} {l : Label} {o children siblings : Outline}

namespace Holds

/-- A node that is held can be looked up. -/
theorem node_eq (h : t.Holds base (.node l children siblings)) :
    t.node base = .ok ⟨base, l, Outline.rootIds (base + 1) children⟩ := by
  rw [Tree.node, h.root]

theorem label_childOfKind? (h : t.Holds base (.node l children siblings)) (kind : NodeKind) :
    (t.childOfKind? base kind).map Node.label = children.rootOfKind? kind := by
  rw [h.childOfKind?_eq, Outline.rootOfKind?, ← Outline.map_label_tops children (base + 1),
    List.find?_map]
  rfl

theorem childText_eq (h : t.Holds base (.node l children siblings)) (kind : NodeKind) :
    t.childText base kind = children.rootText kind := by
  rw [Tree.childText, Outline.rootText, ← h.label_childOfKind?, Option.map_map]
  rfl

/-- A part of a tree is no larger than the tree. -/
theorem size_le (h : t.Holds base o) : o.size ≤ t.size := by
  rcases Nat.eq_zero_or_pos o.size with hzero | hpos
  · rw [hzero]
    exact Nat.zero_le _
  · -- the last node of the part is in the table
    have hlast : o.size - 1 < (o.number base).length := by
      rw [Outline.length_number]
      omega
    have hrow := h (o.size - 1) hlast
    rw [List.getElem?_eq_getElem hlast] at hrow
    obtain ⟨hlt, -⟩ := Array.getElem?_eq_some_iff.mp hrow
    rw [Tree.size]
    omega

/-- **A walk meets the nodes of a part in the order of their numbers.** -/
theorem walk_eq (h : t.Holds base o) (hfuel : o.size ≤ fuel) (stack : List Nat) :
    t.walk fuel (o.rootIds base ++ stack) = o.number base ++ t.walk (fuel - o.size) stack := by
  induction o generalizing base fuel stack with
  | nil => rfl
  | node l c s ihc ihs =>
    rw [Forest.size] at hfuel
    obtain ⟨fuel, rfl⟩ : ∃ k, fuel = k + 1 := ⟨fuel - 1, by omega⟩
    rw [Outline.rootIds, List.cons_append, walk, h.root]
    show _ :: t.walk fuel (_ ++ _) = _
    rw [ihc h.below (by omega), ihs h.beside (by omega), Outline.number, Forest.size,
      List.cons_append, List.append_assoc,
      show fuel - c.size - s.size = fuel + 1 - (1 + c.size + s.size) by omega]

/-- A node and what is below it, in the order of their numbers. -/
theorem descendants_eq (h : t.Holds base (.node l children siblings)) :
    t.descendants base = ⟨base, l, Outline.rootIds (base + 1) children⟩ ::
      children.number (base + 1) := by
  have hsize := h.size_le
  rw [Forest.size] at hsize
  obtain ⟨fuel, hfuel⟩ : ∃ k, t.size = k + 1 := ⟨t.size - 1, by omega⟩
  rw [descendants, hfuel, walk, h.root]
  show _ :: t.walk fuel (_ ++ _) = _
  have hdone : ∀ fuel, t.walk fuel [] = [] := fun fuel => by cases fuel <;> rfl
  rw [h.below.walk_eq (by omega), hdone, List.append_nil]

/-- The leaves below a node, as a text. -/
theorem leafText_eq (h : t.Holds base (.node l children siblings))
    (hl : l.kind.isLeaf = false) :
    t.leafText base = " ".intercalate ((children.labels.filter (·.kind.isLeaf)).map Label.text) := by
  rw [leafText, h.descendants_eq, List.filter_cons_of_neg (by simp [hl]),
    ← Outline.map_label_number children (base + 1), List.filter_map, List.map_map]
  rfl

/-- A node whose children are a row of leaves. -/
theorem leafText_leaves {tokens : List Token}
    (h : t.Holds base (.node l (Outline.leaves tokens) siblings)) (hl : l.kind.isLeaf = false) :
    t.leafText base = joinTexts tokens := by
  have hall : ∀ l ∈ tokens.map fun t => Label.ofToken (.leaf t.kind) t, l.kind.isLeaf = true := by
    intro l hl
    obtain ⟨t, -, rfl⟩ := List.mem_map.mp hl
    rfl
  rw [h.leafText_eq hl, Outline.leaves, Outline.labels_ofLabels, List.filter_eq_self.mpr hall,
    List.map_map]
  rfl

end Holds

end Tree

end BraceLang
