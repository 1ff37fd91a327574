import BraceLang.Proofs.Tree.Placement
import Mathlib.Data.List.Lattice
import Mathlib.Data.List.Nodup
import Mathlib.Data.List.Pairwise

/-!
# `Proofs.Tree.Ancestry` — where a node stands

The children of the nodes of an outline, put together with the trees at its top, are all its numbers,
each of them once. So a node has one parent at most, and one place among the children of it.

## Contents
- `Outline.rootIds_append_children_perm`, the numbers of an outline as children.
- `Outline.eq_of_mem_children` and `Outline.id_lt_of_mem_children`.
- `Tree.StandsIn`, the place of a node in a row of children, with **`StandsIn.unique`**.
-/

namespace BraceLang

namespace Outline

variable {o : Outline} {base id : Nat} {n m : Tree.Node}

/-- The numbers of an outline are those at its top and those of the children of its nodes, each of
    them once. -/
theorem rootIds_append_children_perm (o : Outline) (base : Nat) :
    (o.rootIds base ++ (o.number base).flatMap Tree.Node.children).Perm
      (List.range' base o.size) := by
  induction o generalizing base with
  | nil => exact List.Perm.refl _
  | node l c s ihc ihs =>
    have hc := ihc (base + 1)
    have hs := ihs (base + 1 + c.size)
    rw [rootIds, number, List.flatMap_cons, List.flatMap_append, Forest.size,
      show 1 + c.size + s.size = c.size + s.size + 1 by omega, List.range'_succ,
      ← List.range'_append_1, List.cons_append]
    apply List.Perm.cons
    -- what is below the first tree comes before what is beside it
    refine List.Perm.trans ?_ (hc.append hs)
    generalize rootIds (base + 1 + c.size) s = top
    rw [← List.append_assoc, ← List.append_assoc, ← List.append_assoc]
    refine List.Perm.append_right _ ?_
    rw [List.append_assoc]
    exact List.perm_append_comm

/-- All children of the nodes of an outline are different. -/
theorem nodup_children (o : Outline) (base : Nat) :
    ((o.number base).flatMap Tree.Node.children).Nodup := by
  have hall : (o.rootIds base ++ (o.number base).flatMap Tree.Node.children).Nodup :=
    (rootIds_append_children_perm o base).nodup_iff.mpr List.nodup_range'
  exact (List.nodup_append.mp hall).2.1

/-- No two nodes of an outline have a child in common. -/
theorem eq_of_mem_children (hn : n ∈ o.number base) (hm : m ∈ o.number base)
    (h : id ∈ n.children) (h' : id ∈ m.children) : n = m := by
  by_contra hne
  have hpairs := (List.nodup_flatMap.mp (nodup_children o base)).2
  have hdisjoint : List.Disjoint n.children m.children := by
    have hsymm : Std.Symm (Function.onFun List.Disjoint Tree.Node.children) :=
      ⟨fun _ _ hab => List.Disjoint.symm hab⟩
    exact hpairs.forall hn hm hne
  exact hdisjoint h h'

/-- A child has a greater number than its parent. -/
theorem id_lt_of_mem_children (hn : n ∈ o.number base) (h : id ∈ n.children) : n.id < id := by
  induction o generalizing base with
  | nil => exact absurd hn List.not_mem_nil
  | node l c s ihc ihs =>
    rw [number] at hn
    rcases List.mem_cons.mp hn with rfl | hrest
    · have hbounds := mem_rootIds_bounds h
      dsimp only
      omega
    · rcases List.mem_append.mp hrest with hin | hin
      · exact ihc hin
      · exact ihs hin

end Outline

namespace Tree

/-- The node `id` stands among the children of the node `block`, behind the nodes `before`. -/
def StandsIn (t : Tree) (block : Node) (before : List Nat) (id : Nat) : Prop :=
  t.get? block.id = some block ∧ ∃ after, block.children = before ++ id :: after

variable {o : Outline} {id : Nat} {n m block other : Node} {before front : List Nat}

/-- A node of a tree has one parent. -/
theorem parent_unique (hn : (ofOutline o).get? n.id = some n) (hm : (ofOutline o).get? m.id = some m)
    (h : id ∈ n.children) (h' : id ∈ m.children) : n = m := by
  have hn' := (get?_ofOutline_eq_some_iff.mp hn).1
  have hm' := (get?_ofOutline_eq_some_iff.mp hm).1
  exact Outline.eq_of_mem_children hn' hm' h h'

/-- What is found among the children of a node is a child of it, and it is of the kind asked for. -/
theorem of_childOfKind?_eq_some {kind : NodeKind} (h : (ofOutline o).childOfKind? id kind = some m) :
    ∃ n, (ofOutline o).get? id = some n ∧ m.id ∈ n.children ∧
      (ofOutline o).get? m.id = some m ∧ m.label.kind = kind := by
  rw [childOfKind?, children] at h
  cases hn : (ofOutline o).get? id with
  | none =>
    rw [hn] at h
    exact absurd h (Option.some_ne_none m).symm
  | some n =>
    rw [hn] at h
    obtain ⟨child, hchild, hm⟩ := List.mem_filterMap.mp (List.mem_of_find?_eq_some h)
    have hid : m.id = child := (get?_ofOutline_eq_some_iff.mp hm).2
    subst hid
    have hkind : (m.label.kind == kind) = true :=
      List.find?_some (p := fun d : Node => d.label.kind == kind) h
    exact ⟨n, rfl, hchild, hm, eq_of_beq hkind⟩

theorem StandsIn.mem_children {t : Tree} (h : t.StandsIn block before id) : id ∈ block.children := by
  obtain ⟨-, after, hrow⟩ := h
  rw [hrow]
  exact List.mem_append_right _ List.mem_cons_self

/-- **A node of a tree has one place:** one parent, and there one row of nodes before it. -/
theorem StandsIn.unique (h : (ofOutline o).StandsIn block before id)
    (h' : (ofOutline o).StandsIn other front id) : block = other ∧ before = front := by
  have hsame : block = other := parent_unique h.1 h'.1 h.mem_children h'.mem_children
  subst hsame
  refine ⟨rfl, ?_⟩
  obtain ⟨hblock, after, hrow⟩ := h
  obtain ⟨-, behind, hrow'⟩ := h'
  have hnodup : block.children.Nodup := by
    have hmem := (get?_ofOutline_eq_some_iff.mp hblock).1
    exact (List.nodup_flatMap.mp (Outline.nodup_children o 0)).1 block hmem
  -- the node is missing in front of its first occurrence, and there is no other one
  have hindex (front after : List Nat) (hrow : block.children = front ++ id :: after) :
      block.children.idxOf id = front.length := by
    have hnot : id ∉ front := by
      rw [hrow] at hnodup
      intro hin
      exact (List.nodup_append.mp hnodup).2.2 id hin id List.mem_cons_self rfl
    rw [hrow, List.idxOf_append_of_notMem hnot, List.idxOf_cons_self, Nat.add_zero]
  have hlength : before.length = front.length :=
    (hindex before after hrow).symm.trans (hindex front behind hrow')
  exact (List.append_inj (hrow.symm.trans hrow') hlength).1

end Tree

end BraceLang
