import BraceLang.Proofs.Tree.Ancestry
import BraceLang.Proofs.Tree.Walk

/-!
# `Proofs.Tree.PreOrder` — the table of a tree is in pre-order

A node has the number of its row. Its children have greater numbers, in order, and every node but the
root is a child of one node, once. What is below a node follows it in the table without a gap, and a
walk from the node meets just that, row by row.

## Contents
- `Tree.Below`, the nodes below a node.
- `Tree.InPreOrder` and **`inPreOrder_ofOutline`**.
-/

namespace BraceLang

namespace Tree

/-- The node `m` is the node `id` or stands below it. -/
inductive Below (t : Tree) (id : Nat) : Nat → Prop
  | self {n : Node} (hn : t.get? id = some n) : Below t id id
  | child {above m : Nat} {n : Node} (h : Below t id above) (hn : t.get? above = some n)
      (hm : m ∈ n.children) : Below t id m

/-- The nodes of the tree are numbered in pre-order. -/
structure InPreOrder (t : Tree) : Prop where
  id_eq : ∀ i n, t.get? i = some n → n.id = i
  root : ∃ n, t.get? Tree.root = some n
  children_bounds : ∀ i n, t.get? i = some n → ∀ c ∈ n.children, i < c ∧ c < t.size
  children_increasing : ∀ i n, t.get? i = some n → n.children.Pairwise (· < ·)
  /-- The root is the child of no node, and each other node is one child of one node. -/
  one_parent : ∀ i, i < t.size →
    (t.nodes.toList.flatMap Node.children).count i = if i = Tree.root then 0 else 1
  /-- A walk from a node meets the node and those below it, in the order of their numbers, which have
      no gap. It ends by itself. -/
  descendants : ∀ id, ∃ count, (t.descendants id).map Node.id = List.range' id count ∧
    (∀ m, t.Below id m ↔ id ≤ m ∧ m < id + count) ∧
      (∀ n ∈ t.descendants id, t.get? n.id = some n) ∧
        ∀ fuel, t.size ≤ fuel → t.walk fuel [id] = t.descendants id

variable {t : Tree} {base id : Nat} {l : Label} {o children : Outline} {n : Node}

/-- Where a node stands in an outline, the tree holds it with what is below it. -/
theorem Holds.exists_holds_single (h : t.Holds base o) (hn : n ∈ o.number base) :
    ∃ children, t.Holds n.id (.single n.label children) := by
  induction o generalizing base with
  | nil => exact absurd hn List.not_mem_nil
  | node l c s ihc ihs =>
    rw [Outline.number] at hn
    rcases List.mem_cons.mp hn with rfl | hrest
    · have hfirst : t.Holds base (.single l c ++ s) := h
      exact ⟨c, hfirst.append.1⟩
    · rcases List.mem_append.mp hrest with hin | hin
      · exact ihc h.below hin
      · exact ihs h.beside hin

/-- A walk from a node ends behind what is below it, if it has steps enough. -/
theorem Holds.walk_single {fuel : Nat} (h : t.Holds id (.single l children))
    (hfuel : t.size ≤ fuel) : t.walk fuel [id] = Outline.number id (.single l children) := by
  have hdone : ∀ fuel, t.walk fuel [] = [] := fun fuel => by cases fuel <;> rfl
  have hwalk := h.walk_eq (Nat.le_trans h.size_le hfuel) []
  rw [hdone, List.append_nil, List.append_nil] at hwalk
  exact hwalk

/-- No node stands below an unknown number. -/
theorem not_below_of_get?_eq_none (h : t.get? id = none) {m : Nat} : ¬ t.Below id m := by
  intro hbelow
  induction hbelow with
  | self hn => exact absurd (h.symm.trans hn) (by simp)
  | child _ _ _ ih => exact ih

/-- The nodes below a node are those of its outline. -/
theorem Holds.below_iff (h : t.Holds id (.single l children)) {m : Nat} :
    t.Below id m ↔ id ≤ m ∧ m < id + (Forest.single l children).size := by
  have hroot := h.root
  constructor
  · intro hbelow
    induction hbelow with
    | self hn => exact ⟨Nat.le_refl _, by rw [Forest.single, Forest.size]; omega⟩
    | @child above m n habove hn hm ih =>
      obtain ⟨n', hn', rfl⟩ := Outline.exists_mem_number ih.1 ih.2
      rw [h.get?_of_mem_number hn'] at hn
      obtain rfl := Option.some.inj hn
      exact Outline.mem_children_bounds hn' hm
  · rintro ⟨hle, hlt⟩
    -- a parent has a smaller number
    induction m using Nat.strongRecOn with
    | ind m ih =>
      obtain ⟨n, hn, rfl⟩ := Outline.exists_mem_number hle hlt
      rcases Outline.mem_rootIds_or_exists_parent hn with htop | ⟨above, habove, hchild⟩
      · rw [List.mem_singleton.mp htop]
        exact .self hroot
      · have hbounds := Outline.id_of_mem_number habove
        have hless := Outline.id_lt_of_mem_children habove hchild
        exact .child (ih above.id hless hbounds.1 hbounds.2) (h.get?_of_mem_number habove) hchild

end Tree

namespace Outline

/-- The numbers at the top of an outline increase. -/
theorem pairwise_rootIds (o : Outline) (base : Nat) : (o.rootIds base).Pairwise (· < ·) := by
  induction o generalizing base with
  | nil => exact List.Pairwise.nil
  | node l c s _ ih =>
    refine List.Pairwise.cons (fun m hm => ?_) (ih _)
    have := mem_rootIds_bounds hm
    omega

/-- The numbers of the children of a node increase. -/
theorem pairwise_children {o : Outline} {base : Nat} {n : Tree.Node} (hn : n ∈ o.number base) :
    n.children.Pairwise (· < ·) := by
  induction o generalizing base with
  | nil => exact absurd hn List.not_mem_nil
  | node l c s ihc ihs =>
    rw [number] at hn
    rcases List.mem_cons.mp hn with rfl | hrest
    · exact pairwise_rootIds c _
    · rcases List.mem_append.mp hrest with hin | hin
      · exact ihc hin
      · exact ihs hin

end Outline

namespace Tree

/-- **The tree of an outline with one root is in pre-order.** -/
theorem inPreOrder_ofOutline (l : Label) (children : Outline) :
    (ofOutline (.single l children)).InPreOrder := by
  have hholds := holds_ofOutline (.single l children)
  have hsize : (ofOutline (.single l children)).size = (Forest.single l children).size := by
    rw [size, ofOutline, List.size_toArray, Outline.length_number]
  constructor
  · exact fun i n hn => (get?_ofOutline_eq_some_iff.mp hn).2
  · exact ⟨_, hholds.root⟩
  · intro i n hn c hc
    obtain ⟨hmem, rfl⟩ := get?_ofOutline_eq_some_iff.mp hn
    have hbounds := Outline.mem_children_bounds hmem hc
    rw [hsize]
    exact ⟨Outline.id_lt_of_mem_children hmem hc, by omega⟩
  · exact fun i n hn => Outline.pairwise_children (get?_ofOutline_eq_some_iff.mp hn).1
  · intro i hi
    -- the root and all children together are the numbers, each of them once
    have hperm := (Outline.rootIds_append_children_perm (.single l children) 0).count_eq i
    have hall : (List.range' 0 (Forest.single l children).size).count i = 1 := by
      refine List.count_eq_one_of_mem List.nodup_range' (List.mem_range'_1.mpr ?_)
      omega
    have hroots : Outline.rootIds 0 (.single l children) = [Tree.root] := rfl
    rw [List.count_append, hall, hroots, List.count_singleton] at hperm
    show ((Outline.number 0 (.single l children)).flatMap Node.children).count i = _
    by_cases hi : i = root
    · rw [if_pos hi]
      rw [if_pos (by rw [hi]; exact beq_self_eq_true _)] at hperm
      omega
    · rw [if_neg hi]
      rw [if_neg (by simpa using Ne.symm hi)] at hperm
      omega
  · intro id
    cases hn : (ofOutline (.single l children)).get? id with
    | none =>
      have hwalk : ∀ fuel, (ofOutline (.single l children)).walk fuel [id] = [] := by
        intro fuel
        rcases fuel with _ | _ | fuel
        · rfl
        · rw [walk, hn]
          rfl
        · rw [walk, hn]
          rfl
      rw [descendants, hwalk]
      refine ⟨0, rfl, fun m => ⟨fun hbelow => ?_, fun hm => absurd hm.2 (by omega)⟩, by simp,
        fun fuel _ => hwalk fuel⟩
      exact absurd hbelow (not_below_of_get?_eq_none hn)
    | some n =>
      obtain ⟨hmem, rfl⟩ := get?_ofOutline_eq_some_iff.mp hn
      obtain ⟨below, hsingle⟩ := hholds.exists_holds_single hmem
      have hdescendants : (ofOutline (.single l children)).descendants n.id =
          Outline.number n.id (.single n.label below) := hsingle.walk_single (Nat.le_refl _)
      rw [hdescendants]
      exact ⟨_, Outline.map_id_number _ _, fun _ => hsingle.below_iff,
        fun _ hd => hsingle.get?_of_mem_number hd, fun _ hfuel => hsingle.walk_single hfuel⟩

end Tree

end BraceLang
