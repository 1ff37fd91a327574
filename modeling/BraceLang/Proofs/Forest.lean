import BraceLang.Forest
import Mathlib.Data.List.Forall2
import Mathlib.Order.Bounds.Defs

/-!
# `Proofs.Forest` — parts and shapes of forests

## Contents
- How `roots`, `subtrees` and `map` go along with `append` and `map`, and `forall₂_labels_iff`.
- `Forest.trees`, the trees at the top, and `visit_trees_append`.
- `Forest.Way`, the ways from the top downward, and `Forest.deepest`.
- `Forest.Alike`, two forests of one shape with related labels.
-/

namespace BraceLang.Forest

variable {α β γ : Type}

/-! ## Putting side by side and changing labels -/

theorem append_nil (f : Forest α) : f ++ .nil = f := by
  induction f with
  | nil => rfl
  | node a c s _ ih => rw [node_append, ih]

theorem append_assoc (f g k : Forest α) : f ++ g ++ k = f ++ (g ++ k) := by
  induction f with
  | nil => rfl
  | node a c s _ ih => rw [node_append, node_append, ih, node_append]

theorem map_append (change : α → β) (f g : Forest α) :
    (f ++ g).map change = f.map change ++ g.map change := by
  induction f with
  | nil => rfl
  | node a c s _ ih => rw [node_append, map, map, node_append, ih]

theorem map_map (change : α → β) (more : β → γ) (f : Forest α) :
    (f.map change).map more = f.map (more ∘ change) := by
  induction f with
  | nil => rfl
  | node a c s ihc ihs => rw [map, map, map, ihc, ihs]; rfl

theorem roots_append (f g : Forest α) : (f ++ g).roots = f.roots ++ g.roots := by
  induction f with
  | nil => rfl
  | node a c s _ ih => rw [node_append, roots, roots, ih, List.cons_append]

theorem subtrees_append (f g : Forest α) : (f ++ g).subtrees = f.subtrees ++ g.subtrees := by
  induction f with
  | nil => rfl
  | node a c s _ ih => simp [subtrees, ih]

theorem roots_map (change : α → β) (f : Forest α) : (f.map change).roots = f.roots.map change := by
  induction f with
  | nil => rfl
  | node a c s _ ih => rw [map, roots, roots, List.map_cons, ih]

/-- Labels are related one by one if the labels of the subtrees are. -/
theorem forall₂_labels_iff {R : α → β → Prop} {f : Forest α} {g : Forest β} :
    List.Forall₂ R f.labels g.labels ↔
      List.Forall₂ (fun x y => R x.1 y.1) f.subtrees g.subtrees := by
  rw [labels, labels, List.forall₂_map_left_iff, List.forall₂_map_right_iff]

/-- A row of forests put side by side, if the row is put together from two. -/
theorem foldr_append {ι : Type} (part : ι → Forest α) (is js : List ι) :
    (is ++ js).foldr (fun i rest => part i ++ rest) .nil =
      is.foldr (fun i rest => part i ++ rest) .nil ++ js.foldr (fun i rest => part i ++ rest) .nil := by
  induction is with
  | nil => rfl
  | cons i is ih => rw [List.cons_append, List.foldr_cons, ih, List.foldr_cons, append_assoc]

/-! ## The trees at the top -/

theorem trees_append (f g : Forest α) : (f ++ g).trees = f.trees ++ g.trees := by
  induction f with
  | nil => rfl
  | node a c s _ ih => rw [node_append, trees, ih, trees, List.cons_append]

theorem trees_map (change : α → β) (f : Forest α) :
    (f.map change).trees = f.trees.map fun t => (change t.1, t.2.map change) := by
  induction f with
  | nil => rfl
  | node a c s _ ih => rw [map, trees, ih, trees, List.map_cons]

/-- **The trees of a stack are visited in pre-order.** -/
theorem visit_trees_append (f : Forest α) (stack : List (α × Forest α)) :
    visit (f.trees ++ stack) = f.labels ++ visit stack := by
  induction f generalizing stack with
  | nil => rfl
  | node a c s ihc ihs =>
    rw [trees, List.cons_append, visit, ihc, ihs, labels_node, List.cons_append, List.append_assoc]

theorem visit_singleton (a : α) (c : Forest α) : visit [(a, c)] = a :: c.labels := by
  rw [visit, visit_trees_append, visit, List.append_nil]

/-! ## Ways downward -/

/-- A row of labels that is met on a way down the forest. The way starts at some tree at the top, goes
    from a label to one of its children, and may end anywhere. -/
inductive Way : Forest α → List α → Prop
  | stop {f : Forest α} : Way f []
  | down {a : α} {c s : Forest α} {way : List α} : Way c way → Way (.node a c s) (a :: way)
  | beside {a : α} {c s : Forest α} {way : List α} : Way s way → Way (.node a c s) way

/-- The greatest number of labels with a property on a way down the forest. -/
def deepest (p : α → Bool) : Forest α → Nat
  | .nil => 0
  | .node a c s => max ((if p a then 1 else 0) + c.deepest p) (s.deepest p)

theorem isGreatest_deepest (p : α → Bool) (f : Forest α) :
    IsGreatest {n | ∃ way, f.Way way ∧ way.countP p = n} (f.deepest p) := by
  constructor
  · induction f with
    | nil => exact ⟨[], .stop, rfl⟩
    | node a c s ihc ihs =>
      obtain ⟨way, hway, hcount⟩ := ihc
      obtain ⟨other, hother, hothers⟩ := ihs
      rw [deepest]
      -- the way goes on where more of the labels are
      rcases Nat.le_total ((if p a then 1 else 0) + c.deepest p) (s.deepest p) with hle | hle
      · rw [Nat.max_eq_right hle]
        exact ⟨other, .beside hother, hothers⟩
      · rw [Nat.max_eq_left hle]
        exact ⟨a :: way, .down hway, by rw [List.countP_cons, hcount, Nat.add_comm]⟩
  · rintro n ⟨way, hway, rfl⟩
    induction hway with
    | stop => exact Nat.zero_le _
    | down _ ih =>
      rw [deepest, List.countP_cons, Nat.add_comm]
      exact Nat.le_trans (Nat.add_le_add_left ih _) (Nat.le_max_left _ _)
    | beside _ ih => exact Nat.le_trans ih (Nat.le_max_right _ _)

theorem deepest_append (p : α → Bool) (f g : Forest α) :
    (f ++ g).deepest p = max (f.deepest p) (g.deepest p) := by
  induction f with
  | nil => exact (Nat.zero_max _).symm
  | node a c s _ ih => rw [node_append, deepest, deepest, ih, Nat.max_assoc]

theorem deepest_map (p : β → Bool) (change : α → β) (f : Forest α) :
    (f.map change).deepest p = f.deepest (p ∘ change) := by
  induction f with
  | nil => rfl
  | node a c s ihc ihs => rw [map, deepest, deepest, ihc, ihs]; rfl

/-! ## Forests of one shape -/

/-- The two forests have the same shape, and a label of the one is related with the label at the same
    place of the other. -/
inductive Alike (R : α → β → Prop) : Forest α → Forest β → Prop
  | nil : Alike R .nil .nil
  | node {a : α} {b : β} {c s : Forest α} {d t : Forest β} :
      R a b → Alike R c d → Alike R s t → Alike R (.node a c s) (.node b d t)

namespace Alike

variable {R S : α → β → Prop} {f f' : Forest α} {g g' : Forest β}

theorem append (h : Alike R f g) (h' : Alike R f' g') : Alike R (f ++ f') (g ++ g') := by
  induction h with
  | nil => exact h'
  | node hlabel hbelow _ _ ih => exact .node hlabel hbelow ih

theorem imp (h : Alike R f g) (himp : ∀ a b, R a b → S a b) : Alike S f g := by
  induction h with
  | nil => exact .nil
  | node hlabel _ _ ihc ihs => exact .node (himp _ _ hlabel) ihc ihs

/-- The same where the labels on the right are known to be those of the forest. -/
theorem imp_of_mem (h : Alike R f g) (himp : ∀ a, ∀ b ∈ g.labels, R a b → S a b) : Alike S f g := by
  induction h with
  | nil => exact .nil
  | node hlabel _ _ ihc ihs =>
    simp only [labels_node, List.forall_mem_cons, List.forall_mem_append, forall_and] at himp
    obtain ⟨hown, hbelow, hbeside⟩ := himp
    exact .node (hown _ hlabel) (ihc hbelow) (ihs hbeside)

theorem of_map {change : γ → α} {k : Forest γ} (h : Alike R (k.map change) g) :
    Alike (fun a b => R (change a) b) k g := by
  induction k generalizing g with
  | nil => cases h; exact .nil
  | node a c s ihc ihs =>
    cases h with
    | node hlabel hbelow hbeside => exact .node hlabel (ihc hbelow) (ihs hbeside)

end Alike

end BraceLang.Forest
