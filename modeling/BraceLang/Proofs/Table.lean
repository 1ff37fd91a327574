import Mathlib.Data.List.Forall2

/-!
# `Proofs.Table` — runs of rows inside a table

The syntax tree and the control-flow graph are tables that are laid out by putting lists one after
another, and both refer to their rows by index. `RowsAt` says that a list of rows stands in a table
from some index on; it passes to the parts of the list, which is how facts about a whole table
reach the rows of one statement. Lists that stand beside one another are related entry by entry with
`List.Forall₂`.
-/

namespace BraceLang

variable {α : Type} {table : Array α} {n : Nat}

/-- The rows stand in the table one after the other, the first of them at the index `n`. -/
def RowsAt (table : Array α) (n : Nat) (rows : List α) : Prop :=
  ∀ i, i < rows.length → table[n + i]? = rows[i]?

namespace RowsAt

/-- The rows that a table is made of stand in it from the index 0 on. -/
theorem toArray (rows : List α) : RowsAt rows.toArray 0 rows := by
  intro i _
  rw [Nat.zero_add, List.getElem?_toArray]

theorem head {row : α} {rows : List α} (h : RowsAt table n (row :: rows)) :
    table[n]? = some row := by
  have h0 := h 0 (Nat.succ_pos _)
  rwa [Nat.add_zero] at h0

theorem tail {row : α} {rows : List α} (h : RowsAt table n (row :: rows)) :
    RowsAt table (n + 1) rows := by
  intro i hi
  rw [Nat.add_assoc, Nat.add_comm 1 i, h (i + 1) (Nat.succ_lt_succ hi), List.getElem?_cons_succ]

theorem left {rows more : List α} (h : RowsAt table n (rows ++ more)) : RowsAt table n rows := by
  intro i hi
  rw [h i (by rw [List.length_append]; omega), List.getElem?_append_left hi]

theorem right {rows more : List α} (h : RowsAt table n (rows ++ more)) :
    RowsAt table (n + rows.length) more := by
  intro i hi
  rw [Nat.add_assoc, h (rows.length + i) (by rw [List.length_append]; omega),
    List.getElem?_append_right (Nat.le_add_right _ _), Nat.add_sub_cancel_left]

/-- Rows of a known number stand before those that are put behind them. -/
theorem split {rows more : List α} {count : Nat} (h : RowsAt table n (rows ++ more))
    (hcount : rows.length = count) : RowsAt table n rows ∧ RowsAt table (n + count) more := by
  subst hcount
  exact ⟨h.left, h.right⟩

end RowsAt

theorem drop_succ_of_cons {row : α} {rows rest : List α} (h : rows.drop n = row :: rest) :
    rows.drop (n + 1) = rest := by
  rw [← List.drop_drop, h]
  rfl

/-- Behind a run of rows stand the rows that follow it. -/
theorem drop_add_length {rows run rest : List α} (h : rows.drop n = run ++ rest) :
    rows.drop (n + run.length) = rest := by
  rw [← List.drop_drop, h, List.drop_left]

section Forall₂

variable {β : Type} {R : α → β → Prop} {as : List α} {bs : List β}

/-! Of two rows that are related entry by entry, each entry of one has a partner in the other. -/

theorem forall₂_exists_left (h : List.Forall₂ R as bs) : ∀ b ∈ bs, ∃ a ∈ as, R a b := by
  induction h with
  | nil => exact fun _ hb => absurd hb List.not_mem_nil
  | cons hab _ ih =>
    refine List.forall_mem_cons.mpr ⟨⟨_, List.mem_cons_self, hab⟩, ?_⟩
    intro b hb
    obtain ⟨a, ha, hrel⟩ := ih b hb
    exact ⟨a, List.mem_cons_of_mem _ ha, hrel⟩

theorem forall₂_exists_right (h : List.Forall₂ R as bs) : ∀ a ∈ as, ∃ b ∈ bs, R a b :=
  forall₂_exists_left h.flip

end Forall₂

end BraceLang
