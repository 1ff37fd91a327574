import BraceLang.Token.Basic

/-!
# `Token.Lookahead` — the extents of every run at once

A reader that moves about in a row of tokens asks again and again where a parenthesis closes and
where an expression ends. The answers are found once for every index and kept in two tables, so the
row is not scanned again for each question.

A first pass goes forward and finds the partners of parentheses, with a stack of those that are open.
A second pass goes backward and finds the ends. The end of an expression that goes on behind a token
is the end of one that starts there, and the pass has found that before.

## Contents
- `Lookahead.closers`, the first pass.
- `Lookahead.ends?`, the second pass, which has no result if it reads or writes outside of a table.
- `Lookahead.isSome_ends?`: that never happens.
-/

namespace BraceLang.Lookahead

/-! ## The first pass -/

/-- Where the first pass stands: the indices of the `(` that are open, the innermost first, and the table
    with the partners that have been found. -/
structure Pairing where
  opened : List Nat
  closers : Array (Option Nat)

namespace Pairing

/-- Goes on over the token `t` at `index`. A `)` closes the innermost `(`, or nothing if none is open, and
    a brace breaks off all pairs. -/
def step (index : Nat) (t : Token) (p : Pairing) : Pairing :=
  if t.isPunct "(" then ⟨index :: p.opened, p.closers⟩
  else if t.isPunct ")" then
    match p.opened with
    | [] => p
    | start :: opened => ⟨opened, p.closers.setIfInBounds start (some index)⟩
  else if t.isBrace then ⟨[], p.closers⟩
  else p

/-- Goes on over a row of tokens of which the first stands at `index`. -/
def run (index : Nat) (p : Pairing) : List Token → Pairing
  | [] => p
  | t :: s => run (index + 1) (p.step index t) s

/-- Where the pass over a row of `length` tokens begins. -/
def atStart (length : Nat) : Pairing := ⟨[], Array.replicate length none⟩

end Pairing

/-- For each token of a row the index of the `)` that closes it, if the token is a `(` and there is one
    before the next brace. -/
def closers (tokens : List Token) : Array (Option Nat) :=
  (Pairing.run 0 (.atStart tokens.length) tokens).closers

/-- All closing parentheses of a table stand in front of an index. -/
def ClosersBefore (bound : Nat) (closers : Array (Option Nat)) : Prop :=
  ∀ i close : Nat, closers[i]? = some (some close) → close < bound

namespace Pairing

variable {index bound : Nat} {t : Token} {p : Pairing}

theorem size_closers_step : (p.step index t).closers.size = p.closers.size := by
  unfold step
  repeat' split
  all_goals simp

/-- What a step adds to the table is the index of the token that it goes over. -/
theorem closersBefore_step (hindex : index < bound) (h : ClosersBefore bound p.closers) :
    ClosersBefore bound (p.step index t).closers := by
  unfold step
  split
  · exact h
  split
  · split
    · exact h
    · intro i close hentry
      rw [Array.getElem?_setIfInBounds] at hentry
      split at hentry
      · split at hentry
        · obtain rfl := Option.some.inj (Option.some.inj hentry)
          exact hindex
        · exact absurd hentry (Option.some_ne_none _).symm
      · exact h i close hentry
  split
  · exact h
  · exact h

theorem size_closers_run (index : Nat) (p : Pairing) (s : List Token) :
    (p.run index s).closers.size = p.closers.size := by
  induction s generalizing index p with
  | nil => rfl
  | cons t s ih => rw [run, ih, size_closers_step]

theorem closersBefore_run {s : List Token} (hbound : index + s.length ≤ bound)
    (h : ClosersBefore bound p.closers) : ClosersBefore bound (p.run index s).closers := by
  induction s generalizing index p with
  | nil => exact h
  | cons t s ih =>
    rw [List.length_cons] at hbound
    exact ih (by omega) (closersBefore_step (by omega) h)

end Pairing

/-- There is one entry for each token. -/
theorem size_closers (tokens : List Token) : (closers tokens).size = tokens.length := by
  rw [closers, Pairing.size_closers_run, Pairing.atStart, Array.size_replicate]

/-- A closing parenthesis is a token of the row. -/
theorem closersBefore_closers (tokens : List Token) :
    ClosersBefore tokens.length (closers tokens) := by
  refine Pairing.closersBefore_run (Nat.le_of_eq (Nat.zero_add _)) ?_
  intro i close hentry
  rw [Pairing.atStart, Array.getElem?_replicate] at hentry
  split at hentry <;> simp at hentry

/-! ## The second pass -/

/-- What is known about the tokens from some index on: in `table` the end of an expression that starts
    there, and in `brace` the index of the next brace, or the number of tokens if there is none. -/
structure Ends where
  table : Array Nat
  brace : Nat

namespace Ends

/-- The end of an expression that starts with the token `t` at `index`, from what is known about the
    tokens behind it. A brace, a `)` and a separator end it at once. Behind a `(` the expression goes on
    after the partner, or up to the next brace if there is none. Every other token belongs to the
    expression that goes on after it. -/
def endAt? (closers : Array (Option Nat)) (known : Ends) (index : Nat) (t : Token) : Option Nat :=
  if t.isBrace then some index
  else if t.isPunct ")" || t.isPunct ";" || t.isPunct "," then some index
  else if t.isPunct "(" then
    match closers[index]? with
    | none => none
    | some none => some known.brace
    | some (some close) => known.table[close + 1]?
  else known.table[index + 1]?

/-- Writes the end of an expression that starts with the token `t` at `index`. -/
def record? (known : Ends) (index : Nat) (t : Token) (stop : Nat) : Option Ends :=
  if h : index < known.table.size then
    some ⟨known.table.set index stop, if t.isBrace then index else known.brace⟩
  else none

/-- What is known when the tokens from `index` on have been seen, the last one first. The pass starts
    with what is known about the end of the row. -/
def extend? (closers : Array (Option Nat)) (atEnd : Ends) (index : Nat) : List Token → Option Ends
  | [] => some atEnd
  | t :: s => do
    let known ← extend? closers atEnd (index + 1) s
    known.record? index t (← endAt? closers known index t)

/-- What is known about the end of a row of `length` tokens. The table has an entry for each token and
    one for the end. -/
def atEnd (length : Nat) : Ends := ⟨Array.replicate (length + 1) length, length⟩

end Ends

/-- For each token of a row, and for its end, the end of an expression that starts there. -/
def ends? (closers : Array (Option Nat)) (tokens : List Token) : Option (Array Nat) :=
  (Ends.extend? closers (Ends.atEnd tokens.length) 0 tokens).map Ends.table

namespace Ends

variable {closers : Array (Option Nat)} {known : Ends} {index : Nat} {t : Token}

/-- A token in front is seen last. -/
theorem extend?_cons_eq_some_iff {atEnd recorded : Ends} {s : List Token} :
    extend? closers atEnd index (t :: s) = some recorded ↔
      ∃ known, extend? closers atEnd (index + 1) s = some known ∧
        ∃ stop, endAt? closers known index t = some stop ∧
          known.record? index t stop = some recorded := by
  simp [extend?, Option.bind_eq_some_iff]

/-- The end is found if the table reaches one entry further than the tokens do. -/
theorem exists_endAt? (hsize : known.table.size = closers.size + 1)
    (hclosers : ClosersBefore closers.size closers)
    (hindex : index < closers.size) (t : Token) : ∃ stop, endAt? closers known index t = some stop := by
  have hread (i : Nat) (hi : i < closers.size) : ∃ stop, known.table[i + 1]? = some stop :=
    ⟨_, Array.getElem?_eq_getElem (by omega)⟩
  unfold endAt?
  split
  · exact ⟨index, rfl⟩
  split
  · exact ⟨index, rfl⟩
  split
  · cases hentry : closers[index]? with
    | none => exact absurd (Array.getElem?_eq_none_iff.mp hentry) (Nat.not_le_of_lt hindex)
    | some closer =>
      cases closer with
      | none => exact ⟨known.brace, rfl⟩
      | some close => exact hread close (hclosers index close hentry)
  · exact hread index hindex

theorem record?_eq_some_iff {recorded : Ends} {stop : Nat} :
    known.record? index t stop = some recorded ↔ ∃ h : index < known.table.size,
      (⟨known.table.set index stop, if t.isBrace then index else known.brace⟩ : Ends) = recorded := by
  rw [record?]
  split
  · next h => exact ⟨fun heq => ⟨h, Option.some.inj heq⟩, fun ⟨_, heq⟩ => congrArg some heq⟩
  · next h => exact ⟨fun heq => absurd heq (Option.some_ne_none _).symm, fun ⟨h', _⟩ => absurd h' h⟩

theorem size_record? {recorded : Ends} {stop : Nat} (h : known.record? index t stop = some recorded) :
    recorded.table.size = known.table.size := by
  obtain ⟨hlt, rfl⟩ := record?_eq_some_iff.mp h
  exact Array.size_set hlt

theorem exists_extend? {atEnd : Ends} {s : List Token} (hsize : atEnd.table.size = closers.size + 1)
    (hclosers : ClosersBefore closers.size closers) (hindex : index + s.length = closers.size) :
    ∃ known, extend? closers atEnd index s = some known ∧ known.table.size = closers.size + 1 := by
  induction s generalizing index with
  | nil => exact ⟨atEnd, rfl, hsize⟩
  | cons t s ih =>
    rw [List.length_cons] at hindex
    obtain ⟨known, hknown, hsize⟩ := ih (show index + 1 + s.length = closers.size by omega)
    obtain ⟨stop, hstop⟩ := exists_endAt? hsize hclosers (show index < closers.size by omega) t
    obtain ⟨recorded, hrecorded⟩ : ∃ recorded, known.record? index t stop = some recorded :=
      ⟨_, record?_eq_some_iff.mpr ⟨show index < known.table.size by omega, rfl⟩⟩
    refine ⟨recorded, ?_, by rw [size_record? hrecorded, hsize]⟩
    exact extend?_cons_eq_some_iff.mpr ⟨known, hknown, stop, hstop, hrecorded⟩

end Ends

/-- **The second pass stays inside of its tables.** -/
theorem isSome_ends? (tokens : List Token) : (ends? (closers tokens) tokens).isSome = true := by
  have hsize := size_closers tokens
  have hatEnd : (Ends.atEnd tokens.length).table.size = (closers tokens).size + 1 := by
    rw [Ends.atEnd, Array.size_replicate, hsize]
  have hclosers : ClosersBefore (closers tokens).size (closers tokens) := by
    rw [hsize]
    exact closersBefore_closers tokens
  obtain ⟨known, hknown, -⟩ :=
    Ends.exists_extend? hatEnd hclosers (show 0 + tokens.length = _ by rw [hsize, Nat.zero_add])
  rw [ends?, hknown]
  rfl

end BraceLang.Lookahead
