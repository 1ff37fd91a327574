/-!
# `Text.Position` — where a character stands in a text

A text is addressed in two ways. A **position** is a line and a column, both counted from 1; a
column counts characters, and only a line feed ends a line. A **span** is a half-open range of
bytes in the UTF-8 form of the text.

## Contents
- `Position`, its order and its written form; `Position.advance`, `Position.after` and
  `Position.ofLast` move a position over the characters that stand at it.
- `Span`, `Span.clamp`, and `byteLength`, the size of a run of characters in bytes.
-/

namespace BraceLang

/-- A place in a text, by line and column, each counted from 1. -/
structure Position where
  line : Nat
  column : Nat
  deriving DecidableEq, Repr

namespace Position

/-- The place of the first character of any text. -/
def first : Position := ⟨1, 1⟩

instance : Inhabited Position := ⟨first⟩

/-- The written form is `line:column`. -/
instance : ToString Position := ⟨fun p => toString p.line ++ ":" ++ toString p.column⟩

/-- The order of the text: by line, and within a line by column. -/
instance : LE Position :=
  ⟨fun p q => p.line < q.line ∨ p.line = q.line ∧ p.column ≤ q.column⟩

instance (p q : Position) : Decidable (p ≤ q) :=
  inferInstanceAs (Decidable (p.line < q.line ∨ p.line = q.line ∧ p.column ≤ q.column))

instance : LT Position :=
  ⟨fun p q => p.line < q.line ∨ p.line = q.line ∧ p.column < q.column⟩

instance (p q : Position) : Decidable (p < q) :=
  inferInstanceAs (Decidable (p.line < q.line ∨ p.line = q.line ∧ p.column < q.column))

theorem lt_iff {p q : Position} :
    p < q ↔ p.line < q.line ∨ p.line = q.line ∧ p.column < q.column := Iff.rfl

theorem lt_trans {p q r : Position} (h : p < q) (h' : q < r) : p < r := by
  rw [lt_iff] at h h' ⊢
  omega

/-- The place after the character `c` that stands at `p`: a line feed leads to the start of the
    next line, every other character to the next column. -/
def advance (p : Position) (c : Char) : Position :=
  if c = '\n' then ⟨p.line + 1, 1⟩ else ⟨p.line, p.column + 1⟩

/-- The place after the run of characters that begins at `p`. -/
def after (p : Position) (text : List Char) : Position :=
  text.foldl advance p

/-- The place of the last character of the run that begins at `p`. The place moves on over a character
    if another one follows, so without any character it stays. -/
def ofLast (p : Position) : List Char → Position
  | [] => p
  | [_] => p
  | c :: next :: text => (p.advance c).ofLast (next :: text)

@[simp] theorem after_nil (p : Position) : p.after [] = p := rfl

@[simp] theorem after_cons (p : Position) (c : Char) (text : List Char) :
    p.after (c :: text) = (p.advance c).after text := rfl

/-- Moving over two runs one after the other is moving over both at once. -/
theorem after_append (p : Position) (s t : List Char) :
    p.after (s ++ t) = (p.after s).after t := by
  simp [after, List.foldl_append]

/-- Moving to the last character is moving over all the others. -/
theorem ofLast_eq (p : Position) (text : List Char) : p.ofLast text = p.after text.dropLast := by
  fun_induction ofLast p text with
  | case1 => rfl
  | case2 => rfl
  | case3 p c next text ih => rw [ih, List.dropLast_cons_of_ne_nil (List.cons_ne_nil _ _), after_cons]

/-- Every character leads further on in the text. -/
theorem lt_advance (p : Position) (c : Char) : p < p.advance c := by
  rw [lt_iff, advance]
  split
  · exact .inl (Nat.lt_succ_self _)
  · exact .inr ⟨rfl, Nat.lt_succ_self _⟩

theorem lt_after {p : Position} {text : List Char} (h : text ≠ []) : p < p.after text := by
  induction text generalizing p with
  | nil => exact absurd rfl h
  | cons c text ih =>
    rw [after_cons]
    by_cases htext : text = []
    · rw [htext]
      exact lt_advance p c
    · exact lt_trans (lt_advance p c) (ih htext)

end Position

/-- A half-open range of bytes: `start` belongs to it and `stop` does not. Nothing keeps `start`
    below `stop`, since spans also come from outside. -/
structure Span where
  start : Nat
  stop : Nat
  deriving DecidableEq, Repr, Inhabited

/-- The part of a span that lies in a text of `length` bytes. A span that ends before it starts
    becomes the empty span at its start. -/
def Span.clamp (span : Span) (length : Nat) : Span :=
  let start := min span.start length
  ⟨start, max (min span.stop length) start⟩

/-- A clamped span is in order and inside the text. -/
theorem Span.clamp_bounds (span : Span) (length : Nat) :
    (span.clamp length).start ≤ (span.clamp length).stop ∧ (span.clamp length).stop ≤ length := by
  simp only [Span.clamp]; omega

/-- The size of a run of characters, in bytes of UTF-8. -/
def byteLength (text : List Char) : Nat :=
  text.foldl (fun n c => n + c.utf8Size) 0

@[simp] theorem byteLength_nil : byteLength [] = 0 := rfl

theorem foldl_utf8Size (text : List Char) (n : Nat) :
    text.foldl (fun n c => n + c.utf8Size) n = n + byteLength text := by
  induction text generalizing n with
  | nil => rfl
  | cons c text ih =>
    rw [byteLength, List.foldl_cons, List.foldl_cons, ih, ih (0 + c.utf8Size)]
    omega

@[simp] theorem byteLength_cons (c : Char) (text : List Char) :
    byteLength (c :: text) = c.utf8Size + byteLength text := by
  rw [byteLength, List.foldl_cons, foldl_utf8Size, Nat.zero_add]

@[simp] theorem byteLength_append (s t : List Char) :
    byteLength (s ++ t) = byteLength s + byteLength t := by
  induction s with
  | nil => simp
  | cons c s ih => simp [ih, Nat.add_assoc]

end BraceLang
