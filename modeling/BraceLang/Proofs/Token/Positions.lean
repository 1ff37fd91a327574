import BraceLang.Proofs.Token.Lines

/-!
# `Proofs.Token.Positions` — the positions of tokens are true, and grow

The position behind a longer front of a text is a later one, since each character of the text leads on. So
the order of positions is the order in which the fronts of the source extend each other, and the tokens, whose
texts stand apart in the source, begin and end in this order.

## Contents
- `Position.behind_lt_behind`.
- `Token.PlacedIn`, a token with its own place in a source, and `PlacedIn.lt_of_stop_le`.
- **`tokenize_positions`**.
-/

namespace BraceLang

theorem Position.behind_lt_behind (front : List Char) {more : List Char} (h : more ≠ []) :
    Position.behind front < .behind (front ++ more) := by
  rw [← after_first, ← after_first, after_append]
  exact lt_after h

/-- The text of the token stands in the source at its span. The token has the position that its first
    character has there, and ends at the position that its last character has. -/
def Token.PlacedIn (source : String) (t : Token) : Prop :=
  ∃ before front last behind, t.text.toList = front ++ [last] ∧
    Stands source t.span before (front ++ [last]) behind ∧
    t.position = .behind before ∧ t.endPosition = .behind (before ++ front)

variable {source : String} {t u : Token}

theorem Scan.placedIn_of_mem_tokens (h : t ∈ (tokenize source).tokens) : t.PlacedIn source := by
  obtain ⟨hne, before, behind, hstands, hposition⟩ := stands_of_mem_tokens h
  have hend := Token.endPosition_eq hposition
  obtain ⟨front, last, htext⟩ := (List.eq_nil_or_concat' t.text.toList).resolve_left hne
  rw [htext] at hstands hend
  rw [List.dropLast_concat] at hend
  exact ⟨before, front, last, behind, htext, hstands, hposition, hend⟩

/-- A token that ends before another one begins is in front of it, with its last character too. -/
theorem Token.PlacedIn.lt_of_stop_le (ht : t.PlacedIn source) (hu : u.PlacedIn source)
    (hle : t.span.stop ≤ u.span.start) :
    t.position < u.position ∧ t.endPosition < u.position := by
  obtain ⟨before, front, last, behind, -, ⟨hsource, hspan⟩, hposition, hend⟩ := ht
  obtain ⟨before', front', last', behind', -, ⟨hsource', hspan'⟩, hposition', -⟩ := hu
  rw [hspan, hspan', ← byteLength_append] at hle
  -- all of the first token is in front of the second one
  obtain ⟨more, rfl⟩ : before ++ (front ++ [last]) <+: before' :=
    prefix_of_byteLength_le ⟨behind, by rw [hsource, List.append_assoc]⟩ ⟨_, hsource'.symm⟩ hle
  rw [hposition, hend, hposition']
  constructor
  · rw [List.append_assoc]
    exact Position.behind_lt_behind before (by simp)
  · rw [← List.append_assoc, List.append_assoc _ _ more]
    exact Position.behind_lt_behind (before ++ front) (by simp)

/-- **The positions of tokens are true.** In every source each token has the line and the column of its
    first character, and its end those of its last one: the line is one more than the number of line feeds
    in front of the character, and the column one more than the number of characters behind the last of
    these. So each token begins and ends before the next ones begin. -/
theorem Scan.tokenize_positions (source : String) :
    (∀ t ∈ (tokenize source).tokens, t.PlacedIn source) ∧
    (tokenize source).tokens.Pairwise (·.position < ·.position) ∧
    (tokenize source).tokens.Pairwise (·.endPosition < ·.position) := by
  have hapart : (tokenize source).tokens.Pairwise fun t u =>
      t.position < u.position ∧ t.endPosition < u.position := by
    refine (tokenize_successive source).stop_le_start.imp_of_mem ?_
    intro t u ht hu
    exact (placedIn_of_mem_tokens ht).lt_of_stop_le (placedIn_of_mem_tokens hu)
  exact ⟨fun _ => placedIn_of_mem_tokens, hapart.imp And.left, hapart.imp And.right⟩

end BraceLang
