import BraceLang.Proofs.Token.Tiling
import Mathlib.Data.List.Induction

/-!
# `Proofs.Token.Places` — the places of tokens in their source

The lexer moves a position over the source character by character. Here a position is read off the
source at once: the line counts the line feeds in front of a character, and the column the characters
since the last of these. The tokens of a source begin and end at characters of it and have their
positions, and they stand one after the other.

## Contents
- `Position.behind`, with `Position.after_first`.
- `StandsAt` and `StopsAt`, the character at a byte and the last one before a byte.
- `stands_of_mem_tokens` and `Token.endPosition_eq`, and from these **`tokenize_places`**.
- `tokenize_successive`.
-/

namespace BraceLang

/-- The place of a character with `front` in front of it. -/
def Position.behind (front : List Char) : Position :=
  ⟨front.count '\n' + 1, (front.reverse.takeWhile (· != '\n')).length + 1⟩

/-- The place that is reached from the first one over some characters is the place behind them. -/
theorem Position.after_first (front : List Char) : Position.first.after front = .behind front := by
  induction front using List.reverseRecOn with
  | nil => rfl
  | append_singleton front c ih =>
    rw [after_append, ih, after_cons, after_nil, behind, advance, behind, List.count_append,
      List.count_singleton, List.reverse_append, List.reverse_singleton, List.singleton_append]
    by_cases hc : c = '\n'
    · rw [if_pos hc, hc, List.takeWhile_cons_of_neg (by decide)]
      rfl
    · rw [if_neg hc, List.takeWhile_cons_of_pos (by simp [hc]), List.length_cons, if_neg (by simp [hc])]

/-- A character of the source begins with the byte `byte`, and its place is `position`. -/
def StandsAt (source : String) (byte : Nat) (position : Position) : Prop :=
  ∃ front c behind, source.toList = front ++ c :: behind ∧ byteLength front = byte ∧
    position = .behind front

/-- A character of the source ends before the byte `byte`, and its place is `position`. -/
def StopsAt (source : String) (byte : Nat) (position : Position) : Prop :=
  ∃ front c behind, source.toList = front ++ c :: behind ∧ byteLength (front ++ [c]) = byte ∧
    position = .behind front

/-- A piece has the place behind the pieces before it. -/
theorem position_of_mem_placed {position : Position} {offset : Nat} {ps : List Piece}
    {q : PlacedPiece} (h : q ∈ placed position offset ps) :
    ∃ before behind, ps = before ++ q.piece :: behind ∧
      q.offset = offset + byteLength (before.flatMap Piece.text) ∧
        q.position = position.after (before.flatMap Piece.text) := by
  induction ps generalizing position offset with
  | nil => exact absurd h List.not_mem_nil
  | cons p ps ih =>
    rcases List.mem_cons.mp h with rfl | h
    · exact ⟨[], ps, rfl, rfl, rfl⟩
    · obtain ⟨before, behind, rfl, hoffset, hposition⟩ := ih h
      refine ⟨p :: before, behind, rfl, ?_, ?_⟩
      · rw [hoffset, List.flatMap_cons, byteLength_append, Nat.add_assoc]
      · rw [hposition, List.flatMap_cons, Position.after_append]

namespace Scan

/-- A token stands in the source with its own text, and is placed where its first character is. -/
theorem stands_of_mem_tokens {source : String} {t : Token} (h : t ∈ (tokenize source).tokens) :
    t.text.toList ≠ [] ∧ ∃ before behind, Stands source t.span before t.text.toList behind ∧
      t.position = .behind before := by
  rw [tokenize, tokens_ofPieces] at h
  obtain ⟨q, hq, htoken⟩ := List.mem_filterMap.mp h
  rw [PlacedPiece.token?, Option.map_eq_some_iff] at htoken
  obtain ⟨kind, -, rfl⟩ := htoken
  obtain ⟨before, behind, hpieces, hoffset, hposition⟩ := position_of_mem_placed hq
  obtain ⟨hstands, -⟩ := stands_of_pieces_eq q.position hpieces
  rw [Nat.zero_add] at hoffset
  rw [← hoffset] at hstands
  rw [Position.after_first] at hposition
  dsimp only
  rw [String.toList_ofList]
  exact ⟨text_ne_nil_of_mem_pieces (hpieces ▸ List.mem_append_right _ List.mem_cons_self),
    _, _, hstands, hposition⟩

end Scan

/-- The last character of a token has in front of it what stands before the token, and all of the token
    but this character. -/
theorem Token.endPosition_eq {t : Token} {before : List Char} (h : t.position = .behind before) :
    t.endPosition = .behind (before ++ t.text.toList.dropLast) := by
  rw [Token.endPosition, Position.ofLast_eq, h, ← Position.after_first, ← Position.after_first,
    Position.after_append]

/-- The closing quote behind a line feed is the first character of its line. -/
example : Token.endPosition ⟨.string, "\"a\n\"", ⟨1, 5⟩, ⟨4, 8⟩⟩ = ⟨2, 1⟩ := by decide

namespace Scan

/-- **The tokens of a source have the places of their characters.** -/
theorem tokenize_places {source : String} {t : Token} (h : t ∈ (tokenize source).tokens) :
    StandsAt source t.span.start t.position ∧ StopsAt source t.span.stop t.endPosition := by
  obtain ⟨hne, before, behind, ⟨hsource, hspan⟩, hposition⟩ := stands_of_mem_tokens h
  rw [Token.endPosition_eq hposition, hposition, hspan]
  generalize t.text.toList = text at *
  constructor
  · obtain ⟨c, text, rfl⟩ := List.exists_cons_of_ne_nil hne
    exact ⟨before, c, text ++ behind, hsource, rfl, rfl⟩
  · refine ⟨before ++ text.dropLast, text.getLast hne, behind, ?_, ?_, rfl⟩
    · rw [hsource, List.append_assoc, List.append_cons, List.append_assoc, ← List.append_assoc _ [_],
        List.dropLast_append_getLast]
    · rw [List.append_assoc, List.dropLast_append_getLast, byteLength_append]

end Scan

/-- The tokens stand one after the other, and each covers a byte at least. -/
structure Successive (tokens : List Token) : Prop where
  start_lt_stop : ∀ t ∈ tokens, t.span.start < t.span.stop
  stop_le_start : tokens.Pairwise fun t u => t.span.stop ≤ u.span.start

theorem tokenize_successive (source : String) : Successive (tokenize source).tokens := by
  rw [tokenize, tokens_ofPieces]
  constructor
  · intro t ht
    obtain ⟨q, hq, htoken⟩ := List.mem_filterMap.mp ht
    obtain ⟨before, behind, hpieces, -⟩ := exists_of_mem_placed hq
    have hmem : q.piece ∈ pieces source.toList :=
      hpieces ▸ List.mem_append_right _ List.mem_cons_self
    rw [PlacedPiece.span_of_token? htoken]
    exact Nat.lt_add_of_pos_right (byteLength_pos (text_ne_nil_of_mem_pieces hmem))
  · refine (pairwise_placed _ _ _).filterMap _ fun p q hpq t ht u hu => ?_
    rw [PlacedPiece.span_of_token? ht, PlacedPiece.span_of_token? hu]
    exact hpq

namespace Successive

variable {tokens : List Token} {t u : Token} {i j : Nat}

/-- A token ends before a later one begins. -/
theorem apart (h : Successive tokens) (ht : tokens[i]? = some t) (hu : tokens[j]? = some u)
    (hij : i < j) : t.span.stop ≤ u.span.start := by
  obtain ⟨hi, rfl⟩ := List.getElem?_eq_some_iff.mp ht
  obtain ⟨hj, rfl⟩ := List.getElem?_eq_some_iff.mp hu
  exact List.pairwise_iff_getElem.mp h.stop_le_start i j hi hj hij

theorem start_le (h : Successive tokens) (ht : tokens[i]? = some t) (hu : tokens[j]? = some u)
    (hij : i ≤ j) : t.span.start ≤ u.span.start := by
  rcases Nat.eq_or_lt_of_le hij with rfl | hlt
  · rw [Option.some.inj (ht.symm.trans hu)]
  · have := h.apart ht hu hlt
    have := h.start_lt_stop t (List.mem_of_getElem? ht)
    omega

theorem stop_le (h : Successive tokens) (ht : tokens[i]? = some t) (hu : tokens[j]? = some u)
    (hij : i ≤ j) : t.span.stop ≤ u.span.stop := by
  rcases Nat.eq_or_lt_of_le hij with rfl | hlt
  · rw [Option.some.inj (ht.symm.trans hu)]
  · have := h.apart ht hu hlt
    have := h.start_lt_stop u (List.mem_of_getElem? hu)
    omega

end Successive

end BraceLang
