import BraceLang.Flow.Station
import BraceLang.Proofs.Token.Balance
import BraceLang.Proofs.Token.Context

/-!
# `Proofs.Token.Printing` — tokens with single blanks between them

The texts of some tokens, put together with single blanks, are read as the same words again. A blank ends
every token but a quote in error, and such a quote stays alone: it is in error because its partner is nowhere
behind it in the source, so none of the tokens behind it holds the partner, and the blanks do not either.

## Contents
- `Printable`, with `of_infix`, and `tokenize_printable`: the tokens of a source are.
- `toList_joinTexts_cons_cons` and `mem_joinTexts`.
- **`Printable.words_tokenize`**.
-/

namespace BraceLang

open Lexeme

variable {run : List Token} {t u : Token} {c q : Char}

/-! ## Tokens that can be printed -/

/-- Each token is a piece by itself, and behind a quote that is a token no quote of its form follows. -/
structure Printable (run : List Token) : Prop where
  piece : ∀ t ∈ run, IsPiece t.text.toList (some t.kind)
  alone : run.Pairwise fun t u => ∀ q, t.text.toList = [q] → IsQuote q → q ∉ u.text.toList

theorem Printable.of_infix {part : List Token} (h : Printable run) (hpart : part <:+: run) :
    Printable part :=
  ⟨fun t ht => h.piece t (hpart.subset ht), h.alone.sublist hpart.sublist⟩

namespace Scan

variable {position : Position} {offset : Nat} {s : List Char}

/-- The characters of a token are characters of the text. -/
theorem mem_of_mem_tokensAt (ht : t ∈ tokensAt position offset s) (hc : c ∈ t.text.toList) : c ∈ s := by
  induction s using pieces_induction generalizing position offset with
  | nil =>
    rw [tokensAt_nil] at ht
    exact absurd ht List.not_mem_nil
  | append text rest kind? hpiece hends ih =>
    rw [tokensAt_append hpiece hends] at ht
    rcases List.mem_append.mp ht with hfirst | hrest
    · obtain ⟨kind, -, rfl⟩ := Option.map_eq_some_iff.mp (Option.mem_toList.mp hfirst)
      rw [String.toList_ofList] at hc
      exact List.mem_append_left rest hc
    · exact List.mem_append_right text (ih hrest)

/-- A quote that is a piece has no partner behind it. -/
theorem not_mem_of_endsBefore {rest : List Char} (h : EndsBefore [q] rest) (hq : IsQuote q) :
    q ∉ rest := by
  intro hmem
  obtain ⟨body, behind, rfl, hbody⟩ := List.eq_append_cons_of_mem hmem
  have hstring : Lexeme.Class.string.Contains (q :: (body ++ [q])) := ⟨q, body, rfl, hq, hbody⟩
  have hfront : q :: (body ++ [q]) <+: [q] ++ (body ++ q :: behind) := ⟨behind, by simp⟩
  have hlen := (h _ hfront .string hstring).length_le
  simp at hlen

theorem printable_tokensAt (position : Position) (offset : Nat) (s : List Char) :
    Printable (tokensAt position offset s) := by
  induction s using pieces_induction generalizing position offset with
  | nil =>
    rw [tokensAt_nil]
    exact ⟨fun t ht => absurd ht List.not_mem_nil, .nil⟩
  | append text rest kind? hpiece hends ih =>
    obtain ⟨hpieces, halone⟩ := ih (position.after text) (offset + byteLength text)
    rw [tokensAt_append hpiece hends]
    cases kind? with
    | none => exact ⟨hpieces, halone⟩
    | some kind =>
      refine ⟨List.forall_mem_cons.mpr ⟨?_, hpieces⟩, .cons ?_ halone⟩
      · rwa [String.toList_ofList]
      · intro u hu q hq hquote hmem
        rw [String.toList_ofList] at hq
        rw [hq] at hends
        exact not_mem_of_endsBefore hends hquote (mem_of_mem_tokensAt hu hmem)

end Scan

/-- The tokens of a source can be printed. -/
theorem tokenize_printable (source : String) : Printable (tokenize source).tokens :=
  Scan.printable_tokensAt _ _ _

/-! ## Texts with blanks between them -/

theorem joinTexts_singleton (t : Token) : joinTexts [t] = t.text := String.intercalate_singleton

theorem toList_joinTexts_cons_cons (t u : Token) (run : List Token) :
    (joinTexts (t :: u :: run)).toList = t.text.toList ++ ' ' :: (joinTexts (u :: run)).toList := by
  rw [joinTexts, List.map_cons, List.map_cons, String.intercalate_cons_cons, String.toList_append,
    String.toList_append, List.append_assoc]
  rfl

/-- What is printed are blanks and the characters of the tokens. -/
theorem mem_joinTexts (h : c ∈ (joinTexts run).toList) : c = ' ' ∨ ∃ t ∈ run, c ∈ t.text.toList := by
  induction run with
  | nil => exact absurd h List.not_mem_nil
  | cons t run ih =>
    cases run with
    | nil =>
      rw [joinTexts_singleton] at h
      exact .inr ⟨t, List.mem_cons_self, h⟩
    | cons u run =>
      rw [toList_joinTexts_cons_cons, List.mem_append, List.mem_cons] at h
      rcases h with hown | hblank | hrest
      · exact .inr ⟨t, List.mem_cons_self, hown⟩
      · exact .inl hblank
      · obtain hblank | ⟨v, hv, hmem⟩ := ih hrest
        · exact .inl hblank
        · exact .inr ⟨v, List.mem_cons_of_mem t hv, hmem⟩

namespace Printable

/-- The first token ends before the blank behind it. -/
theorem endsBefore (h : Printable (t :: run)) :
    EndsBefore t.text.toList (' ' :: (joinTexts run).toList) := by
  refine (h.piece t List.mem_cons_self).endsBefore_blank rfl ?_
  intro q hq hquote hmem
  rcases mem_joinTexts hmem with rfl | ⟨u, hu, hmem⟩
  · exact absurd rfl hquote.not_isBlank
  · exact (List.pairwise_cons.mp h.alone).1 u hu q hq hquote hmem

/-- Wherever the printed tokens stand, they are read as the same words. -/
theorem words_tokensAt (h : Printable run) (position : Position) (offset : Nat) :
    words (Scan.tokensAt position offset (joinTexts run).toList) = words run := by
  induction run generalizing position offset with
  | nil =>
    rw [show (joinTexts []).toList = [] from rfl, Scan.tokensAt_nil]
  | cons t run ih =>
    have hpiece := h.piece t List.mem_cons_self
    have hrest : Printable run := h.of_infix (List.suffix_cons t run).isInfix
    cases run with
    | nil =>
      have hends : EndsBefore t.text.toList [] := by
        intro front hfront _ _
        rwa [List.append_nil] at hfront
      rw [joinTexts_singleton, ← List.append_nil t.text.toList, Scan.tokensAt_append hpiece hends,
        Scan.tokensAt_nil, Option.map_some, String.ofList_toList]
      rfl
    | cons u run =>
      have hblank : ∀ c ∈ [' '], isBlank c = true := List.forall_mem_singleton.mpr (by decide)
      rw [toList_joinTexts_cons_cons, Scan.tokensAt_append hpiece h.endsBefore, Option.map_some,
        String.ofList_toList, ← List.singleton_append, Scan.tokensAt_blanks hblank]
      exact congrArg (t.word :: ·) (ih hrest _ _)

/-- **Printing is lossless.** The texts of the tokens with single blanks between them are read as the same
    words again. -/
theorem words_tokenize (h : Printable run) : words (tokenize (joinTexts run)).tokens = words run :=
  h.words_tokensAt _ _

end Printable

end BraceLang
