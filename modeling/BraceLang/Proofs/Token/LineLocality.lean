import BraceLang.Proofs.Token.Context
import BraceLang.Proofs.Token.Places

/-!
# `Proofs.Token.LineLocality` — the lexer begins anew behind a line feed

The pieces in front of a line feed do not depend on what is behind it, and behind it the lexer goes on as at
the start of a text, only further down. Two kinds of piece need care. A run of blanks takes the line feed and
the blanks behind it, but leaves no token. A quote in error may find its partner behind the line feed, so
there must be none.

## Contents
- `Position.below` and `Token.movedBy`, with `tokensAt_movedBy`.
- `Token.IsOpenQuote`, and `tokensAt_lineFeed` for a text at any place.
- **`tokenize_lineFeed`**.
-/

namespace BraceLang

open Lexeme

/-! ## A text further down -/

/-- The place in the same column some lines further down. -/
def Position.below (p : Position) (lines : Nat) : Position := ⟨p.line + lines, p.column⟩

theorem Position.after_below (p : Position) (lines : Nat) (text : List Char) :
    (p.below lines).after text = (p.after text).below lines := by
  induction text generalizing p with
  | nil => rfl
  | cons c text ih =>
    have hadvance : (p.below lines).advance c = (p.advance c).below lines := by
      unfold Position.advance
      by_cases hc : c = '\n'
      · simp only [if_pos hc, below, Nat.add_right_comm]
      · simp only [if_neg hc, below]
    rw [after_cons, after_cons, hadvance, ih]

namespace Token

/-- The same token some lines and some bytes further on. -/
def movedBy (lines bytes : Nat) (t : Token) : Token :=
  { t with
    position := t.position.below lines
    span := ⟨t.span.start + bytes, t.span.stop + bytes⟩ }

/-- The token is a quote of which the partner is missing. -/
def IsOpenQuote (t : Token) : Prop := t.kind = .error ∧ (t.text = "\"" ∨ t.text = "'")

instance (t : Token) : Decidable t.IsOpenQuote :=
  inferInstanceAs (Decidable (_ ∧ (_ ∨ _)))

end Token

namespace Scan

/-- The tokens of a text that begins further on are its tokens further on. -/
theorem tokensAt_movedBy (lines bytes : Nat) (position : Position) (offset : Nat) (s : List Char) :
    tokensAt (position.below lines) (offset + bytes) s =
      (tokensAt position offset s).map (Token.movedBy lines bytes) := by
  induction s using pieces_induction generalizing position offset with
  | nil => rw [tokensAt_nil, tokensAt_nil, List.map_nil]
  | append text rest kind? hpiece hends ih =>
    rw [tokensAt_append hpiece hends, tokensAt_append hpiece hends, List.map_append,
      Position.after_below, Nat.add_right_comm, ih]
    cases kind? with
    | none => rfl
    | some kind => simp [Token.movedBy, Nat.add_right_comm]

/-! ## A line feed behind a text -/

/-- **Behind a text without open quotes, a line feed separates.** The tokens of the text stay, and those of
    what follows stand as if the lexer had begun there. -/
theorem tokensAt_lineFeed {position : Position} {offset : Nat} {a : List Char}
    (hopen : ∀ t ∈ tokensAt position offset a, ¬ t.IsOpenQuote) (b : List Char) :
    tokensAt position offset (a ++ '\n' :: b) = tokensAt position offset a ++
      tokensAt (position.after (a ++ ['\n'])) (offset + byteLength (a ++ ['\n'])) b := by
  induction a using pieces_induction generalizing position offset with
  | nil =>
    rw [tokensAt_nil]
    have hfeed : ∀ c ∈ ['\n'], isBlank c = true := List.forall_mem_singleton.mpr (by decide)
    exact tokensAt_blanks hfeed
  | append text rest kind? hpiece hends ih =>
    by_cases hlast : Lexeme.Class.whitespace.Contains text ∧ rest = []
    · -- the blanks at the end of the text go on with the line feed
      obtain ⟨hblank, rfl⟩ := hlast
      have hnone : tokensAt position offset text = [] := by
        have hblanks : tokensAt position offset (text ++ []) = _ := tokensAt_blanks hblank.2
        rw [List.append_nil] at hblanks
        rw [hblanks, tokensAt_nil]
      have hrun : ∀ c ∈ text ++ ['\n'], isBlank c = true := by
        intro c hc
        rcases List.mem_append.mp hc with hmem | hmem
        · exact hblank.2 c hmem
        · rw [List.mem_singleton.mp hmem]
          decide
      rw [List.append_nil, hnone, List.nil_append, List.append_cons]
      exact tokensAt_blanks hrun
    · have hquote : ∀ q, text = [q] → ¬ IsQuote q := by
        rintro q rfl hq
        obtain rfl := hpiece.kind_of_quote hq
        refine hopen _ (by rw [tokensAt_append hpiece hends]; exact List.mem_cons_self) ⟨rfl, ?_⟩
        exact hq.imp (congrArg fun c => String.ofList [c]) (congrArg fun c => String.ofList [c])
      have hbehind : EndsBefore text (rest ++ '\n' :: b) :=
        hends.lineFeed hpiece hquote (fun hblank hnil => hlast ⟨hblank, hnil⟩) b
      have hrest : ∀ t ∈ tokensAt (position.after text) (offset + byteLength text) rest,
          ¬ t.IsOpenQuote := by
        intro t ht
        apply hopen
        rw [tokensAt_append hpiece hends]
        exact List.mem_append_right _ ht
      have hplace : position.after (text ++ rest ++ ['\n']) =
          (position.after text).after (rest ++ ['\n']) := by
        rw [List.append_assoc, Position.after_append]
      have hbytes : offset + byteLength (text ++ rest ++ ['\n']) =
          offset + byteLength text + byteLength (rest ++ ['\n']) := by
        rw [List.append_assoc, byteLength_append, Nat.add_assoc]
      rw [hplace, hbytes, List.append_assoc, tokensAt_append hpiece hbehind,
        tokensAt_append hpiece hends, ih hrest, List.append_assoc]

end Scan

/-- **Lexing is local to lines unless a quote is open.** If no quote of a text is left open, the tokens of
    the text are not changed by what follows in the next line, and they do not change what follows: its
    tokens are the same as in a text of its own, so many lines and bytes further on. -/
theorem tokenize_lineFeed (a b : String) (h : ∀ t ∈ (tokenize a).tokens, ¬ t.IsOpenQuote) :
    (tokenize (a ++ "\n" ++ b)).tokens = (tokenize a).tokens ++
      (tokenize b).tokens.map (Token.movedBy (a.toList.count '\n' + 1) (a.utf8ByteSize + 1)) := by
  have hplace : Position.first.after (a.toList ++ ['\n']) =
      Position.first.below (a.toList.count '\n' + 1) := by
    rw [Position.after_first, Position.behind, Position.below, List.reverse_append]
    simp [Position.first, Nat.add_comm]
  have hbytes : byteLength (a.toList ++ ['\n']) = a.utf8ByteSize + 1 := by
    rw [byteLength_append, byteLength_eq_utf8Len, String.utf8Len_toList]
    rfl
  have htext : (a ++ "\n" ++ b).toList = a.toList ++ '\n' :: b.toList := by
    rw [String.toList_append, String.toList_append, List.append_assoc]
    rfl
  rw [Scan.tokens_tokenize, htext, Scan.tokensAt_lineFeed h, hplace, hbytes, Scan.tokensAt_movedBy]
  rfl

/-- Two quoted lines, an apostrophe in a comment and a number that the next line could go on with. -/
theorem tokenize_lineFeed_quotedLines :
    (∀ t ∈ (tokenize "s = \"é\nö\"; // don't\n1").tokens, ¬ t.IsOpenQuote) ∧
      (tokenize ("s = \"é\nö\"; // don't\n1" ++ "\n" ++ "e5 don't")).tokens =
        (tokenize "s = \"é\nö\"; // don't\n1").tokens ++
          (tokenize "e5 don't").tokens.map (Token.movedBy 3 24) := by
  have hclosed : ∀ t ∈ (tokenize "s = \"é\nö\"; // don't\n1").tokens, ¬ t.IsOpenQuote := by
    decide +kernel
  exact ⟨hclosed, tokenize_lineFeed _ _ hclosed⟩

end BraceLang
