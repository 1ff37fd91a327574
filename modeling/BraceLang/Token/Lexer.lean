import BraceLang.Token.Basic
import BraceLang.Token.Lexeme
import BraceLang.Diagnostic

/-!
# `Token.Lexer` — from text to tokens

Reading a text has two steps. `pieces` cuts it into lexemes, one longest match after the other; a
character that begins no lexeme is a piece of its own. `Scan.ofPieces` then walks over the pieces
with a position and a byte offset, turns those that are no blanks or comments into tokens and keeps
the spans of the others. Since every piece is a prefix of what the pieces before it have left, no
character is lost or read twice.

## Contents
- `Piece`, `pieces`, and `pieces_flatten`: the pieces, put together, are the text.
- `Scan` and `tokenize`.
- `Scan.diagnostics`, one finding for each character that begins no lexeme.
-/

namespace BraceLang

/-- A stretch of source text with the class of lexeme that it was read as, or with none if it is a
    character that begins no lexeme. -/
structure Piece where
  cls : Option Lexeme.Class
  text : List Char
  deriving DecidableEq, Repr

namespace Piece

/-- The first piece of a text that is not empty: the longest lexeme, or else one character. -/
def first (c : Char) (s : List Char) : Piece :=
  match Lexeme.longest? (c :: s) with
  | some (cls, n) => ⟨some cls, (c :: s).take n⟩
  | none => ⟨none, [c]⟩

/-- A first piece is not empty. -/
theorem first_text_pos (c : Char) (s : List Char) : 0 < (first c s).text.length := by
  unfold first
  split
  · next cls n h => have := (Lexeme.longest?_pos h).2; simp; omega
  · simp

/-- A first piece is a prefix of the text. -/
theorem first_text_append (c : Char) (s : List Char) :
    (first c s).text ++ (c :: s).drop (first c s).text.length = c :: s := by
  unfold first
  split
  · next cls n h =>
    rw [List.length_take]
    rcases Nat.le_total n (c :: s).length with hn | hn
    · rw [Nat.min_eq_left hn, List.take_append_drop]
    · rw [Nat.min_eq_right hn, List.take_of_length_le hn]; simp
  · simp

/-- The kind of token that a piece becomes, or none if it is skipped. A name that is a reserved
    word becomes a keyword. -/
def kind? (p : Piece) : Option Token.Kind :=
  match p.cls with
  | some .whitespace | some .comment => none
  | some .identifier =>
    some (if Keyword.isReserved (String.ofList p.text) then .keyword else .identifier)
  | some .string => some .string
  | some .number => some .number
  | some .operator => some .operator
  | some .punctuation => some .punctuation
  | none => some .error

end Piece

/-- The pieces of a text from left to right. -/
def pieces (s : List Char) : List Piece :=
  match s with
  | [] => []
  | c :: s =>
    let p := Piece.first c s
    p :: pieces ((c :: s).drop p.text.length)
termination_by s.length
decreasing_by
  have := Piece.first_text_pos c s
  simp only [List.length_drop, List.length_cons]
  omega

/-- The pieces, put together, are the text. -/
theorem pieces_flatten (s : List Char) : (pieces s).flatMap Piece.text = s := by
  fun_induction pieces s with
  | case1 => rfl
  | case2 c s p ih =>
    rw [List.flatMap_cons, ih]
    exact Piece.first_text_append c s

/-- What the lexer finds in a text: its tokens, and the spans of the blanks and comments between
    them, both from left to right. -/
structure Scan where
  tokens : List Token
  trivia : List Span
  deriving DecidableEq, Repr

namespace Scan

/-- The scan of a row of pieces of which the first stands at `position` and at the byte `offset`. -/
def ofPieces (position : Position) (offset : Nat) : List Piece → Scan
  | [] => ⟨[], []⟩
  | p :: ps =>
    let stop := offset + byteLength p.text
    let rest := ofPieces (position.after p.text) stop ps
    match p.kind? with
    | some kind =>
      { rest with tokens := ⟨kind, String.ofList p.text, position, ⟨offset, stop⟩⟩ :: rest.tokens }
    | none => { rest with trivia := ⟨offset, stop⟩ :: rest.trivia }

/-- The tokens that are characters without a lexeme. -/
def errorTokens (scan : Scan) : List Token :=
  scan.tokens.filter (·.kind == .error)

/-- The code of the finding about a character that begins no lexeme. -/
def unrecognizedCode : String := "E0001"

/-- The finding about a character that begins no lexeme. -/
def unrecognized (t : Token) : Diagnostic :=
  (Diagnostic.error ("Unrecognized character '" ++ t.text ++ "'")).located t.position
    |>.withSpan t.span
    |>.withSuggestion ("Remove '" ++ t.text ++ "' or replace it")
    |>.withCode unrecognizedCode

/-- One finding for each character that begins no lexeme. -/
def diagnostics (scan : Scan) : List Diagnostic :=
  scan.errorTokens.map unrecognized

end Scan

/-- The scan of a source text. -/
def tokenize (source : String) : Scan :=
  Scan.ofPieces Position.first 0 (pieces source.toList)

end BraceLang
