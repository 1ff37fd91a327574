import BraceLang.Token.Lookahead

/-!
# `Token.Cursor` — a place in a row of tokens

A cursor stands before one of the tokens of a row, or at its end, and never leaves the row. It
answers what is around it, moves, and knows for every index where a parenthesis closes and where an
expression ends, from the tables of `Token.Lookahead`.
-/

namespace BraceLang

/-- A place in a row of tokens, with the tables of the row. The place is before a token of the row
    or at its end, and the tables are what the two passes of lookahead over the row find. -/
structure Cursor where
  tokens : Array Token
  position : Nat
  closers : Array (Option Nat)
  ends : Array Nat
  position_le : position ≤ tokens.size
  closers_eq : closers = Lookahead.closers tokens.toList
  ends_eq : Lookahead.ends? closers tokens.toList = some ends

namespace Cursor

/-- The cursor before the first token. -/
def ofTokens (tokens : List Token) : Cursor :=
  let closers := Lookahead.closers tokens
  { tokens := tokens.toArray
    position := 0
    closers
    ends := (Lookahead.ends? closers tokens).get (Lookahead.isSome_ends? tokens)
    position_le := Nat.zero_le _
    closers_eq := rfl
    ends_eq := Option.eq_some_of_isSome _ }

/-- The token with an index of the row. -/
def token? (c : Cursor) (index : Nat) : Option Token := c.tokens[index]?

/-- The token that the cursor stands before. -/
def current? (c : Cursor) : Option Token := c.token? c.position

/-- The token `distance` places further on. -/
def peek? (c : Cursor) (distance : Nat) : Option Token := c.token? (c.position + distance)

/-- The token that the cursor stands behind. -/
def previous? (c : Cursor) : Option Token :=
  match c.position with
  | 0 => none
  | n + 1 => c.token? n

/-- The position and the byte at which the token before the cursor ends. At the start of the row
    this is the start of the text. -/
def previousEnd (c : Cursor) : Position × Nat :=
  match c.previous? with
  | some t => (t.endPosition, t.span.stop)
  | none => (Position.first, 0)

/-- The tokens from one index up to another, as far as they belong to the row. -/
def slice (c : Cursor) (start stop : Nat) : List Token := (c.tokens.extract start stop).toList

/-- Whether every token lies behind the cursor. -/
def isAtEnd (c : Cursor) : Bool := c.tokens.size ≤ c.position

/-- The cursor at an index, or at the end of the row if the index lies beyond it. -/
def moveTo (c : Cursor) (index : Nat) : Cursor :=
  { c with position := min index c.tokens.size, position_le := Nat.min_le_right .. }

/-- The cursor behind the next token; at the end it stays there. -/
def advance (c : Cursor) : Cursor :=
  if h : c.position < c.tokens.size then { c with position := c.position + 1, position_le := h }
  else c

/-- Whether the token at an index is of this kind. -/
def hasKindAt (c : Cursor) (index : Nat) (kind : Token.Kind) : Bool :=
  (c.token? index).any (·.kind == kind)

/-- Whether the token at an index is the punctuation `text`. -/
def isPunctAt (c : Cursor) (index : Nat) (text : String) : Bool :=
  (c.token? index).any (·.isPunct text)

/-- Whether the next token is the punctuation `text`. -/
def isAtPunct (c : Cursor) (text : String) : Bool := c.current?.any (·.isPunct text)

/-- Whether the next token is the keyword `text`. -/
def isAtKeyword (c : Cursor) (text : String) : Bool := c.current?.any (·.isKeyword text)

/-- Moves past the next token if it is the punctuation `text`, and says whether it was. -/
def consumePunct (c : Cursor) (text : String) : Bool × Cursor :=
  if c.isAtPunct text then (true, c.advance) else (false, c)

/-- The index of the `)` that closes the `(` at an index. There is none if another token stands
    there or a brace comes first. -/
def matchingParen? (c : Cursor) (index : Nat) : Option Nat := c.closers[index]?.join

/-- The index at which an expression that starts at an index ends: that of the first `;`, `,` or
    `)` outside its own parentheses, or of the next brace, or the number of tokens. -/
def expressionEnd (c : Cursor) (index : Nat) : Nat := c.ends[index]?.getD c.tokens.size

end Cursor

end BraceLang
