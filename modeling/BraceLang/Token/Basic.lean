import BraceLang.Text.Position
import BraceLang.Token.Keyword

/-!
# `Token` — the words of a source text

A token is a piece of text with its kind and its place. Tokens usually come from the lexer, but
nothing here relies on that: a token may bear any text, position and span.

## Contents
- `Token.Kind` and `Token`, with the written form and `Token.endPosition`.
- The tests by which a reader tells tokens apart: `hasText`, `isPunct`, `isKeyword`, `isBrace`,
  `isTypeName`, `isArgument`.
-/

namespace BraceLang

/-- What a token is. -/
inductive Token.Kind
  /-- A reserved word. -/
  | keyword
  /-- A name that is not reserved. -/
  | identifier
  /-- A quoted text, with its quotes. -/
  | string
  /-- A number, with or without a fraction and an exponent. -/
  | number
  | operator
  /-- One of `;` `,` and the brackets. -/
  | punctuation
  /-- A single character that begins no lexeme. -/
  | error
  deriving DecidableEq, Repr, Inhabited

namespace Token.Kind

/-- Every kind, in the order of their documentation. -/
def all : List Token.Kind :=
  [.keyword, .identifier, .string, .number, .operator, .punctuation, .error]

/-- The displayed name of a kind. -/
def name : Token.Kind → String
  | .keyword => "KEYWORD"
  | .identifier => "IDENTIFIER"
  | .string => "STRING"
  | .number => "NUMBER"
  | .operator => "OPERATOR"
  | .punctuation => "PUNCTUATION"
  | .error => "ERROR"

/-- Whether a token of this kind may stand as an argument of a call. -/
def isArgument : Token.Kind → Bool
  | .string | .number | .identifier => true
  | _ => false

end Token.Kind

/-- A piece of source text: its `kind`, its `text`, the `position` of its first character and the
    `span` of its bytes. -/
structure Token where
  kind : Token.Kind
  text : String
  position : Position
  span : Span
  deriving DecidableEq, Repr, Inhabited

namespace Token

/-- The written form is `KIND 'text' at line:column`. -/
instance : ToString Token :=
  ⟨fun t => t.kind.name ++ " '" ++ t.text ++ "' at " ++ toString t.position⟩

/-- The position of the last character. Only a quoted text can hold line feeds, and then its last
    character may stand on a later line than its first. An empty text ends where it starts. -/
def endPosition (t : Token) : Position :=
  t.position.ofLast t.text.toList

/-- Whether the token is of this kind and has this text. -/
def hasText (t : Token) (kind : Kind) (text : String) : Bool :=
  t.kind == kind && t.text == text

/-- Whether the token is the punctuation `text`. -/
def isPunct (t : Token) (text : String) : Bool := t.hasText .punctuation text

/-- Whether the token is the keyword `text`. -/
def isKeyword (t : Token) (text : String) : Bool := t.hasText .keyword text

/-- Whether the token opens or closes a block. -/
def isBrace (t : Token) : Bool := t.isPunct "\x7b" || t.isPunct "\x7d"

/-- Whether the token is a keyword that names a type. -/
def isTypeName (t : Token) : Bool := t.kind == .keyword && Keyword.isTypeName t.text

/-- Whether the token may stand as an argument of a call. -/
def isArgument (t : Token) : Bool := t.kind.isArgument

end Token

end BraceLang
