import BraceLang.Token.Basic

/-!
# `Program.Statement` — statements without blocks, and the headers of those with blocks

A statement keeps every token that it is written with, so nothing about its place in the source is
lost, and its tokens put together are the text that it was read from.

## Contents
- `Simple`: declarations, calls, returns and assignments, with `Simple.tokens`.
- `Header`: a keyword, a condition in parentheses and the brace that opens the block.
-/

namespace BraceLang

/-- The `=` of a declaration and the tokens of the expression behind it. -/
structure Initializer where
  sign : Token
  value : List Token
  deriving DecidableEq, Repr

/-- The tokens of an initializer. -/
def Initializer.tokens (i : Initializer) : List Token := i.sign :: i.value

/-- A statement that holds no block. Conditions, expressions and the brackets of an array are kept
    as the tokens they are written with. -/
inductive Simple
  /-- `type name suffix = value ;`, where the suffix is either empty or the brackets of an array,
      and the initializer may be missing. -/
  | declaration (type name : Token) (suffix : List Token) (initializer : Option Initializer)
      (semicolon : Token)
  /-- `name ( arguments ) ;`, where the commas belong to the arguments. -/
  | call (name opening : Token) (arguments : List Token) (closing semicolon : Token)
  /-- `return value ;`, where the value may be empty. -/
  | ret (keyword : Token) (value : List Token) (semicolon : Token)
  /-- `target operator value ;`. -/
  | assignment (target operator : Token) (value : List Token) (semicolon : Token)
  deriving DecidableEq, Repr

namespace Simple

/-- The tokens of a statement, from left to right. -/
def tokens : Simple → List Token
  | .declaration type name suffix initializer semicolon =>
    type :: name :: (suffix ++ ((initializer.map Initializer.tokens).getD [] ++ [semicolon]))
  | .call name opening arguments closing semicolon =>
    name :: opening :: (arguments ++ [closing, semicolon])
  | .ret keyword value semicolon => keyword :: (value ++ [semicolon])
  | .assignment target operator value semicolon => target :: operator :: (value ++ [semicolon])

/-- The first token of a statement. -/
def first : Simple → Token
  | .declaration type .. => type
  | .call name .. => name
  | .ret keyword .. => keyword
  | .assignment target .. => target

/-- The last token of a statement, which is its semicolon. -/
def last : Simple → Token
  | .declaration _ _ _ _ semicolon => semicolon
  | .call _ _ _ _ semicolon => semicolon
  | .ret _ _ semicolon => semicolon
  | .assignment _ _ _ semicolon => semicolon

theorem head?_tokens (s : Simple) : s.tokens.head? = some s.first := by
  cases s <;> rfl

theorem getLast?_tokens (s : Simple) : s.tokens.getLast? = some s.last := by
  cases s <;> simp [tokens, last, List.getLast?_cons, List.getLast?_append]

theorem length_lt_of_append (x : Simple) {s rest : List Token} (h : x.tokens ++ rest = s) :
    rest.length < s.length := by
  subst h
  cases x <;> simp [tokens] <;> omega

/-- The declared type as it is written, with the brackets of an array. -/
def typeText (type : Token) (suffix : List Token) : String :=
  suffix.foldl (fun text t => text ++ t.text) type.text

/-- The arguments among the tokens between the parentheses of a call. -/
def argumentTokens (arguments : List Token) : List Token := arguments.filter Token.isArgument

end Simple

/-- The two kinds of loop. -/
inductive LoopKind
  | forLoop
  | whileLoop
  deriving DecidableEq, Repr

/-- The keyword of a loop. -/
def LoopKind.keyword : LoopKind → String
  | .forLoop => "for"
  | .whileLoop => "while"

/-- What a header introduces. -/
inductive HeaderKind
  | conditional
  | loop (kind : LoopKind)
  deriving DecidableEq, Repr

namespace HeaderKind

/-- Every kind of header. -/
def all : List HeaderKind := [.conditional, .loop .forLoop, .loop .whileLoop]

/-- The keyword of a header. -/
def keyword : HeaderKind → String
  | .conditional => "if"
  | .loop kind => kind.keyword

end HeaderKind

/-- `keyword ( condition ) {`, the start of a statement with a block. -/
structure Header where
  keyword : Token
  opening : Token
  condition : List Token
  closing : Token
  brace : Token
  deriving DecidableEq, Repr

/-- The tokens of a header, from left to right. -/
def Header.tokens (h : Header) : List Token :=
  h.keyword :: h.opening :: (h.condition ++ [h.closing, h.brace])

theorem Header.length_lt_of_append (h : Header) {s rest : List Token}
    (hs : h.tokens ++ rest = s) : rest.length < s.length := by
  subst hs
  simp [tokens]
  omega

end BraceLang
