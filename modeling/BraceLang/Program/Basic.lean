import BraceLang.Program.Code

/-!
# `Program` — functions and what stands between them

A program is a row of functions, each with its parameters and its body. As in `Code`, the tokens
that belong to nothing stay where they are, so the tokens of a program are the whole source.

## Contents
- `ParameterItem` and `ParameterList`; `Block`, a pair of braces with its code; `Function`;
  `Program`.
- For each of them its tokens, and its last token where another module needs it.
-/

namespace BraceLang

/-- A part of a parameter list: a parameter, or a token that belongs to none. -/
inductive ParameterItem
  | parameter (type name : Token)
  | skipped (token : Token)
  deriving DecidableEq, Repr

/-- The tokens of a part of a parameter list. -/
def ParameterItem.tokens : ParameterItem → List Token
  | parameter type name => [type, name]
  | skipped t => [t]

/-- The parameters of a function between their parentheses. A list that the source does not close
    has no closing parenthesis. -/
structure ParameterList where
  opening : Token
  items : List ParameterItem
  closing : Option Token
  deriving DecidableEq, Repr

namespace ParameterList

/-- The tokens of a parameter list, from left to right. -/
def tokens (p : ParameterList) : List Token :=
  p.opening :: (p.items.flatMap ParameterItem.tokens ++ p.closing.toList)

/-- The last token of a parameter list. -/
def last (p : ParameterList) : Token :=
  (p.closing <|> (p.items.getLast?.bind fun i => i.tokens.getLast?)).getD p.opening

end ParameterList

/-- A pair of braces with the code between them. A block that the source does not close has no
    closing brace. -/
structure Block where
  brace : Token
  code : Code
  closing : Option Token
  deriving DecidableEq, Repr

namespace Block

/-- The tokens of a block, from left to right. -/
def tokens (b : Block) : List Token := b.brace :: (b.code.tokens ++ b.closing.toList)

/-- The last token of a block. -/
def last (b : Block) : Token := blockLast b.brace b.code b.closing

end Block

/-- A function: its return type, its name and its parameters, and then either a body or, after
    which it is a mere announcement, possibly a semicolon. -/
structure Function where
  type : Token
  name : Token
  parameters : ParameterList
  body : Option Block
  semicolon : Option Token
  deriving DecidableEq, Repr

namespace Function

/-- The tokens of a function, from left to right. -/
def tokens (f : Function) : List Token :=
  f.type :: f.name :: (f.parameters.tokens ++
    ((f.body.map Block.tokens).getD [] ++ f.semicolon.toList))

/-- The last token of a function. -/
def last (f : Function) : Token :=
  (f.semicolon <|> f.body.map Block.last).getD f.parameters.last

end Function

/-- A part of a program: a function, or a token outside of all functions. -/
inductive ProgramItem
  | function (f : Function)
  | skipped (token : Token)
  deriving DecidableEq, Repr

namespace ProgramItem

/-- The tokens of a part of a program. -/
def tokens : ProgramItem → List Token
  | function f => f.tokens
  | skipped t => [t]

/-- The last token of a part of a program. -/
def last : ProgramItem → Token
  | function f => f.last
  | skipped t => t

end ProgramItem

/-- A program, from its first token to its last. -/
structure Program where
  items : List ProgramItem
  deriving DecidableEq, Repr, Inhabited

namespace Program

/-- The tokens of a program, from left to right. -/
def tokens (p : Program) : List Token := p.items.flatMap ProgramItem.tokens

/-- The last token of a program. -/
def last? (p : Program) : Option Token := p.items.getLast?.map ProgramItem.last

/-- The functions of a program, in source order. -/
def functions (p : Program) : List Function :=
  p.items.filterMap fun
    | .function f => some f
    | .skipped _ => none

end Program

end BraceLang
