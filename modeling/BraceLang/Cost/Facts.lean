import BraceLang.Program.Basic

/-!
# `Cost.Facts` — what an estimate is based on

The estimate looks at the form of the whole program only: how many loops there are and how deep
they are nested, how many variables are declared and which of them are arrays, and which functions
call themselves.

## Contents
- `Code.loopCount`, `Code.loopDepth`, `Code.simples`, the facts about the code of a block.
- `Facts` and `Facts.ofProgram`.
-/

namespace BraceLang

namespace Code

/-- The number of loops in the code, at any depth. -/
def loopCount : Code → Nat
  | done => 0
  | skip _ rest | simple _ rest => rest.loopCount
  | loop _ _ body _ rest => 1 + body.loopCount + rest.loopCount
  | ifThen _ body _ rest => body.loopCount + rest.loopCount
  | ifThenElse _ body _ _ other _ rest => body.loopCount + other.loopCount + rest.loopCount

/-- The greatest number of loops around one another. -/
def loopDepth : Code → Nat
  | done => 0
  | skip _ rest | simple _ rest => rest.loopDepth
  | loop _ _ body _ rest => max (1 + body.loopDepth) rest.loopDepth
  | ifThen _ body _ rest => max body.loopDepth rest.loopDepth
  | ifThenElse _ body _ _ other _ rest =>
    max (max body.loopDepth other.loopDepth) rest.loopDepth

/-- The statements without a block in the code, at any depth, in source order. -/
def simples : Code → List Simple
  | done => []
  | skip _ rest => rest.simples
  | simple s rest => s :: rest.simples
  | loop _ _ body _ rest | ifThen _ body _ rest => body.simples ++ rest.simples
  | ifThenElse _ body _ _ other _ rest => body.simples ++ (other.simples ++ rest.simples)

end Code

namespace Simple

/-- The name and the type of the variable that a statement declares. -/
def declared? : Simple → Option (String × String)
  | .declaration type name suffix _ _ => some (name.text, typeText type suffix)
  | _ => none

/-- The name of the function that a statement calls. A call inside of an expression is not seen. -/
def callee? : Simple → Option String
  | .call name .. => some name.text
  | _ => none

end Simple

namespace Function

/-- The statements without a block in the body of a function. -/
def simples (f : Function) : List Simple :=
  match f.body with
  | some b => b.code.simples
  | none => []

/-- Whether some statement of the body is a call of the function itself. -/
def callsItself (f : Function) : Bool :=
  f.simples.any fun s => s.callee? == some f.name.text

end Function

namespace Cost

/-- What an estimate is based on. `arrays` holds the name and the type of each array, and
    `recursive` the name of each function that calls itself. -/
structure Facts where
  loopCount : Nat
  loopDepth : Nat
  declarationCount : Nat
  arrays : List (String × String)
  recursive : List String
  deriving DecidableEq, Repr

namespace Facts

/-- Whether there is a loop. -/
def hasLoops (f : Facts) : Bool := 0 < f.loopCount

/-- Whether there is a loop in a loop. -/
def hasNestedLoops (f : Facts) : Bool := 2 ≤ f.loopDepth

/-- Whether there is an array. -/
def hasArrays (f : Facts) : Bool := !f.arrays.isEmpty

/-- Whether a type is written with brackets. -/
def isArrayType (type : String) : Bool := type.contains '[' || type.contains ']'

/-- The facts about a program: those of its functions, taken together. -/
def ofProgram (p : Program) : Facts :=
  let bodies := p.functions.filterMap fun f => f.body.map Block.code
  let declared := (p.functions.flatMap Function.simples).filterMap Simple.declared?
  { loopCount := (bodies.map Code.loopCount).foldl (· + ·) 0
    loopDepth := (bodies.map Code.loopDepth).foldl max 0
    declarationCount := declared.length
    arrays := declared.filter fun (_, type) => isArrayType type
    recursive := (p.functions.filter Function.callsItself).map (·.name.text) }

end Facts

end Cost

end BraceLang
