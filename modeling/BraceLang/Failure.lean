import BraceLang.Text.Position

/-!
# `Failure` — why an operation ends without a result

A failure says that the front end cannot represent something. It is no finding about the program
that is read: such findings are diagnostics.

## Contents
- `NestingTooDeep`, the one failure that reading a program can end in.
- `Failure`, all of them, with `message`, `code` and `help?`.
-/

namespace BraceLang

/-- A block was opened at `position` as the `depth`-th around itself, one more than the `limit`
    that the caller has set. -/
structure NestingTooDeep where
  depth : Nat
  limit : Nat
  position : Position
  deriving DecidableEq, Repr

/-- The reasons for which an operation has no result. -/
inductive Failure
  | nestingTooDeep (cause : NestingTooDeep)
  /-- No node of the tree bears the number `id`. -/
  | invalidNode (id : Nat)
  /-- A stage of the compilation broke off. -/
  | stageAborted (stage detail : String)
  deriving DecidableEq, Repr

namespace Failure

/-- The text that a user reads. -/
def message : Failure → String
  | .nestingTooDeep cause =>
    "block nesting depth " ++ toString cause.depth ++ " exceeds the limit of " ++
      toString cause.limit ++ " at line " ++ toString cause.position.line ++ ", column " ++
      toString cause.position.column
  | .invalidNode id => "syntax node #" ++ toString id ++ " does not exist"
  | .stageAborted stage detail => stage ++ " stage panicked: " ++ detail

/-- The short name under which the failure is documented. -/
def code : Failure → String
  | .nestingTooDeep _ => "E9001"
  | .invalidNode _ => "E9002"
  | .stageAborted .. => "E9003"

/-- What the user can do about it, where there is something to do. -/
def help? : Failure → Option String
  | .nestingTooDeep _ => some "flatten the innermost blocks or raise `max_nesting_depth`"
  | _ => none

end Failure

end BraceLang
