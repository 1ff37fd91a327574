/-!
# `Config` — what a caller may choose about a compilation
-/

namespace BraceLang

/-- The choices of a compilation. With the defaults, a declaration in a nested block counts in
    every block around it, nothing is looked up, so that every variable is reported as unused, and
    the control-flow graph chains each block. -/
structure Config where
  /-- The function whose control-flow graph is built. -/
  entryFunction : String := "main"
  /-- Look up the names that are read or assigned, and report only what none of them means. -/
  trackUsage : Bool := false
  /-- Count a declaration in its own block only. -/
  isolateScopes : Bool := false
  /-- Report each character that begins no lexeme. -/
  reportLexicalErrors : Bool := false
  /-- Lead branches and loop bodies back into the code around them. -/
  joinControlFlow : Bool := false
  /-- The number of blocks that may stand around one another. -/
  maxNestingDepth : Nat := 256
  /-- The number of variables up to which the space estimate stays constant. -/
  manyVariablesThreshold : Nat := 10
  deriving DecidableEq, Repr

instance : Inhabited Config := ⟨{}⟩

end BraceLang
