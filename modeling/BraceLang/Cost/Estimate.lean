import BraceLang.Cost.Class
import BraceLang.Cost.Facts
import BraceLang.Flow.Graph

/-!
# `Cost.Estimate` — a guess at the time and the space that a program takes

The estimate is a plausible signal and no bound: loops are taken to run as often as the input is
long, and nesting deeper than two is not told from nesting of two. Time depends on the loops and
space on the arrays and the number of variables; the graph of the entry function and the recursive
functions only add to the explanation.
-/

namespace BraceLang.Cost

/-- A class with the reasons for it. -/
structure Verdict where
  cls : Class
  reasons : List String
  deriving DecidableEq, Repr

/-- A hint about how the program could take less. -/
structure Hint where
  title : String
  description : String
  deriving DecidableEq, Repr

/-- The estimate for a program. -/
structure Estimate where
  time : Verdict
  space : Verdict
  hints : List Hint
  deriving DecidableEq, Repr

namespace Facts

/-- The class of the running time. -/
def timeClass (f : Facts) : Class :=
  if f.hasNestedLoops then .quadratic else if f.hasLoops then .linear else .constant

/-- The class of the space, when more than `threshold` variables count as many. -/
def spaceClass (f : Facts) (threshold : Nat) : Class :=
  if f.hasArrays then .linear
  else if threshold < f.declarationCount then .logarithmic
  else .constant

/-- What the loops contribute to the reasons for the running time. -/
def loopReasons (f : Facts) : List String :=
  if f.hasNestedLoops then
    ["Nested loops detected (maximum depth " ++ toString f.loopDepth ++ ")",
     toString f.loopCount ++ " loop(s) in total"]
  else if f.hasLoops then [toString f.loopCount ++ " loop(s) without nesting"]
  else ["No loops: every statement runs a bounded number of times"]

/-- What the graph of the entry function contributes to the reasons for the running time. -/
def decisionReasons (graph : Flow.Graph) : List String :=
  if graph.decisionCount = 0 then []
  else [toString graph.decisionCount ++ " decision point(s) in '" ++ graph.function ++ "'"]

/-- The running time and the reasons for its class. -/
def time (f : Facts) (graph : Flow.Graph) : Verdict :=
  ⟨f.timeClass, f.loopReasons ++ decisionReasons graph ++
    f.recursive.map fun name => "Function '" ++ name ++ "' calls itself"⟩

/-- The space and the reasons for its class. -/
def space (f : Facts) (threshold : Nat) : Verdict :=
  ⟨f.spaceClass threshold,
    if f.hasArrays then
      f.arrays.map fun (name, type) => "Array '" ++ name ++ "' declared with type '" ++ type ++ "'"
    else if threshold < f.declarationCount then
      [toString f.declarationCount ++ " variable declarations exceed the threshold of " ++
        toString threshold]
    else [toString f.declarationCount ++ " scalar variable declaration(s)"]⟩

/-- The hints that the facts give rise to: at most one about loops, one about variables and one
    about recursion. -/
def hints (f : Facts) (threshold : Nat) : List Hint :=
  (if f.hasNestedLoops then
    [⟨"Reduce nested loops",
      "Nested iteration grows quadratically with input size. Consider a lookup table " ++
      "or restructuring the inner loop so each element is visited once."⟩]
  else if f.hasLoops then
    [⟨"Hoist loop-invariant work",
      "Move computations that do not change between iterations out of the loop body."⟩]
  else []) ++
  (if f.hasArrays then
    [⟨"Review array sizes",
      "Array storage grows with its declared size. Reuse buffers where possible " ++
      "instead of declaring new arrays."⟩]
  else if threshold < f.declarationCount then
    [⟨"Group related variables",
      "Many separate variables are hard to track. Group related values into an array " ++
      "or a structure."⟩]
  else []) ++
  (if f.recursive.isEmpty then []
  else
    [⟨"Consider memoization",
      "Recursive calls that repeat the same arguments can cache their results."⟩])

/-- The estimate that the facts about a program and the graph of its entry function lead to. -/
def estimate (f : Facts) (graph : Flow.Graph) (threshold : Nat) : Estimate :=
  ⟨f.time graph, f.space threshold, f.hints threshold⟩

end Facts

/-- The estimate for a program and the graph of its entry function. Without either there is
    none. -/
def estimate? (program : Option Program) (graph : Option Flow.Graph) (threshold : Nat) :
    Option Estimate := do
  return (Facts.ofProgram (← program)).estimate (← graph) threshold

end BraceLang.Cost
