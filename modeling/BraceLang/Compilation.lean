import BraceLang.Config
import BraceLang.Cost.Estimate
import BraceLang.Cost.TreeFacts
import BraceLang.Diagnostic.Report
import BraceLang.Flow.Builder
import BraceLang.Program.Reader
import BraceLang.Scope.TreeScopes
import BraceLang.Token.Lexer

/-!
# `Compilation` — everything that is found out about a source text

A compilation runs all analyses over one source text. It always has a result: if one of its stages
fails, the result holds nothing but the finding that says so.
-/

namespace BraceLang

/-- The result of a compilation. -/
structure Compilation where
  /-- Every token of the source. -/
  tokens : List Token
  /-- The syntax tree. -/
  tree : Option Tree
  /-- The scopes of each function with a body. -/
  scopes : Scopes
  /-- The control-flow graph of the entry function, if the program has that function. -/
  graph : Option Flow.Graph
  /-- The estimate, if there is a graph. -/
  estimate : Option Cost.Estimate
  diagnostics : List Diagnostic
  deriving Repr

namespace Compilation

/-- The result that stands for a failure: the finding that reports it, and nothing else. -/
def fatal (failure : Failure) : Compilation :=
  ⟨[], none, .nil, none, none, [Diagnostic.fatal failure.message]⟩

/-- Whether the result stands for a failure. -/
def isFatal (c : Compilation) : Bool :=
  c.tree.isNone && c.diagnostics.any fun d => d.code == some Diagnostic.fatalCode

/-- Whether some finding makes the source wrong. -/
def hasErrors (c : Compilation) : Bool := c.diagnostics.any Diagnostic.isError

/-- The findings that leave the source usable. -/
def warnings (c : Compilation) : List Diagnostic := c.diagnostics.filter fun d => !d.isError

/-- The findings as reports over a text, which need not be the one that was compiled. -/
def reports (c : Compilation) (source : String) : List Report :=
  c.diagnostics.map (Report.ofDiagnostic ⟨source, none⟩)

end Compilation

/-- The result of the analyses of a syntax tree that was read from a scan. -/
def Tree.analyse (config : Config) (scan : Scan) (t : Tree) : Except Failure Compilation := do
  let scopes ← t.scopes config
  let graph ← t.graph? (.ofJoins config.joinControlFlow) config.entryFunction
  return {
    tokens := scan.tokens
    tree := some t
    scopes
    graph
    estimate := graph.map fun g => t.facts.estimate g config.manyVariablesThreshold
    diagnostics :=
      (if config.reportLexicalErrors then scan.diagnostics else []) ++ scopes.findings }

/-- The stages of a compilation, of which each one may end it: the text is cut into tokens, these
    are read as a program, and the syntax tree of the program is analysed. -/
def runStages (config : Config) (source : String) : Except Failure Compilation := do
  let scan := tokenize source
  let p ← (Program.read config.maxNestingDepth scan.tokens).mapError Failure.nestingTooDeep
  p.tree.analyse config scan

/-- The compilation of a source text. -/
def compile (config : Config) (source : String) : Compilation :=
  match runStages config source with
  | .ok c => c
  | .error failure => .fatal failure

end BraceLang
