import BraceLang.Compilation
import BraceLang.Proofs.Cost.TreeFacts
import BraceLang.Proofs.Flow.TreeGraph
import BraceLang.Proofs.Forest
import BraceLang.Proofs.Scope.TreeScopes
import Mathlib.Data.List.Basic

/-!
# `Proofs.Compilation` — the outcome of a compilation

Only the nesting limit can end a compilation early. In the tree of a program that was read, every
number that a node lists is the number of a node, so no later stage fails, and each of them gives
what can be read off the program.

## Contents
- `Program.analyse`, what a compilation finds out about a program, and `compile_eq_analyse`.
- `Compilation.Failed` and `Compilation.Complete`, the two outcomes.
- **`compile_failed_or_complete`**.
-/

namespace BraceLang

/-! ## A compilation in terms of the program -/

/-- What a compilation finds out about a program that was read from a scan. -/
def Program.analyse (config : Config) (scan : Scan) (p : Program) : Compilation :=
  let graph := p.graph? (.ofJoins config.joinControlFlow) config.entryFunction
  { tokens := scan.tokens
    tree := some p.tree
    scopes := p.scopes config
    graph
    estimate := graph.map fun g =>
      (Cost.Facts.ofProgram p).estimate g config.manyVariablesThreshold
    diagnostics :=
      (if config.reportLexicalErrors then scan.diagnostics else []) ++
        (p.scopes config).diagnostics }

variable {config : Config} {source : String} {p : Program} {cause : NestingTooDeep}

/-- **No analysis of a tree that was read fails.** -/
theorem Program.analyse_tree {limit : Nat} {tokens : List Token}
    (h : Program.read limit tokens = .ok p) (config : Config) (scan : Scan) :
    p.tree.analyse config scan = .ok (p.analyse config scan) := by
  rw [Tree.analyse, p.scopes_tree, Program.graph?_tree h, p.facts_tree, Program.analyse,
    ← Scopes.findings_eq]
  rfl

theorem compile_eq_analyse
    (h : Program.read config.maxNestingDepth (tokenize source).tokens = .ok p) :
    compile config source = p.analyse config (tokenize source) := by
  have hstages : runStages config source = p.tree.analyse config (tokenize source) := by
    rw [runStages, h]
    rfl
  rw [compile, hstages, Program.analyse_tree h]

theorem compile_eq_fatal
    (h : Program.read config.maxNestingDepth (tokenize source).tokens = .error cause) :
    compile config source = .fatal (.nestingTooDeep cause) := by
  have hstages : runStages config source = .error (.nestingTooDeep cause) := by
    rw [runStages, h]
    rfl
  rw [compile, hstages]

/-! ## The two outcomes -/

/-- What a scope says about its block, apart from the variables. -/
def Scope.head (s : Scope) : Scope.Kind × String × Nat × Nat :=
  (s.kind, s.name, s.startLine, s.endLine)

/-- The functions of a tree that have a body, each with its body, in source order. -/
def Tree.definitions (t : Tree) : List (Tree.Node × Tree.Node) :=
  t.functions.filterMap fun d => (t.childOfKind? d.id .functionBody).map fun body => (d, body)

namespace Compilation

/-- The compilation has nothing but one finding, which tells why there is no more. -/
structure Failed (c : Compilation) (cause : NestingTooDeep) : Prop where
  isFatal : c.isFatal = true
  tokens : c.tokens = []
  tree : c.tree = none
  scopes : c.scopes = .nil
  graph : c.graph = none
  estimate : c.estimate = none
  diagnostics : ∃ d, c.diagnostics = [d] ∧ d.code = some "E9999" ∧ d.severity = .error ∧
    d.position = ⟨1, 1⟩ ∧ d.message = "Fatal error: " ++ (Failure.nestingTooDeep cause).message

/-- The compilation has all results that a scan with the tree `t` can have. -/
structure Complete (c : Compilation) (config : Config) (scan : Scan) (t : Tree) : Prop where
  not_isFatal : c.isFatal = false
  tokens : c.tokens = scan.tokens
  tree : c.tree = some t
  /-- The scopes at the top are those of the functions with a body. -/
  scopes : c.scopes.roots.map Scope.head =
    t.definitions.map fun (d, body) =>
      (.function, d.label.text, body.label.start.line, body.label.stop.line)
  graph : c.graph.isSome ↔ ∃ d ∈ t.functions, d.label.text = config.entryFunction
  estimate : c.estimate.isSome ↔ c.graph.isSome
  hasErrors : c.hasErrors ↔ config.reportLexicalErrors ∧ ∃ x ∈ scan.tokens, x.kind = .error

theorem failed_fatal (cause : NestingTooDeep) : (fatal (.nestingTooDeep cause)).Failed cause where
  isFatal := rfl
  tokens := rfl
  tree := rfl
  scopes := rfl
  graph := rfl
  estimate := rfl
  diagnostics := ⟨_, rfl, rfl, rfl, rfl, rfl⟩

end Compilation

/-- The findings of a scan make the source wrong, if there are any. -/
theorem Scan.any_isError_diagnostics (scan : Scan) :
    scan.diagnostics.any Diagnostic.isError = true ↔ ∃ x ∈ scan.tokens, x.kind = .error := by
  rw [List.any_eq_true]
  constructor
  · rintro ⟨d, hd, -⟩
    obtain ⟨x, hx, -⟩ := List.mem_map.mp hd
    obtain ⟨hmem, hkind⟩ := List.mem_filter.mp hx
    exact ⟨x, hmem, eq_of_beq hkind⟩
  · rintro ⟨x, hx, hkind⟩
    exact ⟨_, List.mem_map_of_mem (List.mem_filter.mpr ⟨hx, beq_iff_eq.mpr hkind⟩), rfl⟩

/-- No finding about a variable makes the source wrong. -/
theorem Scopes.any_isError_diagnostics (scopes : Scopes) :
    scopes.diagnostics.any Diagnostic.isError = false := by
  rw [List.any_eq_false]
  intro d hd
  obtain ⟨s, -, hs⟩ := List.mem_flatMap.mp hd
  obtain ⟨v, -, rfl⟩ := List.mem_map.mp hs
  exact Bool.false_ne_true

/-- Settling which variables are used changes nothing else about a scope. -/
theorem Scopes.map_head_settle (config : Config) (scopes : Scopes) :
    (scopes.settle config).roots.map Scope.head = scopes.roots.map Scope.head := by
  rw [settle]
  split
  · rw [shareUsage, Forest.roots_map, List.map_map]
    rfl
  · rfl

/-- The scopes of a function have one tree if it has a body. -/
theorem Function.map_head_scopes (config : Config) (f : Function) :
    (f.scopes config).roots.map Scope.head = (f.body.map fun b =>
      (Scope.Kind.function, f.name.text, b.brace.position.line, b.last.endPosition.line)).toList := by
  rw [scopes]
  cases f.body with
  | none => rfl
  | some b =>
    dsimp only
    rw [Scopes.map_head_settle, Scope.ofBlock, Scope.above]
    split <;> rfl

namespace Program

/-- The scopes at the top are those of the functions with a body. -/
theorem map_head_scopes (config : Config) (p : Program) :
    (p.scopes config).roots.map Scope.head = p.functions.filterMap fun f => f.body.map fun b =>
      (Scope.Kind.function, f.name.text, b.brace.position.line, b.last.endPosition.line) := by
  rw [scopes]
  induction p.functions with
  | nil => rfl
  | cons f fs ih =>
    rw [List.foldr_cons, Forest.roots_append, List.map_append, ih, f.map_head_scopes]
    rw [List.filterMap_cons]
    cases f.body <;> rfl

/-- The functions with a body that the tree has are those that the program has. -/
theorem definitions_tree (p : Program) :
    (p.tree.definitions.map fun (d, body) => (Scope.Kind.function, d.label.text,
      body.label.start.line, body.label.stop.line)) = p.functions.filterMap fun f =>
        f.body.map fun b =>
          (Scope.Kind.function, f.name.text, b.brace.position.line, b.last.endPosition.line) := by
  rw [Tree.definitions, p.functions_tree, List.filterMap_map, List.map_filterMap,
    ← p.map_snd_numberedFunctions, List.filterMap_map]
  apply List.filterMap_congr
  intro x hx
  show ((p.tree.childOfKind? x.1 .functionBody).map _).map _ = _
  rw [p.childOfKind?_functionBody hx, Function.bodyNode?, Option.map_map, Option.map_map]
  rfl

/-- There is a graph if and only if a function has the name. -/
theorem isSome_graph? (layout : Flow.Layout) (p : Program) (name : String) :
    (p.graph? layout name).isSome ↔ ∃ d ∈ p.tree.functions, d.label.text = name := by
  rw [graph?, Option.isSome_map, p.functions_tree]
  constructor
  · intro h
    obtain ⟨⟨id, f⟩, hfunction⟩ := Option.isSome_iff_exists.mp h
    obtain ⟨hmem, hname⟩ := of_function?_eq_some hfunction
    exact ⟨_, List.mem_map_of_mem hmem, hname⟩
  · rintro ⟨d, hd, hname⟩
    obtain ⟨x, hmem, rfl⟩ := List.mem_map.mp hd
    rw [Option.isSome_iff_ne_none]
    exact fun hnone => ne_of_function?_eq_none hnone x hmem hname

theorem complete_analyse (config : Config) (scan : Scan) (p : Program) :
    (p.analyse config scan).Complete config scan p.tree where
  not_isFatal := rfl
  tokens := rfl
  tree := rfl
  scopes := (p.map_head_scopes config).trans p.definitions_tree.symm
  graph := p.isSome_graph? _ _
  estimate := by
    rw [analyse]
    dsimp only
    rw [Option.isSome_map]
  hasErrors := by
    rw [Compilation.hasErrors, analyse, List.any_append, Scopes.any_isError_diagnostics,
      Bool.or_false]
    cases config.reportLexicalErrors
    · exact ⟨nofun, nofun⟩
    · exact scan.any_isError_diagnostics.trans ⟨fun h => ⟨rfl, h⟩, And.right⟩

end Program

/-- **A compilation has all its results, or it has failed at the nesting limit and has none.** Neither
the scopes nor a graph can fail on a tree that was read. -/
theorem compile_failed_or_complete (config : Config) (source : String) :
    ((∃ cause, Program.read config.maxNestingDepth (tokenize source).tokens = .error cause ∧
        (compile config source).Failed cause) ∨
      ∃ p, Program.read config.maxNestingDepth (tokenize source).tokens = .ok p ∧
        (compile config source).Complete config (tokenize source) p.tree) ∧
    ∀ limit tokens p, Program.read limit tokens = .ok p →
      (∀ config, ∃ scopes, p.tree.scopes config = .ok scopes) ∧
      ∀ layout name, ∃ graph, p.tree.graph? layout name = .ok graph := by
  constructor
  · cases hread : Program.read config.maxNestingDepth (tokenize source).tokens with
    | error cause =>
      rw [compile_eq_fatal hread]
      exact .inl ⟨cause, rfl, Compilation.failed_fatal cause⟩
    | ok p =>
      rw [compile_eq_analyse hread]
      exact .inr ⟨p, rfl, p.complete_analyse config _⟩
  · intro limit tokens p hread
    exact ⟨fun config => ⟨_, p.scopes_tree config⟩,
      fun layout name => ⟨_, Program.graph?_tree hread layout name⟩⟩

end BraceLang
