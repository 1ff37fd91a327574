import BraceLang.Cost.Facts
import BraceLang.Flow.Layout
import BraceLang.Proofs.Layout.Outline
import Mathlib.Data.List.Basic

/-!
# `Proofs.Layout.Analyses` — graphs and facts of a relocated program

The graph of a function and the facts behind an estimate are read off the words of a program and off
the way it is built up. A relocation changes neither, so it changes nothing about them.

## Contents
- `stations_code`, `edges_code` and `graph_function`, and from them **`graph?_program`**.
- **`facts_program`**.
-/

namespace BraceLang

open Outline

namespace Relocation

variable (r : Relocation)

/-! ## Statements and their texts -/

theorem isEmpty_code (c : Code) : (r.code c).isEmpty = c.isEmpty := by
  induction c with
  | skip t rest ih => exact ih
  | _ => rfl

theorem statementCount_code (c : Code) : (r.code c).statementCount = c.statementCount := by
  induction c with
  | done => rfl
  | _ => simp only [code, Code.statementCount, *]

theorem joinTexts_tokens (run : List Token) : joinTexts (r.tokens run) = joinTexts run := by
  rw [joinTexts, texts_tokens]
  rfl

theorem isReturn_simple (x : Simple) : (r.simple x).isReturn = x.isReturn := by
  cases x <;> rfl

theorem station_simple (x : Simple) (id : Nat) : (r.simple x).station id = x.station id := by
  cases x with
  | declaration type name suffix initializer semicolon =>
    cases initializer with
    | none =>
      simp only [simple, Simple.station, Simple.flowLabel, typeText_tokens, Option.map_none]
      rfl
    | some i =>
      have hvalue : joinTexts (r.initializer i).value = joinTexts i.value :=
        r.joinTexts_tokens i.value
      simp only [simple, Simple.station, Simple.flowLabel, typeText_tokens, Option.map_some, hvalue]
      rfl
  | call name opening arguments closing semicolon =>
    rw [simple, Simple.station, Simple.flowLabel, argumentTokens_tokens, texts_tokens]
    rfl
  | ret keyword value semicolon =>
    rw [simple, Simple.station, Simple.flowLabel, joinTexts_tokens, tokens, List.isEmpty_map]
    rfl
  | assignment target operator value semicolon =>
    rw [simple, Simple.station, Simple.flowLabel, joinTexts_tokens]
    rfl

theorem station_header (h : Header) (kind : Flow.Kind) (keyword : String) (id : Nat) :
    (r.header h).station kind keyword id = h.station kind keyword id := by
  rw [Header.station, header, joinTexts_tokens]
  rfl

theorem length_condition (h : Header) : (r.header h).condition.length = h.condition.length :=
  List.length_map _

theorem stations_code (c : Code) (id : Nat) : (r.code c).stations id = c.stations id := by
  induction c generalizing id with
  | done => rfl
  | skip t rest ih => exact ih id
  | simple x rest ih => rw [code, Code.stations, Code.stations, station_simple, size_parts, ih]
  | loop kind h body closing rest ihb ih | ifThen h body closing rest ihb ih =>
    simp only [code, Code.stations, station_header, length_condition, nodeCount_code, ihb, ih]
  | ifThenElse h body closing e other otherClosing rest ihb iho ih =>
    simp only [code, Code.stations, station_header, length_condition, nodeCount_code, ihb, iho, ih]

/-! ## Graphs -/

theorem heads_code (c : Code) (n : Nat) : (r.code c).heads n = c.heads n := by
  rw [Code.heads, isEmpty_code]
  rfl

theorem entryOr_code (c : Code) (n next : Nat) : (r.code c).entryOr n next = c.entryOr n next := by
  rw [Code.entryOr, isEmpty_code]
  rfl

theorem chainedEdges_code (c : Code) (n : Nat) : (r.code c).chainedEdges n = c.chainedEdges n := by
  induction c generalizing n with
  | done => rfl
  | _ => simp only [code, Code.chainedEdges, isReturn_simple, heads_code, statementCount_code, *]

theorem joinedEdges_code (c : Code) (exit next n : Nat) :
    (r.code c).joinedEdges exit next n = c.joinedEdges exit next n := by
  induction c generalizing next n with
  | done => rfl
  | _ =>
    simp only [code, Code.joinedEdges, isReturn_simple, heads_code, entryOr_code, isEmpty_code,
      statementCount_code, *]

theorem code_function (f : Function) : (r.function f).code = r.code f.code := by
  obtain ⟨type, name, parameters, body, semicolon⟩ := f
  cases body <;> rfl

theorem edges_code (layout : Flow.Layout) (c : Code) :
    layout.edges (r.code c) = layout.edges c := by
  cases layout with
  | chained =>
    simp only [Flow.Layout.edges, Flow.chained, statementCount_code, heads_code, chainedEdges_code]
  | joined =>
    simp only [Flow.Layout.edges, Flow.joined, statementCount_code, entryOr_code, joinedEdges_code]

theorem graph_function (layout : Flow.Layout) (id : Nat) (f : Function) :
    (r.function f).graph layout id = f.graph layout id := by
  have hsize : (r.function f).startOutline.size = f.startOutline.size := by
    rw [← size_bare, bare_startOutline, size_bare]
  rw [Function.graph, Function.stations, code_function, hsize, stations_code, edges_code]
  rfl

theorem numberFunctions_map (fs : List Function) (base : Nat) :
    Program.numberFunctions base (fs.map r.function) =
      (Program.numberFunctions base fs).map (Prod.map id r.function) := by
  induction fs generalizing base with
  | nil => rfl
  | cons f fs ih =>
    rw [List.map_cons, Program.numberFunctions, Program.numberFunctions, nodeCount_function, ih]
    rfl

theorem function?_program (p : Program) (name : String) :
    (r.program p).function? name = (p.function? name).map (Prod.map id r.function) := by
  have hfunction (p : Program) : p.function? name =
      ((p.numberedFunctions.filter fun x => x.2.name.text == name).find? (·.2.body.isSome) <|>
        (p.numberedFunctions.filter fun x => x.2.name.text == name).head?) := rfl
  have hcandidates : ((r.program p).numberedFunctions.filter fun x => x.2.name.text == name) =
      (p.numberedFunctions.filter fun x => x.2.name.text == name).map (Prod.map id r.function) := by
    rw [Program.numberedFunctions, functions_program, numberFunctions_map, List.filter_map]
    rfl
  have hbody : (fun x : Nat × Function => x.2.body.isSome) ∘ Prod.map id r.function =
      fun x => x.2.body.isSome :=
    funext fun x => Option.isSome_map
  rw [hfunction, hcandidates, List.find?_map, List.head?_map, hbody, hfunction]
  generalize (p.numberedFunctions.filter fun x => x.2.name.text == name) = candidates
  cases (candidates.find? fun x => x.2.body.isSome) <;> rfl

/-- **No graph depends on places.** -/
theorem graph?_program (p : Program) (layout : Flow.Layout) (name : String) :
    (r.program p).graph? layout name = p.graph? layout name := by
  rw [Program.graph?, function?_program, Option.map_map]
  exact congrArg (Option.map · _) (funext fun x => r.graph_function layout x.1 x.2)

/-! ## Facts -/

theorem loopCount_code (c : Code) : (r.code c).loopCount = c.loopCount := by
  induction c with
  | done => rfl
  | _ => simp only [code, Code.loopCount, *]

theorem loopDepth_code (c : Code) : (r.code c).loopDepth = c.loopDepth := by
  induction c with
  | done => rfl
  | _ => simp only [code, Code.loopDepth, *]

theorem simples_code (c : Code) : (r.code c).simples = c.simples.map r.simple := by
  induction c with
  | done => rfl
  | _ => simp only [code, Code.simples, List.map_cons, List.map_append, *]

theorem simples_function (f : Function) : (r.function f).simples = f.simples.map r.simple := by
  obtain ⟨type, name, parameters, body, semicolon⟩ := f
  cases body with
  | none => rfl
  | some b => exact r.simples_code b.code

theorem declared?_simple (x : Simple) : (r.simple x).declared? = x.declared? := by
  cases x with
  | declaration type name suffix initializer semicolon =>
    rw [simple, Simple.declared?, typeText_tokens]
    rfl
  | _ => rfl

theorem callee?_simple (x : Simple) : (r.simple x).callee? = x.callee? := by
  cases x <;> rfl

theorem callsItself_function (f : Function) : (r.function f).callsItself = f.callsItself := by
  rw [Function.callsItself, simples_function, List.any_map]
  exact congrArg f.simples.any (funext fun x => congrArg (· == some f.name.text) (r.callee?_simple x))

/-- **No fact about a program depends on places.** -/
theorem facts_program (p : Program) :
    Cost.Facts.ofProgram (r.program p) = Cost.Facts.ofProgram p := by
  have hbodies : ((p.functions.map r.function).filterMap fun f => f.body.map Block.code) =
      (p.functions.filterMap fun f => f.body.map Block.code).map r.code := by
    rw [List.filterMap_map, List.map_filterMap]
    congr 1
    funext f
    show (f.body.map r.block).map Block.code = (f.body.map Block.code).map r.code
    rw [Option.map_map, Option.map_map]
    rfl
  have hdeclared : ((p.functions.map r.function).flatMap Function.simples).filterMap
      Simple.declared? = (p.functions.flatMap Function.simples).filterMap Simple.declared? := by
    rw [List.flatMap_map, List.filterMap_flatMap, List.filterMap_flatMap]
    congr 1
    funext f
    rw [simples_function, List.filterMap_map]
    exact congrArg (f.simples.filterMap ·) (funext r.declared?_simple)
  have hloopCount : Code.loopCount ∘ r.code = Code.loopCount := funext r.loopCount_code
  have hloopDepth : Code.loopDepth ∘ r.code = Code.loopDepth := funext r.loopDepth_code
  have hcalls : Function.callsItself ∘ r.function = Function.callsItself :=
    funext r.callsItself_function
  rw [Cost.Facts.ofProgram, functions_program, hbodies, hdeclared, List.map_map, List.map_map,
    hloopCount, hloopDepth, List.filter_map, hcalls, List.map_map]
  rfl

end Relocation

end BraceLang
