import BraceLang.Proofs.Compilation
import BraceLang.Proofs.Flow.Reach
import BraceLang.Proofs.Tree.Parts
import Mathlib.Data.List.Forall2

/-!
# `Proofs.Flow.Layouts` — the two layouts differ in edges only

What the nodes of a graph stand for does not depend on the layout. Between the entry and the exit there is
one node for each statement of the body, in the order in which the syntax tree lists the statements, so
the graph of a function can be compared with its statements without looking at an edge.

An estimate counts the decisions of a graph and never asks where they lead. So the layout that a
compilation is asked for shows in the successors of its graph, and nowhere else.

## Contents
- `Function.map_station_graph` and `Function.decisionCount_graph`.
- `NodeKind.flowKind`, `Tree.statements` and `Graph.NodesFollow`.
- `Code.forall₂_stations`: the stations of some code are those of its statement nodes.
- `Program.scopes_congr`: scopes depend on two switches only.
- `Graph.withoutEdges` and `Compilation.withoutEdges`.
- **`layouts_differ_in_edges`**.
-/

namespace BraceLang

open BraceLang.Flow

/-! ## Stations of a graph -/

namespace Function

/-- What the nodes of the graph of a function stand for, in any layout. -/
theorem map_station_graph (layout : Layout) (id : Nat) (f : Function) :
    (f.graph layout id).nodes.toList.map Flow.Node.station = f.stations id := by
  rw [graph, ← List.map_uncurry_zip_eq_zipWith, List.map_map]
  exact List.map_fst_zip (Nat.le_of_eq (by rw [length_stations, length_edges]))

theorem decisionCount_graph (layout : Layout) (id : Nat) (f : Function) :
    (f.graph layout id).decisionCount = (f.stations id).countP (·.kind.isDecision) := by
  rw [Graph.decisionCount, ← f.map_station_graph layout id, List.countP_map]
  rfl

end Function

/-! ## Statements of a function -/

/-- The kind of node that a statement becomes in a graph. -/
def NodeKind.flowKind : NodeKind → Flow.Kind
  | .functionCall => .call
  | .returnStatement => .ret
  | .ifStatement => .branch
  | .forStatement => .forLoop
  | .whileStatement => .whileLoop
  | _ => .statement

/-- The statements at any depth in the body of the first function of a name that has a body, in the order
    of their numbers. Without such a function there are none. -/
def Tree.statements (t : Tree) (name : String) : List Tree.Node :=
  match (t.definition? name).bind fun d => t.childOfKind? d.id .functionBody with
  | some body => (t.descendants body.id).filter (·.label.kind.isStatement)
  | none => []

/-- The graph has an entry, then a node for each of the statements, of the kind that belongs to it, and
    then an exit. -/
def Flow.Graph.NodesFollow (g : Graph) (statements : List Tree.Node) : Prop :=
  ∃ entry middle exit, g.nodes.toList.map Flow.Node.station = entry :: (middle ++ [exit]) ∧
    entry.kind = .entry ∧ exit.kind = .exit ∧
      List.Forall₂ (fun v n => v.origin = some n.id ∧ v.kind = n.label.kind.flowKind) middle statements

namespace Outline

/-- The nodes of an outline that are statements, in the order of their numbers. -/
def statements (base : Nat) (o : Outline) : List Tree.Node :=
  (o.number base).filter (·.label.kind.isStatement)

variable {base : Nat} {l : Label} {o children siblings : Outline}

theorem statements_node : statements base (.node l children siblings) =
    (if l.kind.isStatement then [⟨base, l, rootIds (base + 1) children⟩] else []) ++
      (children.statements (base + 1) ++ siblings.statements (base + 1 + children.size)) := by
  rw [statements, number, List.filter_cons, List.filter_append]
  split <;> rfl

theorem statements_of_isStatement (hl : l.kind.isStatement = true) :
    statements base (.node l children siblings) = ⟨base, l, rootIds (base + 1) children⟩ ::
      (children.statements (base + 1) ++ siblings.statements (base + 1 + children.size)) := by
  rw [statements_node, if_pos hl, List.singleton_append]

theorem statements_of_not_isStatement (hl : l.kind.isStatement = false) :
    statements base (.node l children siblings) =
      children.statements (base + 1) ++ siblings.statements (base + 1 + children.size) := by
  rw [statements_node, hl, if_neg Bool.false_ne_true, List.nil_append]

theorem statements_of_isPart (ho : ∀ l ∈ o.labels, l.kind.isPart = true) (base : Nat) :
    o.statements base = [] := by
  apply List.filter_eq_nil_iff.mpr
  intro n hn
  have hlabel : n.label ∈ o.labels := by
    rw [← map_label_number o base]
    exact List.mem_map_of_mem hn
  exact Bool.eq_false_iff.mp (NodeKind.isStatement_of_isPart (ho _ hlabel))

section Header

variable {h : Header} {block otherBlock : Label} {body other : Outline}

/-- A statement with a block comes before the statements in its block. -/
theorem statements_oneBlock (hl : l.kind.isStatement = true) (hb : block.kind.isStatement = false) :
    statements base (.node l (.node h.conditionLabel (leaves h.condition) (.single block body))
        siblings) =
      ⟨base, l, rootIds (base + 1) (.node h.conditionLabel (leaves h.condition) (.single block body))⟩ ::
        (body.statements (base + 3 + h.condition.length) ++
          siblings.statements (base + 3 + h.condition.length + body.size)) := by
  have hnone : statements (base + 1 + 1 + h.condition.length + 1 + body.size) .nil = [] := rfl
  rw [statements_of_isStatement hl, statements_of_not_isStatement rfl,
    statements_of_isPart (isPart_leaves _), List.nil_append, size_leaves, Forest.single,
    statements_of_not_isStatement hb, hnone, List.append_nil, Forest.size, Forest.size, Forest.size,
    size_leaves, show base + 1 + 1 + h.condition.length + 1 = base + 3 + h.condition.length by omega,
    show base + 1 + (1 + h.condition.length + (1 + body.size + 0)) =
      base + 3 + h.condition.length + body.size by omega]

/-- A statement with two blocks comes before the statements in its blocks. -/
theorem statements_twoBlocks (hl : l.kind.isStatement = true) (hb : block.kind.isStatement = false)
    (ho : otherBlock.kind.isStatement = false) :
    statements base (.node l (.node h.conditionLabel (leaves h.condition)
        (.node block body (.single otherBlock other))) siblings) =
      ⟨base, l, rootIds (base + 1) (.node h.conditionLabel (leaves h.condition)
        (.node block body (.single otherBlock other)))⟩ ::
        (body.statements (base + 3 + h.condition.length) ++
          (other.statements (base + 3 + h.condition.length + body.size + 1) ++
            siblings.statements (base + 3 + h.condition.length + body.size + 1 + other.size))) := by
  have hnone : statements (base + 1 + 1 + h.condition.length + 1 + body.size + 1 + other.size) .nil =
    [] := rfl
  rw [statements_of_isStatement hl, statements_of_not_isStatement rfl,
    statements_of_isPart (isPart_leaves _), List.nil_append, size_leaves, Forest.single,
    statements_of_not_isStatement hb, statements_of_not_isStatement ho, hnone, List.append_nil,
    Forest.size, Forest.size, Forest.size, Forest.size, size_leaves, List.append_assoc,
    show base + 1 + 1 + h.condition.length + 1 = base + 3 + h.condition.length by omega,
    show base + 1 + (1 + h.condition.length + (1 + body.size + (1 + other.size + 0))) =
      base + 3 + h.condition.length + body.size + 1 + other.size by omega]

end Header

end Outline

/-- **The stations of some code are those of its statement nodes**, one for each and in their order. -/
theorem Code.forall₂_stations (c : Code) (base : Nat) :
    List.Forall₂ (fun v n => v.origin = some n.id ∧ v.kind = n.label.kind.flowKind)
      (c.stations base) (c.outline.statements base) := by
  induction c generalizing base with
  | done => exact .nil
  | skip x rest ih => exact ih base
  | simple s rest ih =>
    have hl : s.label.kind.isStatement = true := by cases s <;> rfl
    have hkind : s.flowKind = s.label.kind.flowKind := by cases s <;> rfl
    rw [stations, outline, Outline.statements_of_isStatement hl,
      Outline.statements_of_isPart s.isPart_parts, List.nil_append]
    exact .cons ⟨rfl, hkind⟩ (ih _)
  | loop kind h body closing rest ihb ih =>
    have hl : kind.nodeKind.isStatement = true := by cases kind <;> rfl
    have hkind : kind.flowKind = kind.nodeKind.flowKind := by cases kind <;> rfl
    rw [stations, outline, Outline.statements_oneBlock hl rfl, Code.size_outline]
    exact .cons ⟨rfl, hkind⟩ (List.rel_append (ihb _) (ih _))
  | ifThen h body closing rest ihb ih =>
    rw [stations, outline, Outline.statements_oneBlock rfl rfl, Code.size_outline]
    exact .cons ⟨rfl, rfl⟩ (List.rel_append (ihb _) (ih _))
  | ifThenElse h body closing e other otherClosing rest ihb iho ih =>
    rw [stations, outline, Outline.statements_twoBlocks rfl rfl rfl, Code.size_outline,
      Code.size_outline]
    exact .cons ⟨rfl, rfl⟩ (List.rel_append (ihb _) (List.rel_append (iho _) (ih _)))

namespace Program

variable {limit : Nat} {tokens : List Token} {p : Program} {name : String} {id : Nat} {f : Function}

/-- The statements that the tree lists under a name are those of the function that is chosen under the
    name. -/
theorem statements_tree (hf : p.function? name = some (id, f)) :
    p.tree.statements name = f.code.outline.statements (id + 2 + f.startOutline.size) := by
  obtain ⟨hmem, hname⟩ := of_function?_eq_some hf
  rw [Tree.statements, p.definition?_tree]
  rw [p.function?_eq] at hf
  cases hfind : p.numberedFunctions.find? fun x => x.2.name.text == name && x.2.body.isSome with
  | none =>
    -- a function of the name that has a body would have been found
    have hnot := List.find?_eq_none.mp hfind (id, f) hmem
    simp only [hname, beq_self_eq_true, Bool.true_and, Bool.not_eq_true, Option.isSome_eq_false_iff,
      Option.isNone_iff_eq_none] at hnot
    rw [Function.code, hnot]
    rfl
  | some found =>
    rw [hfind] at hf
    obtain rfl := Option.some.inj hf
    obtain ⟨more, hholds⟩ := p.tree_holds_functions.function hmem
    have hbody := (hholds.below.append).2
    have hfound : p.tree.childOfKind? (f.node id).id .functionBody = f.bodyNode? id :=
      hholds.childOfKind?_functionBody
    rw [Option.map_some, Option.bind_some, hfound, Function.bodyNode?, Function.code]
    cases hb : f.body with
    | none => rfl
    | some b =>
      rw [hb] at hbody
      dsimp only [Option.map_some]
      rw [hbody.descendants_eq, List.filter_cons_of_neg (by exact Bool.false_ne_true),
        show id + 1 + f.startOutline.size + 1 = id + 2 + f.startOutline.size by omega]
      rfl

/-- In any layout, the nodes of the graph of a function follow its statements. -/
theorem nodesFollow_graph (hf : p.function? name = some (id, f)) (layout : Layout) :
    (f.graph layout id).NodesFollow (p.tree.statements name) := by
  rw [statements_tree hf]
  exact ⟨_, _, _, f.map_station_graph layout id, rfl, rfl, f.code.forall₂_stations _⟩

/-- The statements under a name are listed in the order of their numbers. -/
theorem pairwise_statements (p : Program) (name : String) :
    (p.tree.statements name).Pairwise fun n m => n.id < m.id := by
  cases hfunction : p.function? name with
  | none =>
    have hdefinition : p.tree.definition? name = none := by
      rw [Option.eq_none_iff_forall_ne_some]
      intro d hd
      obtain ⟨_, _, _, _, hsome⟩ := p.function?_eq_of_definition? hd
      exact absurd (hfunction.symm.trans hsome) (Option.some_ne_none _).symm
    rw [Tree.statements, hdefinition]
    exact List.Pairwise.nil
  | some found =>
    obtain ⟨id, f⟩ := found
    rw [statements_tree hfunction]
    exact (Outline.pairwise_number _ _).filter _

end Program

/-! ## What scopes depend on -/

section Switches

variable {config other : Config} (htrack : config.trackUsage = other.trackUsage)
  (hisolate : config.isolateScopes = other.isolateScopes)

include htrack hisolate

theorem Scope.ofBlock_congr (name : String) (kind : Scope.Kind) (first last : Token) (c : Code)
    (inner : Resolved) :
    Scope.ofBlock config name kind first last c inner =
      Scope.ofBlock other name kind first last c inner := by
  rw [ofBlock, ofBlock, above, above, htrack, hisolate]

theorem Code.resolve_congr (c : Code) : c.resolve config = c.resolve other := by
  induction c with
  | done => rfl
  | skip _ rest ih | simple _ rest ih => exact ih
  | loop kind h body closing rest ihb ih | ifThen h body closing rest ihb ih =>
    rw [resolve, resolve, Scope.ofInner, Scope.ofInner, ihb, ih,
      Scope.ofBlock_congr htrack hisolate]
  | ifThenElse h body closing e other otherClosing rest ihb iho ih =>
    rw [resolve, resolve, Scope.ofInner, Scope.ofInner, Scope.ofInner, Scope.ofInner, ihb, iho, ih,
      Scope.ofBlock_congr htrack hisolate, Scope.ofBlock_congr htrack hisolate]

/-- Scopes depend on the two switches for tracking usage and for isolating scopes only. -/
theorem Program.scopes_congr (p : Program) : p.scopes config = p.scopes other := by
  have hfunction (f : Function) : f.scopes config = f.scopes other := by
    rw [Function.scopes, Function.scopes]
    cases f.body with
    | none => rfl
    | some b =>
      dsimp only
      rw [Scopes.settle, Scopes.settle, htrack, hisolate, Code.resolve_congr htrack hisolate,
        Scope.ofBlock_congr htrack hisolate]
  rw [scopes, scopes]
  exact congrArg (p.functions.foldr · _) (funext fun f => funext fun rest => by rw [hfunction])

end Switches

/-! ## Compilations without edges -/

/-- The graph with its nodes and no edges. -/
def Flow.Graph.withoutEdges (g : Graph) : Graph :=
  { g with nodes := g.nodes.map fun v => { v with successors := [] } }

/-- The compilation with a graph that has no edges, and otherwise the same. -/
def Compilation.withoutEdges (c : Compilation) : Compilation :=
  { c with graph := c.graph.map Graph.withoutEdges }

/-- Without its edges, the graph of a function is the same in any layout. -/
theorem Function.withoutEdges_graph (layout : Layout) (id : Nat) (f : Function) :
    (f.graph layout id).withoutEdges =
      ⟨f.name.text, ((f.stations id).map fun v => ⟨v, []⟩).toArray⟩ := by
  have hnodes : (f.graph layout id).nodes.map (fun v => { v with successors := [] }) =
      ((f.stations id).map fun v => Flow.Node.mk v []).toArray := by
    rw [← f.map_station_graph layout id, List.map_map, ← List.map_toArray, Array.toArray_toList]
    rfl
  rw [Graph.withoutEdges, hnodes]
  rfl

/-- An estimate does not depend on where the decisions of a graph lead. -/
theorem Function.estimate_graph (facts : Cost.Facts) (layout other : Layout) (id : Nat) (f : Function)
    (threshold : Nat) :
    facts.estimate (f.graph layout id) threshold = facts.estimate (f.graph other id) threshold := by
  have hreasons : Cost.Facts.decisionReasons (f.graph layout id) =
      Cost.Facts.decisionReasons (f.graph other id) := by
    rw [Cost.Facts.decisionReasons, Cost.Facts.decisionReasons, decisionCount_graph,
      decisionCount_graph]
    rfl
  rw [Cost.Facts.estimate, Cost.Facts.estimate, Cost.Facts.time, Cost.Facts.time, hreasons]

/-- What is found out about a program is the same for any layout, but for the edges of the graph. -/
theorem Program.withoutEdges_analyse (config : Config) (joins : Bool) (scan : Scan) (p : Program) :
    (p.analyse { config with joinControlFlow := joins } scan).withoutEdges =
      (p.analyse config scan).withoutEdges := by
  have hgraph : (p.graph? (.ofJoins joins) config.entryFunction).map Graph.withoutEdges =
      (p.graph? (.ofJoins config.joinControlFlow) config.entryFunction).map Graph.withoutEdges := by
    rw [graph?, graph?, Option.map_map, Option.map_map]
    refine congrArg (Option.map · _) (funext fun found => ?_)
    exact (found.2.withoutEdges_graph _ _).trans (found.2.withoutEdges_graph _ _).symm
  have hestimate : (p.graph? (.ofJoins joins) config.entryFunction).map (fun g =>
        (Cost.Facts.ofProgram p).estimate g config.manyVariablesThreshold) =
      (p.graph? (.ofJoins config.joinControlFlow) config.entryFunction).map fun g =>
        (Cost.Facts.ofProgram p).estimate g config.manyVariablesThreshold := by
    rw [graph?, graph?, Option.map_map, Option.map_map]
    exact congrArg (Option.map · _) (funext fun found => found.2.estimate_graph _ _ _ _ _)
  have htrack : ({ config with joinControlFlow := joins } : Config).trackUsage = config.trackUsage :=
    rfl
  have hisolate : ({ config with joinControlFlow := joins } : Config).isolateScopes =
      config.isolateScopes := rfl
  rw [analyse, analyse, Compilation.withoutEdges, Compilation.withoutEdges]
  dsimp only
  rw [hgraph, hestimate, Program.scopes_congr htrack hisolate]

/-- Only the edges of its graph tell which layout a compilation was asked for. -/
theorem withoutEdges_compile (config : Config) (joins : Bool) (source : String) :
    (compile { config with joinControlFlow := joins } source).withoutEdges =
      (compile config source).withoutEdges := by
  have hlimit : ({ config with joinControlFlow := joins } : Config).maxNestingDepth =
      config.maxNestingDepth := rfl
  cases hread : Program.read config.maxNestingDepth (tokenize source).tokens with
  | error cause => rw [compile_eq_fatal hread, compile_eq_fatal (hlimit ▸ hread)]
  | ok p =>
    rw [compile_eq_analyse hread, compile_eq_analyse (hlimit ▸ hread)]
    exact p.withoutEdges_analyse config joins _

/-- **The two layouts differ in edges only.** Both graphs of a function have the same nodes: the entry, one
node for each statement of its body in the order of the syntax tree, and the exit. So joining shows in the
edges of the graph of a compilation, and nowhere else. -/
theorem layouts_differ_in_edges {limit : Nat} {tokens : List Token} {p : Program} {name : String}
    (hread : Program.read limit tokens = .ok p)
    (hname : ∃ d ∈ p.tree.functions, d.label.text = name) :
    (∃ chained joined, p.tree.graph? .chained name = .ok (some chained) ∧
      p.tree.graph? .joined name = .ok (some joined) ∧
      chained.nodes.toList.map Flow.Node.station = joined.nodes.toList.map Flow.Node.station ∧
      chained.NodesFollow (p.tree.statements name) ∧
      (p.tree.statements name).Pairwise fun n m => n.id < m.id) ∧
    ∀ (config : Config) (source : String),
      (compile { config with joinControlFlow := true } source).withoutEdges =
        (compile { config with joinControlFlow := false } source).withoutEdges := by
  constructor
  · rw [p.graph?_tree hread, p.graph?_tree hread, Program.graph?, Program.graph?]
    cases hfunction : p.function? name with
    | none =>
      obtain ⟨d, hd, hdname⟩ := hname
      rw [p.functions_tree] at hd
      obtain ⟨x, hx, rfl⟩ := List.mem_map.mp hd
      exact absurd hdname (Program.ne_of_function?_eq_none hfunction x hx)
    | some found =>
      obtain ⟨id, f⟩ := found
      have hsame := (f.map_station_graph .chained id).trans (f.map_station_graph .joined id).symm
      exact ⟨_, _, rfl, rfl, hsame, Program.nodesFollow_graph hfunction .chained,
        p.pairwise_statements name⟩
  · intro config source
    exact (withoutEdges_compile config true source).trans (withoutEdges_compile config false source).symm

/-- Both graphs of the function of `returnInLoop` have the same nodes. -/
theorem layouts_differ_in_edges_returnInLoop :
    ∃ p, Program.read 3 returnInLoop = .ok p ∧
      ∃ chained joined, p.tree.graph? .chained "f" = .ok (some chained) ∧
        p.tree.graph? .joined "f" = .ok (some joined) ∧
        chained.nodes.toList.map Flow.Node.station = joined.nodes.toList.map Flow.Node.station := by
  obtain ⟨p, hread, hname⟩ := Program.declared_returnInLoop
  obtain ⟨⟨chained, joined, hchained, hjoined, hsame, -⟩, -⟩ := layouts_differ_in_edges hread hname
  exact ⟨p, hread, chained, joined, hchained, hjoined, hsame⟩

end BraceLang
