import BraceLang.Proofs.Flow.Layouts
import BraceLang.Proofs.Scope.Declared
import Mathlib.Algebra.GroupWithZero.Nat

/-!
# `Proofs.Cost.Agreement` — facts, graphs and scopes count the same things

Three walks go over the tree of a program, each with its own rules: one for the facts behind an estimate,
one for the scopes, and one for the graph of a function. What they count agrees. A loop is a scope of a
loop, a decision of a graph is a scope with a condition, and each declaration is a variable of just one
scope if scopes are isolated, and of one scope at the top if they are not.

All of this is about scopes apart from usage, so it is shown for their frames, by one induction over code
for each of the counts.

## Contents
- `Scope.Kind.isDecision` and `Scopes.function?`, the scopes that are counted.
- `Code.countP_isLoop_frames`, `Code.deepest_isLoop_frames`, `Code.countP_isDecision_frames`,
  `Code.length_declarations` and `Code.sum_locals_frames`: the counts for some code.
- `Program.function?_frames`, the scopes that are found under a name.
- **`Program.walks_agree`**.
-/

namespace BraceLang

/-! ## What is counted -/

/-- Whether a condition decides whether control comes into the block. -/
def Scope.Kind.isDecision : Scope.Kind → Bool
  | .ifBody | .forBody | .whileBody => true
  | _ => false

/-- The first top scope with a name, and the scopes inside it. -/
def Scopes.function? (scopes : Scopes) (name : String) : Option (Scope × Scopes) :=
  scopes.trees.find? (·.1.name == name)

/-- Giving up marks does not change which scopes are found under a name. -/
theorem Scopes.function?_map_unmarked (scopes : Scopes) (name : String) :
    function? (scopes.map Scope.unmarked) name =
      (scopes.function? name).map fun found => (found.1.unmarked, found.2.map Scope.unmarked) := by
  rw [function?, Forest.trees_map, List.find?_map]
  rfl

/-! ## Code -/

namespace Code

/-- Each loop is the scope of a loop. -/
theorem countP_isLoop_frames (isolate : Bool) (c : Code) :
    (c.frames isolate).labels.countP (·.kind.isLoop) = c.loopCount := by
  have hif : Scope.Kind.ifBody.isLoop = false := rfl
  have helse : Scope.Kind.elseBranch.isLoop = false := rfl
  induction c with
  | done => rfl
  | skip _ rest ih | simple _ rest ih => exact ih
  | loop kind h body closing rest ihb ih =>
    have hloop : kind.scopeKind.isLoop = true := by cases kind <;> rfl
    simp only [frames, Forest.labels_node, List.countP_cons, List.countP_append, Scope.frame, hloop,
      ihb, ih, loopCount, ↓reduceIte]
    omega
  | ifThen h body closing rest ihb ih =>
    simp only [frames, Forest.labels_node, List.countP_cons, List.countP_append, Scope.frame, hif,
      ihb, ih, loopCount, Bool.false_eq_true, ↓reduceIte, Nat.add_zero]
  | ifThenElse h body closing e other otherClosing rest ihb iho ih =>
    simp only [frames, Forest.labels_node, List.countP_cons, List.countP_append, Scope.frame, hif,
      helse, ihb, iho, ih, loopCount, Bool.false_eq_true, ↓reduceIte, Nat.add_zero, Nat.add_assoc]

/-- Loops around one another are scopes of loops inside one another. -/
theorem deepest_isLoop_frames (isolate : Bool) (c : Code) :
    (c.frames isolate).deepest (·.kind.isLoop) = c.loopDepth := by
  have hif : Scope.Kind.ifBody.isLoop = false := rfl
  have helse : Scope.Kind.elseBranch.isLoop = false := rfl
  induction c with
  | done => rfl
  | skip _ rest ih | simple _ rest ih => exact ih
  | loop kind h body closing rest ihb ih =>
    have hloop : kind.scopeKind.isLoop = true := by cases kind <;> rfl
    simp only [frames, Forest.deepest, Scope.frame, hloop, ihb, ih, loopDepth, ↓reduceIte]
  | ifThen h body closing rest ihb ih =>
    simp only [frames, Forest.deepest, Scope.frame, hif, ihb, ih, loopDepth, Bool.false_eq_true,
      ↓reduceIte, Nat.zero_add]
  | ifThenElse h body closing e other otherClosing rest ihb iho ih =>
    simp only [frames, Forest.deepest, Scope.frame, hif, helse, ihb, iho, ih, loopDepth,
      Bool.false_eq_true, ↓reduceIte, Nat.zero_add, Nat.max_assoc]

/-- Each decision is the scope of the block that it decides about. An `else` adds a scope and no
    decision. -/
theorem countP_isDecision_frames (isolate : Bool) (c : Code) (base : Nat) :
    (c.frames isolate).labels.countP (·.kind.isDecision) =
      (c.stations base).countP (·.kind.isDecision) := by
  have hif : Scope.Kind.ifBody.isDecision = true := rfl
  have helse : Scope.Kind.elseBranch.isDecision = false := rfl
  have hbranch : Flow.Kind.branch.isDecision = true := rfl
  induction c generalizing base with
  | done => rfl
  | skip _ rest ih => exact ih base
  | simple s rest ih =>
    have hkind : s.flowKind.isDecision = false := by cases s <;> rfl
    simp only [frames, stations, Simple.station, List.countP_cons, hkind, Bool.false_eq_true,
      ↓reduceIte, Nat.add_zero]
    exact ih _
  | loop kind h body closing rest ihb ih =>
    have hscope : kind.scopeKind.isDecision = true := by cases kind <;> rfl
    have hstation : kind.flowKind.isDecision = true := by cases kind <;> rfl
    simp only [frames, stations, Forest.labels_node, List.countP_cons, List.countP_append, Scope.frame,
      Header.station, hscope, hstation, ↓reduceIte]
    rw [ihb, ih]
  | ifThen h body closing rest ihb ih =>
    simp only [frames, stations, Forest.labels_node, List.countP_cons, List.countP_append, Scope.frame,
      Header.station, hif, hbranch, ↓reduceIte]
    rw [ihb, ih]
  | ifThenElse h body closing e other otherClosing rest ihb iho ih =>
    simp only [frames, stations, Forest.labels_node, List.countP_cons, List.countP_append, Scope.frame,
      Header.station, hif, helse, hbranch, Bool.false_eq_true, ↓reduceIte, Nat.add_zero]
    rw [ihb, iho, ih]

/-- Unless scopes are isolated, all declarations in some code count in the block of the code. -/
theorem length_declarations (c : Code) : (c.declarations false).length = c.declared.length := by
  rw [c.declarations_false, declared]
  induction c.simples with
  | nil => rfl
  | cons s simples ih =>
    rw [List.filterMap_cons, List.filterMap_cons]
    cases s with
    | declaration => exact congrArg (· + 1) ih
    | _ => exact ih

/-- If scopes are isolated, each declaration in some code counts in one block: that of the code or one
    inside it. -/
theorem sum_locals_frames (c : Code) : (c.declarations true).length +
    ((c.frames true).labels.map (·.locals.length)).sum = c.declared.length := by
  induction c with
  | done => rfl
  | skip _ rest ih => exact ih
  | simple s rest ih =>
    have hown : s.declaredVariable?.toList.length = s.declared?.toList.length := by cases s <;> rfl
    rw [declarations, declared_simple, List.length_append, List.length_append, hown, ← ih, frames,
      Nat.add_assoc]
  | loop kind h body closing rest ihb ih =>
    rw [declared_loop, List.length_append, ← ihb, ← ih, frames, Forest.labels_node, List.map_cons,
      List.sum_cons, List.map_append, List.sum_append]
    show (rest.declarations true).length + ((body.declarations true).length + _) = _
    omega
  | ifThen h body closing rest ihb ih =>
    rw [declared_ifThen, List.length_append, ← ihb, ← ih, frames, Forest.labels_node, List.map_cons,
      List.sum_cons, List.map_append, List.sum_append]
    show (rest.declarations true).length + ((body.declarations true).length + _) = _
    omega
  | ifThenElse h body closing e other otherClosing rest ihb iho ih =>
    rw [declared_ifThenElse, List.length_append, List.length_append, ← ihb, ← iho, ← ih, frames,
      Forest.labels_node, Forest.labels_node, List.map_cons, List.sum_cons, List.map_append,
      List.sum_append, List.map_cons, List.sum_cons, List.map_append, List.sum_append]
    show (rest.declarations true).length + ((body.declarations true).length +
      (_ + ((other.declarations true).length + _))) = _
    omega

end Code

/-! ## Functions -/

namespace Function

variable (f : Function) (isolate : Bool)

/-- The scope of the body of a function is that of no loop. -/
theorem countP_isLoop_frames :
    (f.frames isolate).labels.countP (·.kind.isLoop) = f.code.loopCount := by
  rw [frames, code]
  cases f.body with
  | none => rfl
  | some b =>
    simp only [Forest.single, Forest.labels_node, Forest.labels_nil, List.append_nil]
    exact b.code.countP_isLoop_frames isolate

theorem deepest_isLoop_frames : (f.frames isolate).deepest (·.kind.isLoop) = f.code.loopDepth := by
  rw [frames, code]
  cases f.body with
  | none => rfl
  | some b =>
    show max (0 + (b.code.frames isolate).deepest _) 0 = b.code.loopDepth
    rw [Nat.max_zero, Nat.zero_add, b.code.deepest_isLoop_frames]

/-- Neither the scope of the body nor the entry and the exit is a decision. -/
theorem countP_isDecision_frames (id : Nat) :
    (f.frames isolate).labels.countP (·.kind.isDecision) =
      (f.stations id).countP (·.kind.isDecision) := by
  have hstations : (f.stations id).countP (·.kind.isDecision) =
      (f.code.stations (id + 2 + f.startOutline.size)).countP (·.kind.isDecision) := by
    rw [stations]
    simp only [List.countP_cons, List.countP_append, List.countP_nil]
    rfl
  rw [hstations, frames, code]
  cases f.body with
  | none => rfl
  | some b =>
    simp only [Forest.single, Forest.labels_node, Forest.labels_nil, List.append_nil]
    exact b.code.countP_isDecision_frames isolate _

/-- The variables of the function: those of its one tree of scopes, or of the scope of its body alone. -/
theorem sum_locals_frames : ((if isolate then (f.frames isolate).labels
    else (f.frames isolate).roots).map fun s => s.locals.length).sum =
      (f.simples.filterMap Simple.declared?).length := by
  rw [frames, simples]
  cases f.body with
  | none => cases isolate <;> rfl
  | some b =>
    cases isolate with
    | true =>
      simp only [Forest.single, Forest.labels_node, Forest.labels_nil, List.append_nil, if_true,
        List.map_cons, List.sum_cons]
      exact b.code.sum_locals_frames
    | false =>
      show (b.code.declarations false).length + 0 = _
      exact b.code.length_declarations

end Function

/-! ## Programs -/

namespace Program

variable (p : Program) (isolate : Bool)

theorem countP_isLoop_frames :
    (p.frames isolate).labels.countP (·.kind.isLoop) = (Cost.Facts.ofProgram p).loopCount := by
  have hfold (fs : List Function) (n : Nat) : n +
      (framesOf isolate fs).labels.countP (·.kind.isLoop) =
        ((bodies fs).map Code.loopCount).foldl (· + ·) n := by
    induction fs generalizing n with
    | nil => rfl
    | cons f fs ih =>
      rw [framesOf, Forest.labels_append, List.countP_append, f.countP_isLoop_frames,
        ← Nat.add_assoc, ih, bodies, bodies, List.filterMap_cons, Function.code]
      cases f.body <;> rfl
  exact (Nat.zero_add _).symm.trans (hfold p.functions 0)

theorem deepest_isLoop_frames :
    (p.frames isolate).deepest (·.kind.isLoop) = (Cost.Facts.ofProgram p).loopDepth := by
  have hfold (fs : List Function) (n : Nat) : max n
      ((framesOf isolate fs).deepest (·.kind.isLoop)) =
        ((bodies fs).map Code.loopDepth).foldl max n := by
    induction fs generalizing n with
    | nil => exact Nat.max_zero n
    | cons f fs ih =>
      rw [framesOf, Forest.deepest_append, f.deepest_isLoop_frames, ← Nat.max_assoc, ih,
        bodies, bodies, List.filterMap_cons, Function.code]
      cases f.body with
      | none => exact congrArg (List.foldl max · _) (Nat.max_zero n)
      | some b => rfl
  exact (Nat.zero_max _).symm.trans (hfold p.functions 0)

theorem sum_locals_frames : ((if isolate then (p.frames isolate).labels
    else (p.frames isolate).roots).map fun s => s.locals.length).sum =
      (Cost.Facts.ofProgram p).declarationCount := by
  show _ = ((p.functions.flatMap Function.simples).filterMap Simple.declared?).length
  rw [frames]
  induction p.functions with
  | nil => cases isolate <;> rfl
  | cons f fs ih =>
    rw [List.flatMap_cons, List.filterMap_append, List.length_append, ← ih,
      ← f.sum_locals_frames isolate, framesOf, Forest.labels_append, Forest.roots_append]
    cases isolate <;> exact (congrArg List.sum List.map_append).trans List.sum_append

/-- The scopes that are found under a name are those of the first function of the name that has a
    body. -/
theorem function?_frames (name : String) : (p.frames isolate).function? name =
    (p.functions.find? fun f => f.name.text == name && f.body.isSome).bind fun f =>
      f.body.map fun b => (Scope.frame isolate f.name.text .function b.brace b.last b.code,
        b.code.frames isolate) := by
  rw [frames, Scopes.function?]
  induction p.functions with
  | nil => rfl
  | cons f fs ih =>
    rw [framesOf, Forest.trees_append, List.find?_append, ih, Function.frames,
      List.find?_cons]
    cases hb : f.body with
    | none =>
      rw [Option.isSome_none, Bool.and_false]
      rfl
    | some b =>
      rw [Option.isSome_some, Bool.and_true]
      show (List.find? _ [(_, _)]).or _ = _
      rw [List.find?_singleton]
      show (if (f.name.text == name) = true then _ else _ : Option _).or _ = _
      cases f.name.text == name with
      | false => rfl
      | true =>
        show _ = Option.map _ f.body
        rw [hb]
        rfl

/-- The graph of a function with a body has a decision for each scope with a condition that is found
    under the name. -/
theorem exists_function?_scopes {limit : Nat} {tokens : List Token} {p : Program}
    (hread : read limit tokens = .ok p) (config : Config) {d : Tree.Node}
    (hd : d ∈ p.tree.functions) (hbody : (p.tree.childOfKind? d.id .functionBody).isSome = true) :
    ∃ s inner, (p.scopes config).function? d.label.text = some (s, inner) ∧
      ∀ layout, ∃ g, p.tree.graph? layout d.label.text = .ok (some g) ∧
        g.decisionCount = (Forest.single s inner).labels.countP (·.kind.isDecision) := by
  rw [p.functions_tree] at hd
  obtain ⟨⟨id, f⟩, hmem, rfl⟩ := List.mem_map.mp hd
  have hown : f.body.isSome = true := by
    have hnode : (p.tree.childOfKind? id .functionBody).isSome = true := hbody
    rwa [p.childOfKind?_functionBody hmem, Function.bodyNode?, Option.isSome_map] at hnode
  -- the first function of the name that has a body is the one that both walks choose
  have hfound : (p.numberedFunctions.find? fun x =>
      x.2.name.text == f.name.text && x.2.body.isSome).isSome = true := by
    rw [List.find?_isSome]
    exact ⟨(id, f), hmem, by rw [beq_self_eq_true, Bool.true_and, hown]⟩
  obtain ⟨⟨first, g⟩, hfirst⟩ := Option.isSome_iff_exists.mp hfound
  have hgraph : p.function? f.name.text = some (first, g) := by
    rw [p.function?_eq, hfirst]
    rfl
  have hscopes : (p.functions.find? fun h => h.name.text == f.name.text && h.body.isSome) = some g := by
    rw [← p.map_snd_numberedFunctions, List.find?_map]
    exact congrArg (Option.map Prod.snd) hfirst
  obtain ⟨b, hb⟩ : ∃ b, g.body = some b := by
    have hboth := List.find?_some hscopes
    exact Option.isSome_iff_exists.mp (Bool.and_eq_true_iff.mp hboth).2
  have hframes := p.function?_frames config.isolateScopes f.name.text
  rw [← p.map_unmarked_scopes config, Scopes.function?_map_unmarked, hscopes, Option.bind_some, hb,
    Option.map_some] at hframes
  obtain ⟨⟨s, inner⟩, hname, htree⟩ := Option.map_eq_some_iff.mp hframes
  obtain ⟨hs, hinner⟩ := Prod.mk.inj htree
  have htrees : (Forest.single s inner).map Scope.unmarked = g.frames config.isolateScopes := by
    rw [Function.frames, hb]
    show Forest.node _ _ .nil = _
    rw [hs, hinner]
    rfl
  refine ⟨s, inner, hname, fun layout => ⟨g.graph layout first, ?_, ?_⟩⟩
  · rw [graph?_tree hread]
    exact congrArg (fun found => Except.ok (Option.map _ found)) hgraph
  · rw [g.decisionCount_graph, ← g.countP_isDecision_frames config.isolateScopes first, ← htrees,
      Forest.labels_map, List.countP_map]
    rfl

/-- **Three walks over the tree of a program agree.** -/
theorem walks_agree {limit : Nat} {tokens : List Token} {p : Program}
    (hread : read limit tokens = .ok p) (config : Config) :
    ∃ scopes, p.tree.scopes config = .ok scopes ∧
      p.tree.facts.loopCount = scopes.labels.countP (·.kind.isLoop) ∧
      IsGreatest {n | ∃ way, scopes.Way way ∧ way.countP (·.kind.isLoop) = n}
        p.tree.facts.loopDepth ∧
      p.tree.facts.declarationCount = ((if config.isolateScopes then scopes.labels
        else scopes.roots).map fun s => s.locals.length).sum ∧
      ∀ d ∈ p.tree.functions, (p.tree.childOfKind? d.id .functionBody).isSome = true →
        ∃ s inner, scopes.function? d.label.text = some (s, inner) ∧
          ∀ layout, ∃ g, p.tree.graph? layout d.label.text = .ok (some g) ∧
            g.decisionCount = (Forest.single s inner).labels.countP (·.kind.isDecision) := by
  have hframes := p.map_unmarked_scopes config
  refine ⟨p.scopes config, p.scopes_tree config, ?_, ?_, ?_,
    fun d hd hbody => exists_function?_scopes hread config hd hbody⟩
  · rw [p.facts_tree, ← p.countP_isLoop_frames config.isolateScopes, ← hframes, Forest.labels_map,
      List.countP_map]
    rfl
  · rw [p.facts_tree, ← p.deepest_isLoop_frames config.isolateScopes, ← hframes, Forest.deepest_map]
    exact Forest.isGreatest_deepest _ _
  · rw [p.facts_tree, ← p.sum_locals_frames config.isolateScopes, ← hframes, Forest.labels_map,
      Forest.roots_map]
    have hlength (s : Scope) : s.unmarked.locals.length = s.locals.length := List.length_map _
    split <;> simp only [List.map_map, Function.comp_def, hlength]

/-- Three functions of one name, of which the first has no body. -/
def threeOfOneName : List Token :=
  (tokenize "void f(); void f() \x7b while (a) \x7b int b; \x7d \x7d void f() \x7b \x7d").tokens

/-- In `threeOfOneName` both walks choose the function with the loop. -/
theorem walks_agree_threeOfOneName :
    ∃ p d scopes, read 3 threeOfOneName = .ok p ∧ d ∈ p.tree.functions ∧
      (p.tree.childOfKind? d.id .functionBody).isSome = true ∧
      p.tree.scopes {} = .ok scopes ∧
      p.tree.facts.loopCount = scopes.labels.countP (·.kind.isLoop) ∧
      ∃ s inner g, scopes.function? d.label.text = some (s, inner) ∧
        p.tree.graph? .joined d.label.text = .ok (some g) ∧
        g.decisionCount = (Forest.single s inner).labels.countP (·.kind.isDecision) := by
  have hfound : ((read 3 threeOfOneName).toOption.bind fun p => p.tree.functions.find? fun d =>
      (p.tree.childOfKind? d.id .functionBody).isSome).isSome = true := by decide +kernel
  cases hread : read 3 threeOfOneName with
  | error e =>
    rw [hread] at hfound
    exact absurd hfound Bool.false_ne_true
  | ok p =>
    rw [hread] at hfound
    obtain ⟨d, hd⟩ := Option.isSome_iff_exists.mp hfound
    have hmem : d ∈ p.tree.functions := List.mem_of_find?_eq_some hd
    have hbody : (p.tree.childOfKind? d.id .functionBody).isSome = true :=
      List.find?_some (p := fun d : Tree.Node => (p.tree.childOfKind? d.id .functionBody).isSome) hd
    obtain ⟨scopes, hscopes, hcount, -, -, hgraphs⟩ := walks_agree hread {}
    obtain ⟨s, inner, hname, hgraph⟩ := hgraphs d hmem hbody
    obtain ⟨g, hg, hdecisions⟩ := hgraph .joined
    exact ⟨p, d, scopes, rfl, hmem, hbody, hscopes, hcount, s, inner, g, hname, hg, hdecisions⟩

end Program

end BraceLang
