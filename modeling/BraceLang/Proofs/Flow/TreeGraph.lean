import BraceLang.Proofs.Flow.ChainedBuild
import BraceLang.Proofs.Flow.JoinedBuild
import BraceLang.Proofs.Reading.Nesting
import BraceLang.Token.Lexer

/-!
# `Proofs.Flow.TreeGraph` — the graph that is built of a tree

Both builders find in the tree of a program what the layouts read off the program, so the building
never fails there and gives the graph of the function. What is known of that graph is then known of the one
that is built: the joined one runs as the text reads.

## Contents
- `Program.Reads.hasValues`: a program that was read has no empty initializer.
- `Program.declaration?_tree`: the function that the builder chooses.
- **`Program.graph?_tree`**, and `exists_function_of_declared` and `exists_graph_of_declared` for a
  function that is declared.
- **`joined_walk_eq_run`**.
-/

namespace BraceLang

open BraceLang.Flow

/-! ## Initializers of programs that were read -/

theorem Code.Reads.hasValues {goal : Goal} {s rest : List Token} {c : Code}
    {closing : Option Token} (h : Code.Reads goal s c closing rest) : c.HasValues := by
  induction h with
  | nothing | atEnd | close => trivial
  | opened _ _ _ ih | closed _ _ _ _ ih | skip _ _ _ _ _ ih => exact ih
  | @simple _ x _ _ _ _ _ hx _ ih =>
    refine ⟨?_, ih⟩
    cases x with
    | declaration type name suffix initializer semicolon =>
      obtain ⟨-, -, -, hinitializer, -⟩ := hx
      exact fun i hi => fun hempty => (hinitializer i hi).value.ne_nil (by rw [hempty]; rfl)
    | _ => trivial
  | loop _ _ _ _ ihb ih | ifThen _ _ _ _ _ ihb ih => exact ⟨ihb, ih⟩
  | ifThenElse _ _ _ _ _ _ ihb iho ih => exact ⟨ihb, iho, ih⟩

theorem Function.ReadsTail.hasValues {s rest : List Token} {body : Option Block}
    {semicolon : Option Token} (h : Function.ReadsTail s body semicolon rest) :
    ((body.map Block.code).getD .done).HasValues := by
  cases h with
  | body _ hcode => exact hcode.hasValues
  | semicolon | nothing => trivial

theorem Function.Reads.hasValues {s rest : List Token} {f : Function}
    (h : Function.Reads s f rest) : f.code.HasValues := by
  obtain ⟨-, htail⟩ := h
  exact htail.hasValues

/-- A loop around a decision with an early `return`. -/
def returnInLoop : List Token :=
  (tokenize "void f() \x7b while (a) \x7b if (b) \x7b return; \x7d g(); \x7d \x7d").tokens

namespace Program

variable {limit : Nat} {tokens : List Token} {p : Program}

theorem Reads.hasValues {items : List ProgramItem} (h : Reads tokens items) :
    ∀ f ∈ (mk items).functions, f.code.HasValues := by
  induction h with
  | nil => exact fun f hf => absurd hf List.not_mem_nil
  | skipped _ _ ih => exact ih
  | function hf _ ih =>
    intro g hg
    rcases List.mem_cons.mp hg with rfl | hrest
    · exact hf.hasValues
    · exact ih g hrest

/-! ## The function that a graph is built of -/

/-- The builder chooses the function that the program chooses. -/
theorem declaration?_tree (p : Program) (name : String) :
    p.tree.declaration? name = (p.function? name).map fun (id, f) => f.node id := by
  have hbody : ∀ x ∈ p.numberedFunctions.filter (fun (_, f) => f.name.text == name),
      (p.tree.childOfKind? x.1 .functionBody).isSome = x.2.body.isSome := by
    intro x hx
    rw [p.childOfKind?_functionBody (List.mem_filter.mp hx).1, Function.bodyNode?, Option.isSome_map]
  have hcandidates : p.tree.functions.filter (·.label.text == name) =
      (p.numberedFunctions.filter fun (_, f) => f.name.text == name).map
        fun (id, f) => f.node id := by
    rw [p.functions_tree, List.filter_map]
    rfl
  have hfirst : ((p.numberedFunctions.filter fun (_, f) => f.name.text == name).map
      fun (id, f) => f.node id).find?
        (fun d => (p.tree.childOfKind? d.id .functionBody).isSome) =
      ((p.numberedFunctions.filter fun (_, f) => f.name.text == name).find?
        fun (_, f) => f.body.isSome).map fun (id, f) => f.node id := by
    rw [List.find?_map, ← List.head?_filter, ← List.head?_filter]
    exact congrArg (Option.map _ ∘ List.head?) (List.filter_congr hbody)
  simp only [Tree.declaration?, Program.function?, hcandidates, hfirst, List.head?_map]
  cases List.find? _ _ <;> rfl

/-- The function that is found under a name has this name. -/
theorem of_function?_eq_some {name : String} {id : Nat} {f : Function}
    (h : p.function? name = some (id, f)) : (id, f) ∈ p.numberedFunctions ∧ f.name.text = name := by
  have hmem : (id, f) ∈ p.numberedFunctions.filter fun (_, f) => f.name.text == name := by
    rw [function?] at h
    cases hbody : (p.numberedFunctions.filter fun (_, f) => f.name.text == name).find?
        fun (_, f) => f.body.isSome with
    | none =>
      rw [hbody] at h
      exact List.mem_of_head? h
    | some found =>
      rw [hbody] at h
      obtain rfl := Option.some.inj h
      exact List.mem_of_find?_eq_some hbody
  exact ⟨(List.mem_filter.mp hmem).1, eq_of_beq (List.mem_filter.mp hmem).2⟩

/-- If no function is found under a name, none has it. -/
theorem ne_of_function?_eq_none {name : String} (h : p.function? name = none) :
    ∀ x ∈ p.numberedFunctions, x.2.name.text ≠ name := by
  intro x hx hname
  have hmem : x ∈ p.numberedFunctions.filter fun (_, f) => f.name.text == name :=
    List.mem_filter.mpr ⟨hx, beq_iff_eq.mpr hname⟩
  rw [function?] at h
  cases hbody : (p.numberedFunctions.filter fun (_, f) => f.name.text == name).find?
      fun (_, f) => f.body.isSome with
  | none =>
    rw [hbody] at h
    rw [List.head?_eq_none_iff.mp h] at hmem
    exact List.not_mem_nil hmem
  | some found =>
    rw [hbody] at h
    exact absurd h (Option.some_ne_none _)

/-- **In the tree of a program that was read the building never fails**, and it gives the graph of the
    program. -/
theorem graph?_tree (h : Program.read limit tokens = .ok p) (layout : Layout) (name : String) :
    p.tree.graph? layout name = .ok (p.graph? layout name) := by
  rw [Tree.graph?, p.declaration?_tree, Program.graph?]
  cases hfunction : p.function? name with
  | none => rfl
  | some found =>
    obtain ⟨id, f⟩ := found
    obtain ⟨hmem, rfl⟩ := of_function?_eq_some hfunction
    obtain ⟨more, hf⟩ := p.tree_holds_functions.function hmem
    have hfunctions : f ∈ p.functions := by
      rw [← p.map_snd_numberedFunctions]
      exact List.mem_map_of_mem hmem
    have hvalues := (reads_of_read h).hasValues f hfunctions
    have hbuild : ∃ returns, Gives (p.tree.buildFunction layout id) (.ofNodes [] []) ()
        (.ofNodes (f.graph layout id).nodes.toList returns) := by
      cases layout with
      | chained => exact ⟨_, hf.gives_buildChained hvalues⟩
      | joined => exact ⟨_, hf.gives_buildJoined hvalues⟩
    obtain ⟨returns, hbuild⟩ := hbuild
    have hrun : (p.tree.buildFunction layout id).run ⟨#[], []⟩ =
        .ok ((), .ofNodes (f.graph layout id).nodes.toList returns) := hbuild
    show ((p.tree.buildFunction layout id).run ⟨#[], []⟩ >>= fun x => _) = _
    rw [hrun]
    rfl

/-- Under the name of a function that is declared a function is chosen. -/
theorem exists_function_of_declared (p : Program) {name : String}
    (hname : ∃ d ∈ p.tree.functions, d.label.text = name) :
    ∃ (id : Nat) (f : Function) (more : Outline), p.function? name = some (id, f) ∧
      p.tree.Holds id (f.outline ++ more) ∧ p.tree.declaration? name = some (f.node id) ∧
      f.node id ∈ p.tree.functions ∧ (f.node id).label.text = name := by
  rw [p.declaration?_tree, p.functions_tree]
  cases hfunction : p.function? name with
  | none =>
    obtain ⟨d, hd, hdname⟩ := hname
    rw [p.functions_tree] at hd
    obtain ⟨x, hx, rfl⟩ := List.mem_map.mp hd
    exact absurd hdname (ne_of_function?_eq_none hfunction x hx)
  | some found =>
    obtain ⟨id, f⟩ := found
    obtain ⟨hmem, hfname⟩ := of_function?_eq_some hfunction
    obtain ⟨more, hholds⟩ := p.tree_holds_functions.function hmem
    exact ⟨id, f, more, rfl, hholds, rfl, List.mem_map.mpr ⟨(id, f), hmem, rfl⟩, hfname⟩

/-- Every function that is declared has a graph: that of the function chosen under its name. -/
theorem exists_graph_of_declared (h : Program.read limit tokens = .ok p) (layout : Layout)
    {name : String} (hname : ∃ d ∈ p.tree.functions, d.label.text = name) :
    ∃ (id : Nat) (f : Function) (more : Outline), p.tree.Holds id (f.outline ++ more) ∧
      p.tree.declaration? name = some (f.node id) ∧ f.node id ∈ p.tree.functions ∧
      (f.node id).label.text = name ∧
      p.tree.graph? layout name = .ok (some (f.graph layout id)) := by
  obtain ⟨id, f, more, hfunction, hholds, hd, hmem, hfname⟩ := p.exists_function_of_declared hname
  refine ⟨id, f, more, hholds, hd, hmem, hfname, ?_⟩
  rw [p.graph?_tree h, Program.graph?, hfunction]
  rfl

/-- The function of `returnInLoop` is declared. -/
theorem declared_returnInLoop : ∃ p, Program.read 3 returnInLoop = .ok p ∧
    ∃ d ∈ p.tree.functions, d.label.text = "f" := by
  have hfound : ((Program.read 3 returnInLoop).toOption.bind fun p =>
      p.tree.functions.find? (·.label.text == "f")).isSome = true := by decide +kernel
  cases hread : Program.read 3 returnInLoop with
  | error e =>
    rw [hread] at hfound
    exact absurd hfound Bool.false_ne_true
  | ok p =>
    rw [hread] at hfound
    obtain ⟨d, hd⟩ := Option.isSome_iff_exists.mp hfound
    have hname : (d.label.text == "f") = true :=
      List.find?_some (p := fun d : Tree.Node => d.label.text == "f") hd
    exact ⟨p, rfl, d, List.mem_of_find?_eq_some hd, eq_of_beq hname⟩

end Program

/-! ## What the joined graph means -/

/-- **The joined graph keeps the meaning of the syntax tree.** Take the first function of a name
    that has a body. Whatever the outcomes of the conditions, the walk along the joined graph that is built
    of it visits the function and then exactly the statements that a run of its body along the syntax tree
    visits, and it reaches the exit just if that run ends. -/
theorem joined_walk_eq_run {limit : Nat} {tokens : List Token} {p : Program} {name : String}
    {d : Tree.Node} (hread : Program.read limit tokens = .ok p) (h : p.tree.definition? name = some d) :
    ∃ g, p.tree.graph? .joined name = .ok (some g) ∧ ∀ visits outcomes,
      g.walk (visits + 1) outcomes Graph.entry =
        some ((p.tree.run visits outcomes (p.tree.blockIds d.id .functionBody)).visit d.id) := by
  obtain ⟨id, f, hmem, rfl, hfound⟩ := p.function?_eq_of_definition? h
  obtain ⟨more, hholds⟩ := p.tree_holds_functions.function hmem
  refine ⟨f.graph .joined id, ?_, Function.walk_joined hholds⟩
  rw [p.graph?_tree hread, Program.graph?, hfound]
  rfl

theorem joined_walk_eq_run_returnInLoop :
    ∃ p d g, Program.read 3 returnInLoop = .ok p ∧ p.tree.definition? "f" = some d ∧
      p.tree.graph? .joined "f" = .ok (some g) ∧ ∀ visits outcomes,
        g.walk (visits + 1) outcomes Graph.entry =
          some ((p.tree.run visits outcomes (p.tree.blockIds d.id .functionBody)).visit d.id) := by
  have hfound : ((Program.read 3 returnInLoop).toOption.bind fun p =>
      p.tree.definition? "f").isSome = true := by decide +kernel
  cases hread : Program.read 3 returnInLoop with
  | error e =>
    rw [hread] at hfound
    exact absurd hfound Bool.false_ne_true
  | ok p =>
    rw [hread] at hfound
    obtain ⟨d, hd⟩ := Option.isSome_iff_exists.mp hfound
    obtain ⟨g, hg, hwalk⟩ := joined_walk_eq_run hread hd
    exact ⟨p, d, g, rfl, hd, hg, hwalk⟩

end BraceLang
