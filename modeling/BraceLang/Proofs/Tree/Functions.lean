import BraceLang.Flow.Layout
import BraceLang.Proofs.Tree.Numbering

/-!
# `Proofs.Tree.Functions` — the functions of a program in its syntax tree

The functions are the children of the root, numbered as `Program.numberedFunctions` counts them, and
the body of a function is the one child of its kind.

## Contents
- `Function.node`, the node that a function becomes, and `Function.bodyNode?`.
- `Holds.function` and `Holds.childOfKind?_functionBody`, a function and its body in the tree.
- `functions_tree`, all functions of the tree at once.
- `definition?_tree`, `function?_eq` and `function?_eq_of_definition?`: the function that is defined
  first under a name is the one that its graph is made of.
-/

namespace BraceLang

/-- The outline of the body of a function. -/
def Block.outline (b : Block) : Outline :=
  .single (.covering .functionBody none b.brace b.last) b.code.outline

namespace Function

/-- The label of a function. -/
def label (f : Function) : Label := .covering .functionDeclaration (some f.name.text) f.type f.last

/-- The outline of the body of a function, or nothing. -/
def bodyOutline (f : Function) : Outline :=
  match f.body with
  | some b => b.outline
  | none => .nil

theorem outline_eq (f : Function) : f.outline = .single f.label (f.startOutline ++ f.bodyOutline) :=
  rfl

/-- The node of a function with the number `id`. -/
def node (id : Nat) (f : Function) : Tree.Node :=
  ⟨id, f.label, (f.startOutline ++ f.bodyOutline).rootIds (id + 1)⟩

/-- The node of the body of a function with the number `id`. -/
def bodyNode? (id : Nat) (f : Function) : Option Tree.Node :=
  f.body.map fun b => ⟨id + 1 + f.startOutline.size, .covering .functionBody none b.brace b.last,
    b.code.outline.rootIds (id + 2 + f.startOutline.size)⟩

/-- None of the nodes before the body is a body. -/
theorem find?_tops_startOutline (f : Function) (base : Nat) :
    (f.startOutline.tops base).find? (·.label.kind == .functionBody) = none := rfl

end Function

namespace Tree

/-- The first function of a name that has a body. -/
def definition? (t : Tree) (name : String) : Option Node :=
  t.functions.find? fun d => d.label.text == name && (t.childOfKind? d.id .functionBody).isSome

variable {t : Tree} {id : Nat} {f : Function} {more : Outline}

/-- The code of the body of a function stands behind the body. -/
theorem Holds.functionCode (h : t.Holds id (f.outline ++ more)) :
    t.Holds (id + 2 + f.startOutline.size) f.code.outline := by
  have hin := (h.below.append).2
  rw [Function.code]
  cases hb : f.body with
  | none => intro i hi; exact absurd hi (Nat.not_lt_zero i)
  | some b =>
    rw [hb] at hin
    have hcode := hin.below
    rwa [show id + 1 + f.startOutline.size + 1 = id + 2 + f.startOutline.size by omega] at hcode

theorem Holds.childOfKind?_functionBody (h : t.Holds id (f.outline ++ more)) :
    t.childOfKind? id .functionBody = f.bodyNode? id := by
  rw [h.childOfKind?_eq]
  show ((f.startOutline ++ f.bodyOutline).tops (id + 1)).find? _ = _
  rw [Outline.tops_append, List.find?_append, f.find?_tops_startOutline, Option.none_or,
    Function.bodyOutline, Function.bodyNode?]
  cases f.body with
  | none => rfl
  | some b =>
    rw [show id + 2 + f.startOutline.size = id + 1 + f.startOutline.size + 1 by omega]
    rfl

/-- The functions at the top of an outline, with their nodes. -/
theorem tops_functions (base : Nat) (fs : List Function) :
    Outline.tops base (fs.foldr (fun f rest => f.outline ++ rest) .nil) =
      (Program.numberFunctions base fs).map fun (id, f) => f.node id := by
  induction fs generalizing base with
  | nil => rfl
  | cons f fs ih =>
    rw [List.foldr_cons, Outline.tops_append, ih, Program.numberFunctions, List.map_cons,
      f.size_outline]
    rfl

/-- Every function stands in the tree at its number, before whatever comes behind it. -/
theorem Holds.function {base : Nat} {fs : List Function}
    (h : t.Holds base (fs.foldr (fun f rest => f.outline ++ rest) .nil))
    (hf : (id, f) ∈ Program.numberFunctions base fs) : ∃ more, t.Holds id (f.outline ++ more) := by
  induction fs generalizing base with
  | nil => exact absurd hf List.not_mem_nil
  | cons first fs ih =>
    rw [Program.numberFunctions] at hf
    rcases List.mem_cons.mp hf with heq | hmem
    · obtain ⟨rfl, rfl⟩ := Prod.mk.inj heq
      exact ⟨_, h⟩
    · have hrest := (Holds.append h).2
      rw [Function.size_outline] at hrest
      exact ih hrest hmem

end Tree

namespace Program

variable (p : Program)

theorem tree_holds_functions :
    p.tree.Holds 1 (p.functions.foldr (fun f rest => f.outline ++ rest) .nil) :=
  (Tree.holds_ofOutline p.outline).below

/-- The functions of the tree are those of the program. -/
theorem functions_tree : p.tree.functions = p.numberedFunctions.map fun (id, f) => f.node id := by
  have hroot := (Tree.holds_ofOutline p.outline).children_eq
  rw [Tree.functions, tree, Tree.root, hroot, Tree.tops_functions]
  apply List.filter_eq_self.mpr
  intro n hn
  obtain ⟨⟨id, f⟩, -, rfl⟩ := List.mem_map.mp hn
  rfl

/-- Without their numbers, the numbered functions are the functions. -/
theorem map_snd_numberedFunctions : p.numberedFunctions.map Prod.snd = p.functions := by
  have hnumber : ∀ (fs : List Function) (base : Nat), (numberFunctions base fs).map Prod.snd = fs := by
    intro fs
    induction fs with
    | nil => exact fun _ => rfl
    | cons f fs ih => exact fun base => congrArg (f :: ·) (ih _)
  exact hnumber p.functions 1

theorem childOfKind?_functionBody {id : Nat} {f : Function} (h : (id, f) ∈ p.numberedFunctions) :
    p.tree.childOfKind? id .functionBody = f.bodyNode? id := by
  obtain ⟨more, hf⟩ := p.tree_holds_functions.function h
  exact hf.childOfKind?_functionBody

/-- The first function of a name that has a body, in the tree and in the program. -/
theorem definition?_tree (name : String) : p.tree.definition? name =
    (p.numberedFunctions.find? fun x => x.2.name.text == name && x.2.body.isSome).map
      fun (id, f) => f.node id := by
  -- asked of a function of the program, both tests for a body say the same
  have hsame : ∀ x ∈ p.numberedFunctions, (x.2.name.text == name && x.2.body.isSome) =
      ((fun d : Tree.Node => d.label.text == name &&
        (p.tree.childOfKind? d.id .functionBody).isSome) ∘ fun (id, f) => f.node id) x := by
    intro x hx
    show _ = (x.2.name.text == name && (p.tree.childOfKind? x.1 .functionBody).isSome)
    rw [p.childOfKind?_functionBody hx, Function.bodyNode?, Option.isSome_map]
  rw [Tree.definition?, p.functions_tree, List.find?_map, ← List.head?_filter,
    ← List.filter_congr hsame, List.head?_filter]

/-- A function with a body goes before all that have none. -/
theorem function?_eq (name : String) : p.function? name =
    ((p.numberedFunctions.find? fun x => x.2.name.text == name && x.2.body.isSome) <|>
      p.numberedFunctions.find? fun x => x.2.name.text == name) := by
  show ((p.numberedFunctions.filter fun x => x.2.name.text == name).find?
      (fun x => x.2.body.isSome) <|> _) = _
  rw [List.find?_filter, List.head?_filter]
  simp only [Bool.decide_and, Bool.decide_eq_true]

/-- The function that the tree finds by its name and its body is the one that the program finds. -/
theorem function?_eq_of_definition? {name : String} {d : Tree.Node}
    (h : p.tree.definition? name = some d) :
    ∃ id f, (id, f) ∈ p.numberedFunctions ∧ d = f.node id ∧ p.function? name = some (id, f) := by
  rw [p.definition?_tree] at h
  obtain ⟨⟨id, f⟩, hfind, rfl⟩ := Option.map_eq_some_iff.mp h
  refine ⟨id, f, List.mem_of_find?_eq_some hfind, rfl, ?_⟩
  rw [p.function?_eq, hfind]
  rfl

end Program

end BraceLang
