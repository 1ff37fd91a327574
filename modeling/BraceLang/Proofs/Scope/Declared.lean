import BraceLang.Cost.Facts
import BraceLang.Flow.Station
import BraceLang.Proofs.Scope.Frames

/-!
# `Proofs.Scope.Declared` — where the variables of scopes are declared

Each variable of a scope comes from a declaration somewhere in the code of the function. The scopes pick from
the declarations of a function, in source order, those that count in their blocks.

## Contents
- `Code.declarations_false` and `Code.declarations_sublist`, what counts in the block of some code.
- `Program.declarations`, with `exists_of_mem_declarations`.
- **`Program.locals_sublist`**: a scope has some of these declarations, in source order.
-/

namespace BraceLang

variable {s : Scope} {isolate : Bool} {v : Variable}

namespace Code

/-- Unless scopes are isolated, all declarations in some code count in its block. -/
theorem declarations_false (c : Code) :
    c.declarations false = c.simples.filterMap Simple.declaredVariable? := by
  induction c with
  | done => rfl
  | skip t rest ih => exact ih
  | simple first rest ih =>
    rw [declarations, simples, List.filterMap_cons, ih]
    cases first.declaredVariable? <;> rfl
  | loop kind hd body closing rest ihb ih | ifThen hd body closing rest ihb ih =>
    rw [declarations, if_neg Bool.false_ne_true, simples, List.filterMap_append, ihb, ih]
  | ifThenElse hd body closing e other otherClosing rest ihb iho ih =>
    rw [declarations, if_neg Bool.false_ne_true, simples, List.filterMap_append, List.filterMap_append,
      ihb, iho, ih, List.append_assoc]

/-- If they are isolated, some of the declarations count there, in the same order. -/
theorem declarations_sublist (isolate : Bool) (c : Code) :
    (c.declarations isolate).Sublist (c.declarations false) := by
  cases isolate with
  | false => exact List.Sublist.refl _
  | true =>
    induction c with
    | done => exact List.Sublist.refl _
    | skip t rest ih => exact ih
    | simple first rest ih => exact ih.append_left _
    | loop kind hd body closing rest _ ih | ifThen hd body closing rest _ ih =>
      exact (List.nil_sublist _).append ih
    | ifThenElse hd body closing e other otherClosing rest _ _ ih =>
      exact (List.nil_sublist _).append ih

/-- A scope inside of some code has some of the declarations in the code. -/
theorem locals_sublist {c : Code} (h : s ∈ (c.frames isolate).labels) :
    s.locals.Sublist (c.declarations false) := by
  induction c with
  | done => exact absurd h List.not_mem_nil
  | skip t rest ih => exact ih h
  | simple first rest ih => exact (ih h).trans (List.sublist_append_right _ _)
  | loop kind hd body closing rest ihb ih | ifThen hd body closing rest ihb ih =>
    have hbody : (body.declarations false).Sublist (body.declarations false ++ rest.declarations false) :=
      List.sublist_append_left _ _
    rw [frames, Forest.labels_node, List.mem_cons, List.mem_append] at h
    rcases h with rfl | hinner | hbeside
    · exact (body.declarations_sublist isolate).trans hbody
    · exact (ihb hinner).trans hbody
    · exact (ih hbeside).trans (List.sublist_append_right _ _)
  | ifThenElse hd body closing e other otherClosing rest ihb iho ih =>
    have hblocks : (body.declarations false ++ other.declarations false).Sublist
        (body.declarations false ++ other.declarations false ++ rest.declarations false) :=
      List.sublist_append_left _ _
    have hbody := (List.sublist_append_left (body.declarations false) _).trans hblocks
    have hother := (List.sublist_append_right (body.declarations false) _).trans hblocks
    rw [frames, Forest.labels_node, Forest.labels_node, List.mem_cons, List.mem_append, List.mem_cons,
      List.mem_append] at h
    rcases h with rfl | hinner | rfl | hinner | hbeside
    · exact (body.declarations_sublist isolate).trans hbody
    · exact (ihb hinner).trans hbody
    · exact (other.declarations_sublist isolate).trans hother
    · exact (iho hinner).trans hother
    · exact (ih hbeside).trans (List.sublist_append_right _ _)

end Code

/-! ## Functions and programs -/

/-- A scope of a function has some of the declarations in its body. -/
theorem Function.locals_sublist {f : Function} (h : s ∈ (f.frames isolate).labels) :
    s.locals.Sublist (f.code.declarations false) := by
  rw [frames] at h
  rw [code]
  cases hb : f.body with
  | none =>
    rw [hb] at h
    exact absurd h List.not_mem_nil
  | some b =>
    rw [hb] at h
    dsimp only at h
    rw [Forest.single, Forest.labels_node, Forest.labels_nil, List.append_nil] at h
    rcases List.mem_cons.mp h with rfl | hinner
    · exact b.code.declarations_sublist isolate
    · exact Code.locals_sublist hinner

namespace Program

/-- All declarations of a program, function by function. -/
def declarations (p : Program) : List Variable :=
  p.functions.flatMap fun f => f.code.declarations false

variable {p : Program}

/-- A variable is declared by a statement in the body of a function. -/
theorem exists_of_mem_declarations (h : v ∈ p.declarations) :
    ∃ f ∈ p.functions, ∃ b ∈ f.body, ∃ x ∈ b.code.simples, x.declaredVariable? = some v := by
  obtain ⟨f, hf, hv⟩ := List.mem_flatMap.mp h
  rw [Function.code] at hv
  cases hb : f.body with
  | none =>
    rw [hb] at hv
    exact absurd hv List.not_mem_nil
  | some b =>
    rw [hb] at hv
    change v ∈ b.code.declarations false at hv
    rw [b.code.declarations_false] at hv
    obtain ⟨x, hx, hdeclares⟩ := List.mem_filterMap.mp hv
    exact ⟨f, hf, b, hb, x, hx, hdeclares⟩

/-- **Apart from the marks, a scope has some of the declarations of the program**, in source order. -/
theorem locals_sublist {config : Config} (h : s ∈ (p.scopes config).labels) :
    s.unmarked.locals.Sublist p.declarations := by
  have hframe : s.unmarked ∈ (p.frames config.isolateScopes).labels := by
    rw [← p.map_unmarked_scopes, Forest.labels_map]
    exact List.mem_map_of_mem h
  rw [frames] at hframe
  rw [declarations]
  generalize p.functions = fs at hframe ⊢
  induction fs with
  | nil => exact absurd hframe List.not_mem_nil
  | cons f fs ih =>
    rw [framesOf, Forest.labels_append, List.mem_append] at hframe
    rw [List.flatMap_cons]
    rcases hframe with hfirst | hrest
    · exact (Function.locals_sublist hfirst).trans (List.sublist_append_left _ _)
    · exact (ih hrest).trans (List.sublist_append_right _ _)

end Program

end BraceLang
