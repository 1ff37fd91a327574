import BraceLang.Proofs.Layout.Relocation
import BraceLang.Proofs.Tree.Bare

/-!
# `Proofs.Layout.Outline` — the tree of a relocated program

The nodes of a tree bear words and places. A relocation leaves the words as they are, so it leaves the
bare tree as it is, and with it every number that is found by counting nodes.

## Contents
- `typeText_tokens`, `argumentTokens_tokens` and `texts_tokens`: the texts of a run of tokens.
- `bare_code`, `bare_function` and **`bare_outline`**.
- `size_parts`, `nodeCount_code` and `nodeCount_function`.
-/

namespace BraceLang

open Outline

namespace Relocation

variable (r : Relocation)

/-! ## Texts -/

theorem typeText_tokens (type : Token) (suffix : List Token) :
    Simple.typeText (r.token type) (r.tokens suffix) = Simple.typeText type suffix := by
  rw [Simple.typeText, tokens, List.foldl_map]
  rfl

theorem argumentTokens_tokens (run : List Token) :
    Simple.argumentTokens (r.tokens run) = r.tokens (Simple.argumentTokens run) := by
  rw [Simple.argumentTokens, tokens, List.filter_map]
  rfl

theorem texts_tokens (run : List Token) :
    (r.tokens run).map (·.text) = run.map (·.text) := by
  rw [tokens, List.map_map]
  rfl

/-! ## The tree -/

theorem bare_expression (run : List Token) :
    (expression (r.tokens run)).bare = (expression run).bare := by
  cases run with
  | nil => rfl
  | cons t run =>
    show Forest.node _ (leaves (r.tokens (t :: run))).bare _ = .node _ (leaves (t :: run)).bare _
    rw [bare_leaves, bare_leaves, words_tokens]
    rfl

theorem bare_label (x : Simple) : (r.simple x).label.bare = x.label.bare := by
  cases x <;> rfl

theorem bare_parts (x : Simple) : (r.simple x).parts.bare = x.parts.bare := by
  cases x with
  | declaration type name suffix initializer semicolon =>
    have hvalue : ((initializer.map r.initializer).map Initializer.value).getD [] =
        r.tokens ((initializer.map Initializer.value).getD []) := by
      cases initializer <;> rfl
    simp only [simple, Simple.parts, bare_node, typeText_tokens, hvalue, bare_expression]
    rfl
  | call name opening arguments closing semicolon =>
    simp only [simple, Simple.parts, bare_node, Forest.single, argumentTokens_tokens, bare_leaves,
      words_tokens]
    rfl
  | ret keyword value semicolon => exact r.bare_expression value
  | assignment target operator value semicolon =>
    exact congrArg (Forest.node _ .nil) (r.bare_expression value)

/-- The tree of the code stays, but for the places of its nodes. -/
theorem bare_code (c : Code) : (r.code c).outline.bare = c.outline.bare := by
  induction c with
  | done => rfl
  | skip t rest ih => exact ih
  | simple x rest ih =>
    rw [code, Code.outline, Code.outline, bare_node, bare_node, bare_label, bare_parts, ih]
  | loop kind h body closing rest ihb ih | ifThen h body closing rest ihb ih =>
    simp only [code, Code.outline, header, bare_node, Forest.single, bare_leaves, words_tokens, ihb, ih]
    rfl
  | ifThenElse h body closing e other otherClosing rest ihb iho ih =>
    simp only [code, Code.outline, header, bare_node, Forest.single, bare_leaves, words_tokens, ihb,
      iho, ih]
    rfl

/-- Outlines side by side that stay, but for places, do so together. -/
theorem bare_foldr {α : Type} (move : α → α) (outline : α → Outline)
    (h : ∀ a, (outline (move a)).bare = (outline a).bare) (as : List α) :
    ((as.map move).foldr (fun a rest => outline a ++ rest) .nil : Outline).bare =
      (as.foldr (fun a rest => outline a ++ rest) .nil : Outline).bare := by
  induction as with
  | nil => rfl
  | cons a as ih =>
    rw [List.map_cons, List.foldr_cons, List.foldr_cons, bare_append, bare_append, ih, h]

theorem bare_parameterItem (i : ParameterItem) :
    (r.parameterItem i).outline.bare = i.outline.bare := by
  cases i <;> rfl

theorem bare_parameterList (p : ParameterList) :
    (r.parameterList p).outline.bare = p.outline.bare :=
  congrArg (Forest.node _ · .nil) (bare_foldr _ _ r.bare_parameterItem p.items)

theorem bare_startOutline (f : Function) :
    (r.function f).startOutline.bare = f.startOutline.bare := by
  show Forest.node _ .nil (.node _ .nil (r.parameterList f.parameters).outline.bare) = _
  rw [bare_parameterList]
  rfl

theorem bare_function (f : Function) :
    (r.function f).outline.bare = f.outline.bare := by
  simp only [Function.outline, Forest.single, bare_node, bare_append, bare_startOutline]
  obtain ⟨type, name, parameters, body, semicolon⟩ := f
  cases body with
  | none => rfl
  | some b =>
    show Forest.node _ (_ ++ .node _ (r.code b.code).outline.bare .nil) .nil = _
    rw [bare_code]
    rfl

theorem functions_program (p : Program) :
    (r.program p).functions = p.functions.map r.function := by
  rw [Program.functions, Program.functions, program, List.filterMap_map, List.map_filterMap]
  congr 1
  funext i
  cases i <;> rfl

/-- **The tree of a program stays, but for the places of its nodes.** -/
theorem bare_outline (p : Program) : (r.program p).outline.bare = p.outline.bare := by
  rw [Program.outline, functions_program]
  exact congrArg (Forest.node _ · .nil) (bare_foldr _ _ r.bare_function p.functions)

/-! ## Numbers of nodes -/

theorem size_parts (x : Simple) : (r.simple x).parts.size = x.parts.size := by
  rw [← size_bare, bare_parts, size_bare]

theorem nodeCount_code (c : Code) : (r.code c).nodeCount = c.nodeCount := by
  rw [← Code.size_outline, ← size_bare, bare_code, size_bare, Code.size_outline]

theorem nodeCount_function (f : Function) :
    (r.function f).nodeCount = f.nodeCount := by
  rw [← Function.size_outline, ← size_bare, bare_function, size_bare, Function.size_outline]

end Relocation

end BraceLang
