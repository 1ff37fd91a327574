import BraceLang.Proofs.Grammar.Syntax

/-!
# `Proofs.Grammar.Depth` — the depth of a program of the grammar

How deep a program is can be told from its parts, and it is the depth of its tree.

## Contents
- `Else.inner_of_chain`, the blocks in an `else`.
- `Else.depth_outline` and from it `Body.depth_outline`, by induction on the grammar.
- `Program.depth_outline`.
-/

namespace BraceLang

namespace Outline

theorem depth_wordLeaves (run : List Word) (around : Nat) :
    depth around (wordLeaves run) = around := by
  apply depth_ofLabels
  intro l hl
  obtain ⟨w, -, rfl⟩ := List.mem_map.mp hl
  rfl

end Outline

namespace Grammar

open Outline

theorem depth_expressionOutline (e : Option Expression) (around : Nat) :
    Outline.depth around (expressionOutline e) = around := by
  cases e with
  | none => rfl
  | some e =>
    rw [expressionOutline, depth_single rfl, depth_wordLeaves]

/-- No part of a statement is a block. -/
theorem Statement.depth_parts (a : Statement) (around : Nat) :
    Outline.depth around a.parts = around := by
  cases a with
  | declaration type name brackets value =>
    rw [parts, depth_plain rfl, depth_plain rfl,
      depth_expressionOutline]
  | call name arguments =>
    rw [parts, depth_plain rfl, depth_single rfl, depth_wordLeaves]
  | ret value => exact depth_expressionOutline value around
  | assignment target operator value =>
    rw [parts, depth_plain rfl, depth_expressionOutline]

theorem Statement.isBlock_label (a : Statement) : a.label.kind.isBlock = false := by
  cases a <;> rfl

/-- A condition is no block, and neither is anything in it. -/
theorem Condition.depth_outline (c : Condition) (blocks : Outline) (around : Nat) :
    Outline.depth around (c.outline blocks) = Outline.depth around blocks := by
  rw [outline, depth_node rfl, depth_wordLeaves]
  exact Nat.max_eq_right (around_le_depth blocks around)

/-- What holds of all blocks smaller than an `else` with another `if` holds of the block of this `if` and of
    those in what follows it. -/
theorem Else.inner_of_chain {P : Body → Prop} {condition : Condition} {body : Body} {otherwise : Else}
    (h : ∀ b, sizeOf b < sizeOf (Else.chain condition body otherwise) → P b) :
    P body ∧ ∀ b, sizeOf b < sizeOf otherwise → P b := by
  rw [Else.chain.sizeOf_spec] at h
  exact ⟨h body (by omega), fun b hb => h b (by omega)⟩

/-- The depth of the tree of what follows the block of an `if`, once that of the blocks in it is
    known. -/
theorem Else.depth_outline (e : Else)
    (hinner : ∀ b : Body, sizeOf b < sizeOf e →
      ∀ around, Outline.depth around b.outline = around + b.depth) (around : Nat) :
    Outline.depth around e.outline = around + e.depth := by
  match e with
  | .nothing => rfl
  | .block body =>
    have hbody := hinner body (by simp)
    rw [Else.outline, Forest.single, depth_block rfl, hbody, Else.depth, Outline.depth]
    omega
  | .chain condition body otherwise =>
    obtain ⟨hbody, hinner⟩ := Else.inner_of_chain hinner
    rw [Else.outline, Forest.single, depth_block rfl, depth_single rfl,
      condition.depth_outline, depth_block rfl, hbody, otherwise.depth_outline hinner, Else.depth,
      Outline.depth]
    omega

/-- The depth of the trees of a block. -/
theorem Body.depth_outline (b : Body) (around : Nat) :
    Outline.depth around b.outline = around + b.depth := by
  match b with
  | .done => rfl
  | .simple a rest =>
    rw [Body.outline, depth_node a.isBlock_label, a.depth_parts, rest.depth_outline, Body.depth]
    omega
  | .loop kind condition body rest =>
    rw [Body.outline, depth_node kind.isBlock_nodeKind, condition.depth_outline, Forest.single,
      depth_block rfl, body.depth_outline, rest.depth_outline, Body.depth, Outline.depth]
    omega
  | .branch condition body otherwise rest =>
    -- the blocks in what follows are smaller than this one, though none of them is a part of it
    have hotherwise := otherwise.depth_outline fun b _ => b.depth_outline
    rw [Body.outline, depth_node rfl, condition.depth_outline, depth_block rfl,
      body.depth_outline, hotherwise, rest.depth_outline, Body.depth]
    omega
termination_by sizeOf b
decreasing_by
  all_goals
    simp only [Body.simple.sizeOf_spec, Body.loop.sizeOf_spec, Body.branch.sizeOf_spec]
    omega

/-- No parameter is a block. -/
theorem depth_parameters (parameters : List Parameter) (around : Nat) :
    Outline.depth around (parameters.foldr (fun p rest => p.outline ++ rest) .nil) = around := by
  induction parameters with
  | nil => rfl
  | cons p parameters ih =>
    rw [List.foldr_cons, depth_append, ih, Parameter.outline, depth_single rfl,
      depth_plain rfl, depth_single rfl]
    exact Nat.max_self around

theorem Function.depth_outline (f : Function) : Outline.depth 0 f.outline = f.depth := by
  rw [outline, depth_single rfl, depth_plain rfl,
    depth_plain rfl, depth_node rfl, depth_parameters, Nat.zero_max,
    depth]
  cases f.body with
  | none => rfl
  | some body =>
    rw [bodyOutline, Forest.single, depth_block rfl, body.depth_outline, Outline.depth,
      Option.map_some, Option.getD_some]
    omega

/-- **The depth of a program is the depth of its tree.** -/
theorem Program.depth_outline (p : Program) : Outline.depth 0 p.outline = p.depth := by
  rw [outline, depth_single rfl, depth]
  induction p.functions with
  | nil => rfl
  | cons f functions ih =>
    rw [List.foldr_cons, depth_append, f.depth_outline, ih, List.foldr_cons]

end Grammar

end BraceLang
