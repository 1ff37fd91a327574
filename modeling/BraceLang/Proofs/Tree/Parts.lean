import BraceLang.Proofs.Tree.Depth
import BraceLang.Proofs.Tree.Shape
import BraceLang.Proofs.Tree.Walk

/-!
# `Proofs.Tree.Parts` — nodes that are neither statements nor blocks

Below a statement without a block, in a condition and before the body of a function stand only nodes
that are parts of something: types, names, parameters and rows of tokens. Whatever is counted or
collected about statements and blocks passes them by.

## Contents
- `NodeKind.isPart`, with `isStatement_of_isPart` and `isBlock_of_isPart`.
- `Outline.isPart_leaves`, `Simple.isPart_parts` and `Function.isPart_startOutline`.
-/

namespace BraceLang

namespace NodeKind

/-- Whether the node is a part of a statement or of the start of a function. -/
def isPart : NodeKind → Bool
  | .type | .identifier | .parameters | .parameter | .condition | .arguments | .expression
  | .leaf _ => true
  | _ => false

variable {kind : NodeKind}

theorem isStatement_of_isPart (h : kind.isPart = true) : kind.isStatement = false := by
  cases kind <;> first | rfl | nomatch h

theorem isBlock_of_isPart (h : kind.isPart = true) : kind.isBlock = false := by
  cases kind <;> first | rfl | nomatch h

end NodeKind

namespace Outline

theorem isPart_leaves (tokens : List Token) :
    ∀ l ∈ (leaves tokens).labels, l.kind.isPart = true := by
  rw [leaves, labels_ofLabels]
  intro l hl
  obtain ⟨t, -, rfl⟩ := List.mem_map.mp hl
  rfl

theorem isPart_expression (tokens : List Token) :
    ∀ l ∈ (expression tokens).labels, l.kind.isPart = true := by
  cases tokens with
  | nil => exact fun _ hl => absurd hl List.not_mem_nil
  | cons t tokens =>
    rw [expression, Forest.single, Forest.labels_node, Forest.labels_nil, List.append_nil]
    exact List.forall_mem_cons.mpr ⟨rfl, isPart_leaves _⟩

end Outline

/-- Below a statement without a block stand only parts of it. -/
theorem Simple.isPart_parts (s : Simple) : ∀ l ∈ s.parts.labels, l.kind.isPart = true := by
  cases s with
  | declaration type name suffix initializer semicolon =>
    simp only [parts, Forest.labels_node, Forest.labels_nil, List.nil_append]
    exact List.forall_mem_cons.mpr ⟨rfl, List.forall_mem_cons.mpr ⟨rfl,
      Outline.isPart_expression _⟩⟩
  | call name opening arguments closing semicolon =>
    simp only [parts, Forest.single, Forest.labels_node, Forest.labels_nil, List.nil_append,
      List.append_nil]
    exact List.forall_mem_cons.mpr ⟨rfl, List.forall_mem_cons.mpr ⟨rfl,
      Outline.isPart_leaves _⟩⟩
  | ret keyword value semicolon => exact Outline.isPart_expression _
  | assignment target operator value semicolon =>
    simp only [parts, Forest.labels_node, Forest.labels_nil, List.nil_append]
    exact List.forall_mem_cons.mpr ⟨rfl, Outline.isPart_expression _⟩

/-- The kinds of the nodes that come before the body of a function. -/
theorem Function.kind_startOutline (f : Function) : ∀ l ∈ f.startOutline.labels,
    l.kind ∈ [NodeKind.type, .identifier, .parameters, .parameter] := by
  have hitems (items : List ParameterItem) : ∀ l ∈ (items.foldr (fun i rest => i.outline ++ rest)
      (.nil : Outline)).labels, l.kind ∈ [NodeKind.type, .identifier, .parameters, .parameter] := by
    induction items with
    | nil => exact fun _ hl => absurd hl List.not_mem_nil
    | cons i items ih =>
      rw [List.foldr_cons, Forest.labels_append]
      refine List.forall_mem_append.mpr ⟨?_, ih⟩
      cases i with
      | skipped t => exact fun _ hl => absurd hl List.not_mem_nil
      | parameter type name =>
        simp [ParameterItem.outline, Forest.single, Label.ofToken, Label.covering]
  simp only [startOutline, ParameterList.outline, Forest.single, Forest.labels_node,
    Forest.labels_nil, List.nil_append, List.append_nil, List.forall_mem_cons]
  refine ⟨?_, ?_, ?_, hitems _⟩ <;> simp [Label.ofToken, Label.covering]

/-- What comes before the body of a function are only parts of it. -/
theorem Function.isPart_startOutline (f : Function) :
    ∀ l ∈ f.startOutline.labels, l.kind.isPart = true := by
  intro l hl
  have hkind := f.kind_startOutline l hl
  simp only [List.mem_cons, List.not_mem_nil, or_false] at hkind
  rcases hkind with h | h | h | h <;> rw [h] <;> rfl

end BraceLang
