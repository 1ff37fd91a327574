import BraceLang.Proofs.Tree.Depth
import BraceLang.Proofs.Token.Balance

/-!
# `Proofs.Tree.Bare` — a tree without the places of its nodes

What a program is does not depend on where its words stand. A **bare** tree keeps the kinds, the
values and the children of all nodes and gives up their positions and spans, so the trees of two
texts with the same words can be compared.

## Contents
- `Label.plain`, a label without a place, and `Label.bare`, `Outline.bare` and `Tree.bare`.
- `bare_ofOutline` and `depth_bare`: numbers, children and depths stay.
- `Outline.wordLeaves`, the leaves of a run of words, and `bare_leaves`.
-/

namespace BraceLang

namespace Label

/-- The label of a node that stands nowhere. -/
def plain (kind : NodeKind) (value : Option String) : Label := ⟨kind, value, default, default, default⟩

/-- The label without its place. -/
def bare (l : Label) : Label := plain l.kind l.value

end Label

/-- The outline without the places of its nodes. -/
def Outline.bare (o : Outline) : Outline := o.map Label.bare

/-- The tree without the places of its nodes. -/
def Tree.bare (t : Tree) : Tree := ⟨t.nodes.map fun n => ⟨n.id, n.label.bare, n.children⟩⟩

namespace Outline

/-- The leaves of a run of words. -/
def wordLeaves (run : List Word) : Outline :=
  .ofLabels (run.map fun w => .plain (.leaf w.kind) (some w.text))

@[simp] theorem bare_node (l : Label) (children siblings : Outline) :
    bare (.node l children siblings) = .node l.bare children.bare siblings.bare := rfl

theorem bare_append (o more : Outline) : (o ++ more).bare = o.bare ++ more.bare := by
  induction o with
  | nil => rfl
  | node l c s _ ihs => rw [Forest.node_append, bare_node, ihs, bare_node, Forest.node_append]

@[simp] theorem bare_leaves (run : List Token) : (leaves run).bare = wordLeaves (words run) := by
  induction run with
  | nil => rfl
  | cons t run ih => exact congrArg (Forest.node _ .nil) ih

theorem size_bare (o : Outline) : o.bare.size = o.size := by
  induction o with
  | nil => rfl
  | node l c s ihc ihs => rw [bare_node, Forest.size, Forest.size, ihc, ihs]

theorem rootIds_bare (o : Outline) (base : Nat) : o.bare.rootIds base = o.rootIds base := by
  induction o generalizing base with
  | nil => rfl
  | node l c s _ ihs => rw [bare_node, rootIds, rootIds, size_bare, ihs]

theorem number_bare (o : Outline) (base : Nat) :
    o.bare.number base = (o.number base).map fun n => ⟨n.id, n.label.bare, n.children⟩ := by
  induction o generalizing base with
  | nil => rfl
  | node l c s ihc ihs =>
    rw [bare_node, number, number, rootIds_bare, size_bare, ihc, ihs, List.map_cons, List.map_append]

/-- How deep an outline is does not depend on places. -/
theorem depth_bare (o : Outline) (around : Nat) : o.bare.depth around = o.depth around := by
  induction o generalizing around with
  | nil => rfl
  | node l c s ihc ihs =>
    rw [bare_node, depth, depth, ihs, ihc]
    rfl

end Outline

/-- The numbers and the children of nodes do not depend on places. -/
theorem Tree.bare_ofOutline (o : Outline) : (ofOutline o).bare = ofOutline o.bare := by
  rw [Tree.bare, ofOutline, ofOutline, Outline.number_bare, List.map_toArray]

end BraceLang
