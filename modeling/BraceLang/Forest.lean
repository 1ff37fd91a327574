/-!
# `Forest` — ordered trees

An ordered forest is a sequence of trees, and each tree carries a label over the forest of its
children. Both the outline of a program and the scopes of its functions are forests. A tree is a
forest of one: the type has a single recursive form, so one induction covers the trees, their
children and their siblings.

## Contents
- `Forest`, its `size` and `width`, `labels` and `subtrees` in pre-order, `append` and `map`.
- `Forest.trees`, the trees at the top, and `Forest.visit`, which works off a stack of trees.
- `Forest.at?` and `Forest.modifyAt`, which address a tree by a path of child indices.
-/

namespace BraceLang

/-- An ordered forest: either empty, or a first tree (its label and the forest of its children)
    followed by the trees to the right of it. -/
inductive Forest (α : Type) where
  | nil
  | node (label : α) (children siblings : Forest α)
  deriving DecidableEq, Repr, Inhabited

namespace Forest

variable {α β : Type}

/-- The forest of one tree. -/
def single (label : α) (children : Forest α) : Forest α :=
  .node label children .nil

/-- One childless tree for each label, in order. -/
def ofLabels : List α → Forest α
  | [] => .nil
  | a :: as => .node a .nil (ofLabels as)

/-- The trees of one forest followed by those of another. -/
def append : Forest α → Forest α → Forest α
  | .nil, g => g
  | .node a c s, g => .node a c (s.append g)

instance : Append (Forest α) := ⟨append⟩

@[simp] theorem nil_append (g : Forest α) : (.nil : Forest α) ++ g = g := rfl

@[simp] theorem node_append (a : α) (c s g : Forest α) :
    Forest.node a c s ++ g = .node a c (s ++ g) := rfl

/-- The number of labels in the forest. -/
def size : Forest α → Nat
  | .nil => 0
  | .node _ c s => 1 + c.size + s.size

@[simp] theorem size_append (f g : Forest α) : (f ++ g).size = f.size + g.size := by
  induction f with
  | nil => simp [size]
  | node a c s _ ih => simp [size, ih]; omega

@[simp] theorem size_ofLabels (as : List α) : (ofLabels as).size = as.length := by
  induction as with
  | nil => rfl
  | cons a as ih => simp [ofLabels, size, ih]; omega

/-- The number of trees side by side at the top of the forest. -/
def width : Forest α → Nat
  | .nil => 0
  | .node _ _ s => 1 + s.width

/-- The labels at the top of the forest, from left to right. -/
def roots : Forest α → List α
  | .nil => []
  | .node a _ s => a :: s.roots

@[simp] theorem length_roots (f : Forest α) : f.roots.length = f.width := by
  induction f with
  | nil => rfl
  | node a c s _ ih => simp [roots, width, ih]; omega

/-- The trees at the top of the forest, from left to right: the label of each over its children. -/
def trees : Forest α → List (α × Forest α)
  | .nil => []
  | .node a c s => (a, c) :: s.trees

/-- The number of labels in a stack of trees. -/
def pending : List (α × Forest α) → Nat
  | [] => 0
  | (_, c) :: stack => 1 + c.size + pending stack

theorem pending_trees_append (f : Forest α) (stack : List (α × Forest α)) :
    pending (f.trees ++ stack) = f.size + pending stack := by
  induction f with
  | nil => exact (Nat.zero_add _).symm
  | node a c s _ ih => simp [trees, pending, size, ih, Nat.add_assoc]

/-- The labels that are met when a stack of trees is worked off. The tree on top gives its label, and
    its children take its place, the first of them on top. -/
def visit : List (α × Forest α) → List α
  | [] => []
  | (a, c) :: stack => a :: visit (c.trees ++ stack)
termination_by stack => pending stack
decreasing_by
  rw [pending_trees_append, pending]
  omega

/-- Each label with the forest below it, in pre-order: a tree before its children, and these
    before the trees to the right. -/
def subtrees : Forest α → List (α × Forest α)
  | .nil => []
  | .node a c s => (a, c) :: (c.subtrees ++ s.subtrees)

/-- The labels in pre-order. -/
def labels (f : Forest α) : List α :=
  f.subtrees.map (·.1)

@[simp] theorem labels_nil : (.nil : Forest α).labels = [] := rfl

@[simp] theorem labels_node (a : α) (c s : Forest α) :
    (Forest.node a c s).labels = a :: (c.labels ++ s.labels) := by
  simp [labels, subtrees]

@[simp] theorem labels_append (f g : Forest α) : (f ++ g).labels = f.labels ++ g.labels := by
  induction f with
  | nil => rfl
  | node a c s _ ih => simp [ih]

@[simp] theorem length_labels (f : Forest α) : f.labels.length = f.size := by
  induction f with
  | nil => rfl
  | node a c s ihc ihs => simp [size, ihc, ihs]; omega

/-- The forest of the same shape with each label changed by `f`. -/
def map (f : α → β) : Forest α → Forest β
  | .nil => .nil
  | .node a c s => .node (f a) (c.map f) (s.map f)

@[simp] theorem labels_map (f : α → β) (t : Forest α) : (t.map f).labels = t.labels.map f := by
  induction t with
  | nil => rfl
  | node a c s ihc ihs => simp [map, ihc, ihs]

/-- The tree at the top of the forest with the given index. -/
def tree? : Forest α → Nat → Option (α × Forest α)
  | .nil, _ => none
  | .node a c _, 0 => some (a, c)
  | .node _ _ s, i + 1 => s.tree? i

/-- The label and the children of the tree that a path of child indices leads to: the first index
    selects a tree at the top, each further one a child of the tree reached so far. -/
def at? (f : Forest α) : List Nat → Option (α × Forest α)
  | [] => none
  | [i] => f.tree? i
  | i :: path => (f.tree? i).bind fun t => t.2.at? path

/-- The forest with one top tree replaced, given as a change of its label and its children. An
    index beyond the last tree changes nothing. -/
def modifyTree (change : α → Forest α → α × Forest α) : Forest α → Nat → Forest α
  | .nil, _ => .nil
  | .node a c s, 0 => .node (change a c).1 (change a c).2 s
  | .node a c s, i + 1 => .node a c (s.modifyTree change i)

/-- The forest with the tree at the end of a path replaced. A path that leads nowhere changes
    nothing. -/
def modifyAt (change : α → Forest α → α × Forest α) (f : Forest α) : List Nat → Forest α
  | [] => f
  | [i] => f.modifyTree change i
  | i :: path => f.modifyTree (fun a c => (a, c.modifyAt change path)) i

end Forest

end BraceLang
