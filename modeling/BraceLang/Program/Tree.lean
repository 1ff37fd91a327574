import BraceLang.Failure
import BraceLang.Program.Outline

/-!
# `Program.Tree` — the syntax tree as a table of numbered nodes

The nodes of an outline are numbered from 0 in pre-order, and a table of all nodes answers
questions about any of them by its number. Since a parent comes before its children, the children
of a node bear greater numbers than the node, and the nodes of a subtree are numbered without a
gap.

## Contents
- `Tree.Node` and `Tree`, with `Tree.ofOutline`, the numbering.
- Questions about a node: `get?`, `node`, `children`, `childOfKind?`, `childText`, `descendants`,
  `leafText`.
- Questions about the program: `functions`, `findFunction?`.
-/

namespace BraceLang

/-- A node of the table: its number, what it stands for, and the numbers of its children. -/
structure Tree.Node where
  id : Nat
  label : Label
  children : List Nat
  deriving DecidableEq, Repr, Inhabited

/-- A syntax tree. The node with the number `i` is the `i`-th of the table, and the node 0 is the
    root. -/
structure Tree where
  nodes : Array Tree.Node
  deriving Repr

namespace Outline

/-- The numbers of the trees at the top of an outline that is numbered from `base`. -/
def rootIds (base : Nat) : Outline → List Nat
  | .nil => []
  | .node _ children siblings => base :: rootIds (base + 1 + children.size) siblings

/-- The nodes of an outline, numbered from `base` in pre-order. -/
def number (base : Nat) : Outline → List Tree.Node
  | .nil => []
  | .node l children siblings =>
    ⟨base, l, rootIds (base + 1) children⟩ ::
      (number (base + 1) children ++ number (base + 1 + children.size) siblings)

@[simp] theorem length_number (base : Nat) (o : Outline) : (number base o).length = o.size := by
  induction o generalizing base with
  | nil => rfl
  | node l c s ihc ihs => simp [number, Forest.size, ihc, ihs]; omega

end Outline

namespace Tree

/-- The table of the nodes of an outline. -/
def ofOutline (o : Outline) : Tree := ⟨(o.number 0).toArray⟩

/-- The number of the root. -/
def root : Nat := 0

/-- The number of nodes. -/
def size (t : Tree) : Nat := t.nodes.size

/-- Whether there is no node at all. -/
def isEmpty (t : Tree) : Bool := t.nodes.isEmpty

/-- The node with a number. -/
def get? (t : Tree) (id : Nat) : Option Node := t.nodes[id]?

/-- The node with a number, for a caller that cannot do without it. -/
def node (t : Tree) (id : Nat) : Except Failure Node :=
  match t.get? id with
  | some n => .ok n
  | none => .error (.invalidNode id)

/-- The children of a node, in order. An unknown number has none. -/
def children (t : Tree) (id : Nat) : List Node :=
  match t.get? id with
  | some n => n.children.filterMap t.get?
  | none => []

/-- The first child of a node that is of a kind. -/
def childOfKind? (t : Tree) (id : Nat) (kind : NodeKind) : Option Node :=
  (t.children id).find? (·.label.kind == kind)

/-- The text of the first child of a node that is of a kind, or the empty text. -/
def childText (t : Tree) (id : Nat) (kind : NodeKind) : String :=
  ((t.childOfKind? id kind).map (·.label.text)).getD ""

/-- The nodes that a stack of numbers leads to: the number on top first, then what is below it,
    then the rest of the stack. The walk ends after `fuel` numbers. -/
def walk (t : Tree) : Nat → List Nat → List Node
  | 0, _ => []
  | _ + 1, [] => []
  | fuel + 1, id :: stack =>
    match t.get? id with
    | some n => n :: t.walk fuel (n.children ++ stack)
    | none => t.walk fuel stack

/-- A node and all nodes below it, in pre-order. No walk over a tree meets more numbers than there
    are nodes. -/
def descendants (t : Tree) (id : Nat) : List Node := t.walk t.size [id]

/-- The texts of the leaves below a node, with single blanks between them. -/
def leafText (t : Tree) (id : Nat) : String :=
  " ".intercalate (((t.descendants id).filter (·.label.kind.isLeaf)).map (·.label.text))

/-- The functions of the program, in source order. -/
def functions (t : Tree) : List Node :=
  (t.children root).filter (·.label.kind == .functionDeclaration)

/-- The first function with a name. -/
def findFunction? (t : Tree) (name : String) : Option Node :=
  t.functions.find? (·.label.text == name)

end Tree

/-- The syntax tree of a program. -/
def Program.tree (p : Program) : Tree := .ofOutline p.outline

end BraceLang
