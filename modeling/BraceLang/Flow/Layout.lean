import BraceLang.Flow.Station

/-!
# `Flow.Layout` — the two ways to lay out the edges of a graph

Statements are numbered in source order from 1 on, between the entry 0 and the exit, so the first
statement of a block has the number that follows the statement that the block belongs to. Both
layouts are read off the code with the number of its first statement in hand.

The **chained** layout lists what follows what in the source. A statement leads to the next one of
its block, but an `if` and a `return` lead nowhere of themselves; a statement with blocks leads to
the first statement of each block before that. The exit is appended to the node at which the last
successors end. Every edge leads to a greater number, so the layout has no cycles.

The **joined** layout lists where control goes. A block hands over to the statement behind it, the
body of a loop to the loop, and a `return` to the exit.

## Contents
- `Code.heads`, the way into a block.
- `Code.chainedEdges`, `Flow.follow` and `Flow.chained`.
- `Code.entryOr`, `Code.joinedEdges` and `Flow.joined`.
- `Function.graph` and `Program.graph?`.
-/

namespace BraceLang

namespace Code

/-- The way into some code of which the first statement has the number `n`, if there is one. -/
def heads (c : Code) (n : Nat) : List Nat := if c.isEmpty then [] else [n]

/-- The successors of the statements of some code in the chained layout, when the first statement
    has the number `n`. -/
def chainedEdges (n : Nat) : Code → List (List Nat)
  | done => []
  | skip _ rest => rest.chainedEdges n
  | simple s rest =>
    (if s.isReturn then [] else rest.heads (n + 1)) :: rest.chainedEdges (n + 1)
  | loop _ _ body _ rest =>
    let after := n + 1 + body.statementCount
    (body.heads (n + 1) ++ rest.heads after) ::
      (body.chainedEdges (n + 1) ++ rest.chainedEdges after)
  | ifThen _ body _ rest =>
    let after := n + 1 + body.statementCount
    body.heads (n + 1) :: (body.chainedEdges (n + 1) ++ rest.chainedEdges after)
  | ifThenElse _ body _ _ other _ rest =>
    let middle := n + 1 + body.statementCount
    let after := middle + other.statementCount
    (body.heads (n + 1) ++ other.heads middle) ::
      (body.chainedEdges (n + 1) ++ (other.chainedEdges middle ++ rest.chainedEdges after))

/-- Where control enters some code of which the first statement has the number `n`. Code without
    statements hands over to `next` at once. -/
def entryOr (c : Code) (n next : Nat) : Nat := if c.isEmpty then next else n

/-- The successors of the statements of some code in the joined layout, when the first statement
    has the number `n` and control goes to `next` behind the code. A decision that has statements
    to go to lists the way of a true condition first. -/
def joinedEdges (exit next n : Nat) : Code → List (List Nat)
  | done => []
  | skip _ rest => rest.joinedEdges exit next n
  | simple s rest =>
    [if s.isReturn then exit else rest.entryOr (n + 1) next] ::
      rest.joinedEdges exit next (n + 1)
  | loop _ _ body _ rest =>
    let after := n + 1 + body.statementCount
    (body.heads (n + 1) ++ [rest.entryOr after next]) ::
      (body.joinedEdges exit n (n + 1) ++ rest.joinedEdges exit next after)
  | ifThen _ body _ rest =>
    let after := n + 1 + body.statementCount
    let join := rest.entryOr after next
    (body.heads (n + 1) ++ [join]) ::
      (body.joinedEdges exit join (n + 1) ++ rest.joinedEdges exit next after)
  | ifThenElse _ body _ _ other _ rest =>
    let middle := n + 1 + body.statementCount
    let after := middle + other.statementCount
    let join := rest.entryOr after next
    (if body.isEmpty && other.isEmpty then [join]
      else [body.entryOr (n + 1) join, other.entryOr middle join]) ::
      (body.joinedEdges exit join (n + 1) ++
        (other.joinedEdges exit join middle ++ rest.joinedEdges exit next after))

/-- Each statement has its successors in the chained layout. -/
theorem length_chainedEdges (n : Nat) (c : Code) :
    (c.chainedEdges n).length = c.statementCount := by
  induction c generalizing n <;> simp_all [chainedEdges, statementCount] <;> omega

/-- Each statement has its successors in the joined layout. -/
theorem length_joinedEdges (exit next n : Nat) (c : Code) :
    (c.joinedEdges exit next n).length = c.statementCount := by
  induction c generalizing next n <;> simp_all [joinedEdges, statementCount] <;> omega

end Code

namespace Flow

/-- The ways to lay out the edges of a graph. -/
inductive Layout
  | chained
  | joined
  deriving DecidableEq, Repr

/-- The layout that a switch for joining selects. -/
def Layout.ofJoins (joins : Bool) : Layout := if joins then .joined else .chained

/-- The node at which the way along last successors ends. In a graph whose edges lead to greater
    numbers the way has no more steps than there are nodes, which is what `fuel` is for. -/
def follow (edges : Array (List Nat)) : Nat → Nat → Nat
  | 0, id => id
  | fuel + 1, id =>
    match edges[id]?.bind List.getLast? with
    | some next => follow edges fuel next
    | none => id

/-- The successors of all nodes in the chained layout. -/
def chained (c : Code) : List (List Nat) :=
  let exit := c.statementCount + 1
  let edges := c.heads 1 :: c.chainedEdges 1
  let last := follow edges.toArray edges.length Graph.entry
  edges.modify last (· ++ [exit]) ++ [[]]

/-- The successors of all nodes in the joined layout. -/
def joined (c : Code) : List (List Nat) :=
  let exit := c.statementCount + 1
  [c.entryOr 1 exit] :: (c.joinedEdges exit exit 1 ++ [[]])

/-- The successors of all nodes in a layout. -/
def Layout.edges : Layout → Code → List (List Nat)
  | .chained => Flow.chained
  | .joined => Flow.joined

end Flow

/-- The control-flow graph of a function that has the number `id` in the syntax tree. -/
def Function.graph (layout : Flow.Layout) (id : Nat) (f : Function) : Flow.Graph :=
  ⟨f.name.text, (List.zipWith Flow.Node.mk (f.stations id) (layout.edges f.code)).toArray⟩

/-- The function with a name, and its number in the syntax tree. Of several functions of one name
    this is the first that has a body, or the first if none has. -/
def Program.function? (p : Program) (name : String) : Option (Nat × Function) :=
  let candidates := p.numberedFunctions.filter fun (_, f) => f.name.text == name
  candidates.find? (fun (_, f) => f.body.isSome) <|> candidates.head?

/-- The control-flow graph of the function with a name. -/
def Program.graph? (layout : Flow.Layout) (p : Program) (name : String) : Option Flow.Graph :=
  (p.function? name).map fun (id, f) => f.graph layout id

end BraceLang
