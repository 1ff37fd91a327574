/-!
# `Flow.Graph` — control-flow graphs

The graph of a function has a node for its entry, one for each of its statements in source order,
and one for its exit. Nodes are numbered in this order, and each lists its successors by number.
What a node stands for, its **station**, does not depend on how the graph is laid out; only the
successors do.

## Contents
- `Flow.Kind`, `Flow.Station`, `Flow.Node` and `Flow.Graph`, with the written form of a node.
- `Graph.reachable`, the nodes that can be reached from the entry, by depth-first search.
- `Graph.describe`, the edges as text.
-/

namespace BraceLang.Flow

/-- What a node of the graph stands for. -/
inductive Kind
  | entry
  | exit
  | branch
  | call
  | ret
  | statement
  | whileLoop
  | forLoop
  deriving DecidableEq, Repr, Inhabited

namespace Kind

/-- Every kind of node. -/
def all : List Kind :=
  [.entry, .exit, .branch, .call, .ret, .statement, .whileLoop, .forLoop]

/-- The displayed name of a kind of node. -/
def name : Kind → String
  | .entry => "ENTRY"
  | .exit => "EXIT"
  | .branch => "IF"
  | .call => "CALL"
  | .ret => "RETURN"
  | .statement => "STATEMENT"
  | .whileLoop => "WHILE"
  | .forLoop => "FOR"

/-- Whether a condition decides where control goes next. -/
def isDecision : Kind → Bool
  | .branch | .whileLoop | .forLoop => true
  | _ => false

/-- Whether the node is the header of a loop. -/
def isLoop : Kind → Bool
  | .whileLoop | .forLoop => true
  | _ => false

end Kind

/-- What a node stands for: its kind, the condition of a decision, a short text of the statement,
    and the number of the node of the syntax tree that it comes from. -/
structure Station where
  kind : Kind
  condition : Option String
  label : String
  origin : Option Nat
  deriving DecidableEq, Repr, Inhabited

/-- The written form of a node is its kind with its text in parentheses; of the entry and of the
    exit it is the kind alone. -/
instance : ToString Station where
  toString s := match s.kind with
    | .entry | .exit => s.kind.name
    | kind => kind.name ++ "(" ++ s.label ++ ")"

/-- A node of the graph: its station and the numbers of its successors, in order. -/
structure Node where
  station : Station
  successors : List Nat
  deriving DecidableEq, Repr, Inhabited

/-- The control-flow graph of a function. The node with the number `i` is the `i`-th of the table;
    the entry is the first node and the exit the last. -/
structure Graph where
  function : String
  nodes : Array Node
  deriving Repr

namespace Graph

/-- The number of the entry. -/
def entry : Nat := 0

/-- The number of nodes. -/
def size (g : Graph) : Nat := g.nodes.size

/-- The number of the exit. -/
def exit (g : Graph) : Nat := g.size - 1

/-- The node with a number. -/
def node? (g : Graph) (id : Nat) : Option Node := g.nodes[id]?

/-- The successors of a node. An unknown number has none. -/
def successors (g : Graph) (id : Nat) : List Nat := ((g.node? id).map (·.successors)).getD []

/-- The number of edges. -/
def edgeCount (g : Graph) : Nat := (g.nodes.toList.flatMap (·.successors)).length

/-- The number of nodes at which a condition decides. -/
def decisionCount (g : Graph) : Nat := g.nodes.toList.countP (·.station.kind.isDecision)

/-- The numbers of the nodes of a kind. -/
def nodesOfKind (g : Graph) (kind : Kind) : List Nat :=
  (List.range g.size).filter fun id => (g.node? id).any (·.station.kind == kind)

/-- Depth-first search: takes numbers from a stack, and puts the successors of each node that is
    seen for the first time on the stack, the first successor on top. Gives the nodes seen, the
    latest first. The search ends after `fuel` numbers. -/
def search (g : Graph) : Nat → List Nat → List Nat → List Nat
  | 0, _, seen => seen
  | _ + 1, [], seen => seen
  | fuel + 1, id :: stack, seen =>
    if (g.node? id).isNone || seen.contains id then g.search fuel stack seen
    else g.search fuel (g.successors id ++ stack) (id :: seen)

/-- The nodes that can be reached from the entry, in the order in which depth-first search meets
    them. Beside the entry, a number is only put on the stack for an edge, and for each edge once,
    so the search has come to its end when it has taken that many. -/
def reachable (g : Graph) : List Nat := (g.search (g.edgeCount + 1) [entry] []).reverse

/-- Whether a node can be reached from the entry. -/
def isReachable (g : Graph) (id : Nat) : Bool := g.reachable.contains id

/-- The edges as text, one `from -> to` on each line, by node and then by successor. -/
def describe (g : Graph) : String :=
  String.join (g.nodes.toList.flatMap fun n =>
    (n.successors.filterMap g.node?).map fun m =>
      toString n.station ++ " -> " ++ toString m.station ++ "\n")

end Graph

end BraceLang.Flow
