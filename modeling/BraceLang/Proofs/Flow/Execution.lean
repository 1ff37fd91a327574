import BraceLang.Flow.Layout
import BraceLang.Program.Tree
import Mathlib.Data.Stream.Defs

/-!
# `Proofs.Flow.Execution` — two ways to run a function

What the conditions of a program come to is not known, so a run takes their outcomes from a stream.
A function can then be run in two ways that know nothing of each other.

* **Along its syntax tree**, as its text reads: `Tree.run` works off a list of statements, and
  knows from the kind of a statement what is to be done after it.
* **Along its graph**: `Graph.walk` goes from node to node, and knows nothing but the successors.

A run need not end, so both stop after a number of visits that is given to them.

## Contents
- `Flow.Trace`, what a run has visited so far and whether it has ended.
- `Tree.kind?`, `Tree.blockIds` and `Tree.run`.
- `Node.next?` and `Graph.walk`.
-/

namespace BraceLang

namespace Flow

/-- What a run has come to: the numbers of the nodes of the syntax tree that it has visited, in
    order, and whether it has come to its end. -/
structure Trace where
  visited : List Nat
  finished : Bool
  deriving DecidableEq, Repr

/-- The trace of a run that visits one more node before all others. -/
def Trace.visit (id : Nat) (t : Trace) : Trace := ⟨id :: t.visited, t.finished⟩

end Flow

namespace Tree

/-- What the node with a number stands for. -/
def kind? (t : Tree) (id : Nat) : Option NodeKind := (t.get? id).map (·.label.kind)

/-- The numbers of the statements in the block of a kind that belongs to the node `id`. Without
    such a block there are none. -/
def blockIds (t : Tree) (id : Nat) (kind : NodeKind) : List Nat :=
  ((t.childOfKind? id kind).map (·.children)).getD []

/-- Runs the statements with the given numbers one after the other, for no more than the given
    number of visits.

An `if` is followed by the statements of its block or of its `else`, and then by what comes behind
it. A loop whose condition holds is followed by the statements of its block and then by itself, but
a loop with an empty block is left in any case. A `return` ends the run. -/
def run (t : Tree) : Nat → Stream' Bool → List Nat → Flow.Trace
  | _, _, [] => ⟨[], true⟩
  | 0, _, _ :: _ => ⟨[], false⟩
  | visits + 1, outcomes, id :: rest =>
    match t.kind? id with
    | some .ifStatement =>
      let block := t.blockIds id (if outcomes.head then .ifBody else .elseBranch)
      (t.run visits outcomes.tail (block ++ rest)).visit id
    | some .forStatement | some .whileStatement =>
      let block := t.blockIds id .loopBody
      let again := if outcomes.head && !block.isEmpty then block ++ [id] else []
      (t.run visits outcomes.tail (again ++ rest)).visit id
    | some .returnStatement => ⟨[id], true⟩
    | _ => (t.run visits outcomes rest).visit id

end Tree

namespace Flow

/-- The node that control goes to. At a decision this is the first successor if the condition holds
    and the last one if it does not; at any other node it is the only successor, and there is none
    if the node has several. -/
def Node.next? (n : Node) (outcome : Bool) : Option Nat :=
  if n.station.kind.isDecision then
    if outcome then n.successors.head? else n.successors.getLast?
  else
    match n.successors with
    | [next] => some next
    | _ => none

/-- Walks from a node of the graph towards the exit, for no more than the given number of visits.
    There is no walk at all through a node that leads nowhere or that comes from no node of the
    syntax tree. -/
def Graph.walk (g : Graph) : Nat → Stream' Bool → Nat → Option Trace
  | 0, _, id => some ⟨[], id == g.exit⟩
  | visits + 1, outcomes, id =>
    if id = g.exit then some ⟨[], true⟩
    else
      (g.node? id).bind fun n =>
      n.station.origin.bind fun origin =>
      (n.next? outcomes.head).bind fun next =>
      (g.walk visits (if n.station.kind.isDecision then outcomes.tail else outcomes) next).map
        (·.visit origin)

end Flow

end BraceLang
