import BraceLang.Flow.Layout
import BraceLang.Program.Tree

/-!
# `Flow.Builder` — control-flow graphs built by walking the syntax tree

A builder walks the blocks of a function and adds a node for each statement that it comes to. The
syntax tree may be any table of nodes: a number that a node lists as a child and that no node bears
ends the building with a failure. For the tree of a program that never happens, and the graph is
that of `Program.graph?`.

In the **chained** layout a statement is linked as soon as the next one of its block is built. In the
**joined** layout the end of a statement cannot be linked before what follows it is known, so the
builder carries the open ends along; every `return` waits for the exit.

## Contents
- `Flow.Draft`, an unfinished graph, with `push` and `addEdge`, and `Flow.Build`.
- `Tree.statementLabel`, `Tree.pushSimple`, `Tree.pushHeader`: the node of a statement.
- `Tree.chainedBlock` and `Tree.joinedBlock`, the nodes of a block.
- `Tree.buildChained`, `Tree.buildJoined` and `Tree.graph?`.
-/

namespace BraceLang

namespace Flow

/-- A graph that is being built, and the numbers of the `return` statements in it that have not
    been linked so far. -/
structure Draft where
  nodes : Array Node
  returns : List Nat

/-- A step in building a graph, which may fail. -/
abbrev Build := StateT Draft (Except Failure)

/-- The node with one more successor behind those it has. -/
def Node.addSuccessor (target : Nat) (v : Node) : Node :=
  { v with successors := v.successors ++ [target] }

/-- Adds a node without successors, and gives its number. -/
def push (station : Station) : Build Nat :=
  modifyGet fun draft => (draft.nodes.size, { draft with nodes := draft.nodes.push ⟨station, []⟩ })

/-- Changes a node. A number that no node has changes nothing. -/
def modifyNode (id : Nat) (change : Node → Node) : Build Unit :=
  modify fun draft => { draft with nodes := draft.nodes.modify id change }

/-- Links a node to another one, behind the successors it has. -/
def addEdge (source target : Nat) : Build Unit := modifyNode source (·.addSuccessor target)

/-- An end of a statement that is not linked yet. -/
inductive Tail
  /-- The target becomes the last successor. -/
  | next (id : Nat)
  /-- The target becomes the first successor, for the way of a true condition is still missing. -/
  | fallthrough (id : Nat)
  deriving DecidableEq, Repr

/-- Links an open end. -/
def Tail.link (target : Nat) : Tail → Build Unit
  | next id => addEdge id target
  | fallthrough id => modifyNode id fun v => { v with successors := target :: v.successors }

/-- A statement or a block that has been built: where control enters it, and its open ends. -/
structure Fragment where
  head : Nat
  tails : List Tail
  deriving DecidableEq, Repr

/-- The header that a node of the syntax tree has, if it is a statement with blocks: the kind of
    node that it becomes, its keyword, and the kinds of its blocks. -/
def header? : NodeKind → Option (Kind × String × List NodeKind)
  | .ifStatement => some (.branch, HeaderKind.conditional.keyword, [.ifBody, .elseBranch])
  | .forStatement => some (.forLoop, LoopKind.forLoop.keyword, [.loopBody])
  | .whileStatement => some (.whileLoop, LoopKind.whileLoop.keyword, [.loopBody])
  | _ => none

end Flow

namespace Tree

open BraceLang.Flow

/-- A statement without a block as a short text. -/
def statementLabel (t : Tree) (statement : Node) : String :=
  let expression := (t.childOfKind? statement.id .expression).map fun e => t.leafText e.id
  let identifier := t.childText statement.id .identifier
  match statement.label.kind with
  | .variableDeclaration =>
    t.childText statement.id .type ++ " " ++ identifier ++
      (match expression with
        | some value => " = " ++ value
        | none => "")
  | .functionCall =>
    statement.label.text ++ "(" ++ ", ".intercalate
      (((t.childOfKind? statement.id .arguments).map fun arguments =>
        (t.children arguments.id).map (·.label.text)).getD []) ++ ")"
  | .returnStatement =>
    match expression with
    | some value => "return " ++ value
    | none => "return"
  | .assignment => identifier ++ " " ++ statement.label.text ++ " " ++ expression.getD ""
  | kind => kind.name.toLower

/-- The kind of node that a statement without a block becomes. -/
def simpleKind : NodeKind → Flow.Kind
  | .returnStatement => .ret
  | .functionCall => .call
  | _ => .statement

/-- Adds the node of a statement without a block. -/
def pushSimple (t : Tree) (statement : Node) : Build Nat :=
  push ⟨simpleKind statement.label.kind, none, t.statementLabel statement, some statement.id⟩

/-- Adds the node of a statement with blocks. -/
def pushHeader (t : Tree) (kind : Flow.Kind) (keyword : String) (statement : Node) : Build Nat :=
  let condition := (t.childOfKind? statement.id .condition).map fun c => t.leafText c.id
  push ⟨kind, condition, keyword ++ " (" ++ condition.getD "" ++ ")", some statement.id⟩

/-! ## The chained layout -/

/-- Links a node to the statement behind it in its block, unless it is a decision between branches
    or a `return`. -/
def chain (target : Nat) (v : Flow.Node) : Flow.Node :=
  if v.station.kind = .branch ∨ v.station.kind = .ret then v else v.addSuccessor target

/-- Adds the exit, and hangs it on the node at which the last successors end. -/
def hangExit (entry : Nat) : Build Unit := do
  let exit ← push exitStation
  let draft ← get
  addEdge (follow (draft.nodes.map (·.successors)) exit entry) exit

/-- Adds the nodes of the block of a kind that the statement `origin` has, where `block` builds a
    block, and links the node `id` of the statement to the first of them. -/
def chainedBranch (t : Tree) (block : Nat → Build (Option Nat)) (id origin : Nat)
    (kind : NodeKind) : Build Unit := do
  if let some body := t.childOfKind? origin kind then
    if let some head ← block body.id then addEdge id head

/-- Adds the nodes of a statement and of its blocks, where `block` builds a block. -/
def chainedStatement (t : Tree) (block : Nat → Build (Option Nat)) (statement : Node) :
    Build Nat :=
  match header? statement.label.kind with
  | none => t.pushSimple statement
  | some (kind, keyword, blocks) => do
    let id ← t.pushHeader kind keyword statement
    blocks.forM (t.chainedBranch block id statement.id)
    return id

/-- Adds the nodes of a statement and links the one before it in its block, which is the second
    number of `ends`; the first one is where the block begins. -/
def chainedStep (t : Tree) (block : Nat → Build (Option Nat)) (ends : Option Nat × Option Nat)
    (statementId : Nat) : Build (Option Nat × Option Nat) := do
  let statement ← liftM (t.node statementId)
  let id ← t.chainedStatement block statement
  if let some previous := ends.2 then modifyNode previous (chain id)
  return (ends.1 <|> some id, some id)

/-- Adds the nodes of a block, and gives the number of the first one. -/
def chainedBlock (t : Tree) : Nat → Nat → Build (Option Nat)
  | 0, id => throw (.invalidNode id)
  | fuel + 1, id => do
    let node ← liftM (t.node id)
    let ends ← node.children.foldlM (t.chainedStep (t.chainedBlock fuel)) (none, none)
    return ends.1

/-- Adds everything behind the entry of the function `origin`. -/
def buildChained (t : Tree) (entry origin : Nat) : Build Unit := do
  t.chainedBranch (t.chainedBlock t.size) entry origin .functionBody
  hangExit entry

/-! ## The joined layout -/

/-- Adds the nodes of the block of a kind that the statement `origin` has, where `block` builds a
    block. -/
def joinedBranch (t : Tree) (block : Nat → Build (Option Fragment)) (origin : Nat)
    (kind : NodeKind) : Build (Option Fragment) :=
  match t.childOfKind? origin kind with
  | some body => block body.id
  | none => pure none

/-- Adds the nodes of the blocks of the `if` statement `origin`, which has the node `id`, where
    `block` builds a block. -/
def joinedIf (t : Tree) (block : Nat → Build (Option Fragment)) (id origin : Nat) :
    Build Fragment := do
  let body ← t.joinedBranch block origin .ifBody
  let other ← t.joinedBranch block origin .elseBranch
  match body, other with
  | some body, some other => do
    addEdge id body.head
    addEdge id other.head
    return ⟨id, body.tails ++ other.tails⟩
  | some body, none => do
    addEdge id body.head
    return ⟨id, body.tails ++ [.next id]⟩
  | none, some other => do
    addEdge id other.head
    return ⟨id, .fallthrough id :: other.tails⟩
  | none, none => return ⟨id, [.next id]⟩

/-- Adds the nodes of the body of the loop `origin`, which has the node `id`, where `block` builds a
    block. -/
def joinedLoop (t : Tree) (block : Nat → Build (Option Fragment)) (id origin : Nat) :
    Build Fragment := do
  if let some body ← t.joinedBranch block origin .loopBody then
    addEdge id body.head
    body.tails.forM (Tail.link id)
  return ⟨id, [.next id]⟩

/-- Adds the nodes of a statement and of its blocks, where `block` builds a block. -/
def joinedStatement (t : Tree) (block : Nat → Build (Option Fragment)) (statement : Node) :
    Build Fragment :=
  match header? statement.label.kind with
  | some (.branch, keyword, _) => do
    t.joinedIf block (← t.pushHeader .branch keyword statement) statement.id
  | some (kind, keyword, _) => do
    t.joinedLoop block (← t.pushHeader kind keyword statement) statement.id
  | none => do
    let id ← t.pushSimple statement
    if simpleKind statement.label.kind = .ret then
      modify fun draft => { draft with returns := draft.returns ++ [id] }
      return ⟨id, []⟩
    else return ⟨id, [.next id]⟩

/-- Adds the nodes of a statement behind what has been built of its block. -/
def joinedStep (t : Tree) (block : Nat → Build (Option Fragment)) (before : Option Fragment)
    (statementId : Nat) : Build (Option Fragment) := do
  let statement ← liftM (t.node statementId)
  let fragment ← t.joinedStatement block statement
  match before with
  | none => return some fragment
  | some before => do
    before.tails.forM (Tail.link fragment.head)
    return some ⟨before.head, fragment.tails⟩

/-- Adds the nodes of a block. A block without statements has none. -/
def joinedBlock (t : Tree) : Nat → Nat → Build (Option Fragment)
  | 0, id => throw (.invalidNode id)
  | fuel + 1, id => do
    let node ← liftM (t.node id)
    node.children.foldlM (t.joinedStep (t.joinedBlock fuel)) none

/-- Links the entry to the body and the open ends of the body to the exit, or the entry to the exit
    if there is no body. -/
def linkExit (entry exit : Nat) : Option Fragment → Build Unit
  | some body => do
    addEdge entry body.head
    body.tails.forM (Tail.link exit)
  | none => addEdge entry exit

/-- Links every `return` to the exit. -/
def linkReturns (exit : Nat) : Build Unit := do
  let draft ← get
  draft.returns.forM fun id => addEdge id exit

/-- Adds everything behind the entry of the function `origin`. -/
def buildJoined (t : Tree) (entry origin : Nat) : Build Unit := do
  let body ← t.joinedBranch (t.joinedBlock t.size) origin .functionBody
  let exit ← push exitStation
  linkExit entry exit body
  linkReturns exit

/-! ## Graphs -/

/-- The function with a name that a graph is built of: the first that has a body, or the first if
    none has. -/
def declaration? (t : Tree) (name : String) : Option Node :=
  let candidates := t.functions.filter (·.label.text == name)
  candidates.find? (fun d => (t.childOfKind? d.id .functionBody).isSome) <|> candidates.head?

/-- The steps that build the graph of the function `origin`. -/
def buildFunction (t : Tree) (layout : Layout) (origin : Nat) : Build Unit := do
  let entry ← push (entryStation origin)
  match layout with
  | .chained => t.buildChained entry origin
  | .joined => t.buildJoined entry origin

/-- The control-flow graph of the function with a name, if there is one. -/
def graph? (t : Tree) (layout : Layout) (name : String) : Except Failure (Option Graph) :=
  match t.declaration? name with
  | none => .ok none
  | some declaration => do
    let (_, draft) ← (t.buildFunction layout declaration.id).run ⟨#[], []⟩
    return some ⟨name, draft.nodes⟩

end Tree

end BraceLang
