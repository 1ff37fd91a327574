import BraceLang.Program.Tree
import BraceLang.Scope.Resolve

/-!
# `Scope.TreeScopes` — scopes found by walking the syntax tree

The scopes of a program are asked of its syntax tree, which may be any table of nodes. Every number
that a node lists as a child is looked up, and a number that no node bears ends the walk with a
failure. In the tree of a program that never happens, and then the scopes are those of
`Program.scopes`.

A block is walked twice over: once for what belongs to its own scope, where the walk goes into the
blocks inside it only for their declarations, and once more for each of these blocks. No way down a
tree is longer than the tree has nodes, which is what `fuel` is for.

## Contents
- `BlockContents`, what belongs to the scope of a block.
- `Tree.collect`, the contents of a block, by way of `Tree.childContents`.
- `Tree.resolveBlock` and `Tree.scopes`.
- `Scopes.findings`, the findings about unused variables.
-/

namespace BraceLang

/-- What belongs to the scope of a block: the variables declared in it, the names used in it, and
    the blocks inside it, with their numbers. -/
structure BlockContents where
  declared : List Variable
  references : List String
  blocks : List (Scope.Kind × Nat)
  deriving DecidableEq, Repr

namespace BlockContents

/-- Nothing. -/
def empty : BlockContents := ⟨[], [], []⟩

/-- The contents of two parts of a block, one after the other. -/
def append (a b : BlockContents) : BlockContents :=
  ⟨a.declared ++ b.declared, a.references ++ b.references, a.blocks ++ b.blocks⟩

/-- The contents of all parts of a block. -/
def join (parts : List BlockContents) : BlockContents := parts.foldr append empty

end BlockContents

/-- The kind of the scope of a block, which for the body of a loop depends on the node above. -/
def Scope.Kind.ofBlock (above block : NodeKind) : Scope.Kind :=
  match above, block with
  | _, .elseBranch => .elseBranch
  | .forStatement, .loopBody => .forBody
  | _, .loopBody => .whileBody
  | _, _ => .ifBody

/-- The scopes of the blocks of a row, one after the other. -/
def Resolved.join (parts : List Resolved) : Resolved := parts.foldr Resolved.append ⟨.nil, []⟩

namespace Tree

/-- The variable that a declaration declares. A node without a type and a name declares none. -/
def declaredVariable? (t : Tree) (declaration : Node) : Option Variable := do
  let type ← t.childOfKind? declaration.id .type
  let name ← t.childOfKind? declaration.id .identifier
  return ⟨name.label.text, type.label.text, name.label.start, name.label.span, false⟩

/-- What a node contributes to the block that it stands in, apart from the nodes below it. In a
    `nested` walk, which is made for a block further out, only declarations count. -/
def ownContents (t : Tree) (nested : Bool) (n : Node) : BlockContents :=
  match n.label.kind with
  | .variableDeclaration => ⟨(t.declaredVariable? n).toList, [], []⟩
  | .leaf .identifier => ⟨[], if nested then [] else n.label.value.toList, []⟩
  | .assignment =>
    ⟨[], if nested then []
      else ((t.childOfKind? n.id .identifier).map (·.label.text)).toList, []⟩
  | _ => .empty

/-- What a child of a node of the kind `above` contributes to the block that it stands in. A child
    with a scope of its own is one of the blocks inside, and only the variables in it may count.
    The walk of what is below a node is given as `below`. -/
def childContents (t : Tree) (isolate nested : Bool) (above : NodeKind)
    (below : Bool → Nat → Except Failure BlockContents) (id : Nat) :
    Except Failure BlockContents := do
  let child ← t.node id
  if child.label.kind.opensScope then
    let blocks := if nested then [] else [(Scope.Kind.ofBlock above child.label.kind, id)]
    let inner ← if isolate then .ok .empty else below true id
    return BlockContents.append ⟨[], [], blocks⟩ inner
  else
    let inner ← below nested id
    return (t.ownContents nested child).append inner

/-- What the nodes below a node contribute to the block that it stands in. -/
def collect (t : Tree) (isolate : Bool) : Nat → Bool → Nat → Except Failure BlockContents
  | 0, _, id => .error (.invalidNode id)
  | fuel + 1, nested, id => do
    let node ← t.node id
    let parts ← node.children.mapM
      (t.childContents isolate nested node.label.kind (t.collect isolate fuel))
    return .join parts

/-- The scope of a block, with the scopes inside it, and the names that none of them declares. -/
def resolveBlock (t : Tree) (config : Config) :
    Nat → String → Scope.Kind → Nat → Except Failure Resolved
  | 0, _, _, id => .error (.invalidNode id)
  | fuel + 1, name, kind, id => do
    let node ← t.node id
    let contents ← t.collect config.isolateScopes t.size false id
    let inner ← contents.blocks.mapM fun block =>
      t.resolveBlock config fuel block.1.name block.1 block.2
    let scope : Scope :=
      ⟨name, kind, node.label.start.line, node.label.stop.line, contents.declared⟩
    return scope.above config contents.references (.join inner)

/-- The scopes of a function. A function without a body has none. -/
def functionScopes (t : Tree) (config : Config) (function : Node) : Except Failure Scopes :=
  match t.childOfKind? function.id .functionBody with
  | none => .ok .nil
  | some body => do
    let resolved ← t.resolveBlock config t.size function.label.text .function body.id
    return resolved.scopes.settle config

/-- The scopes of all functions, in source order. -/
def scopes (t : Tree) (config : Config) : Except Failure Scopes := do
  let parts ← t.functions.mapM (t.functionScopes config)
  return parts.foldr (· ++ ·) .nil

end Tree

namespace Scopes

/-- The scopes of one function after the other, as they are met when the scopes inside of each are kept
    on a stack. -/
def visited (scopes : Scopes) : List Scope := scopes.trees.flatMap fun t => Forest.visit [t]

/-- One finding for each variable of a scope that is not used there, scope by scope. -/
def findings (scopes : Scopes) : List Diagnostic :=
  scopes.visited.flatMap fun s => s.unused.map (unusedVariable s)

end Scopes

end BraceLang
