import BraceLang.Program.Tree

/-!
# `Program.TreeBuilder` — the syntax tree built node by node

A builder goes through a program from left to right and keeps a table of nodes. It adds a node when it
comes to the first token of it, with no children and the extent of that token; it lists a node as a
child when the node is complete; and it sets the end of a node when it has passed the last token. So
at any moment the nodes from the root to the current place are unfinished, each in its own way.

The result is the tree of the program, `Program.tree`, which numbers the nodes of an outline that is
known as a whole.

## Contents
- `Tree.Grow`, a step in building a tree, with `alloc`, `pushChild` and `close`.
- `Tree.buildNode`, `Tree.buildOver` and `Tree.addChild`, the steps for a node with what is below it.
- `Simple.build`, `Code.build`, `Function.build` and `Program.build`.
-/

namespace BraceLang

namespace Tree

/-- A step in building a tree. -/
abbrev Grow := StateM (Array Node)

/-- Adds a node without children that begins and ends at a position, and gives its number. -/
def alloc (kind : NodeKind) (value : Option String) (start : Position) (span : Span) : Grow Nat :=
  modifyGet fun nodes => (nodes.size, nodes.push ⟨nodes.size, ⟨kind, value, start, start, span⟩, []⟩)

/-- Changes a node. A number that no node has changes nothing. -/
def changeNode (id : Nat) (change : Node → Node) : Grow Unit := modify (·.modify id change)

/-- Lists a node as a child of another one, behind the children it has. -/
def pushChild (parent child : Nat) : Grow Unit :=
  changeNode parent fun n => { n with children := n.children ++ [child] }

/-- The node with another end. A span never ends before it starts. -/
def Node.closedAt (stop : Position) (byte : Nat) (n : Node) : Node :=
  { n with label :=
    { n.label with stop, span := ⟨n.label.span.start, max byte n.label.span.start⟩ } }

/-- Ends a node at a position and a byte. -/
def close (id : Nat) (stop : Position) (byte : Nat) : Grow Unit :=
  changeNode id (·.closedAt stop byte)

/-- Builds a node that begins at `start` and ends at `stop`, and what `below` adds to it in between. The
    bytes that it covers are first those of `span`, and in the end those up to `byte`. -/
def buildNode (kind : NodeKind) (value : Option String) (start : Position) (span : Span)
    (stop : Position) (byte : Nat) (below : Nat → Grow Unit) : Grow Nat := do
  let id ← alloc kind value start span
  below id
  close id stop byte
  return id

/-- Builds a node from the token `first` to the token `last`. -/
def buildOver (kind : NodeKind) (value : Option String) (first last : Token)
    (below : Nat → Grow Unit) : Grow Nat :=
  buildNode kind value first.position first.span last.endPosition last.span.stop below

/-- Builds a node and then lists it as a child. -/
def addChild (child : Grow Nat) (parent : Nat) : Grow Unit := do
  pushChild parent (← child)

/-- Builds a node that is one token and bears its text. -/
def buildToken (kind : NodeKind) (t : Token) : Grow Nat :=
  buildOver kind (some t.text) t t fun _ => pure ()

/-- Adds one leaf for each token. -/
def addLeaves : List Token → Nat → Grow Unit
  | [], _ => pure ()
  | t :: run, parent => do
    addChild (buildToken (.leaf t.kind) t) parent
    addLeaves run parent

/-- Adds the node of an expression. An expression without tokens has no node. -/
def addExpression : List Token → Nat → Grow Unit
  | [], _ => pure ()
  | first :: rest, parent =>
    addChild (buildOver .expression none first (rest.getLastD first) (addLeaves (first :: rest)))
      parent

end Tree

open BraceLang.Tree

/-- Builds the node of a statement without a block. -/
def Simple.build : Simple → Grow Nat
  | .declaration type name suffix initializer semicolon =>
    buildOver .variableDeclaration none type semicolon fun declaration => do
      addChild (buildOver .type (some (typeText type suffix)) type (suffix.getLastD type)
        fun _ => pure ()) declaration
      addChild (buildToken .identifier name) declaration
      addExpression ((initializer.map Initializer.value).getD []) declaration
  | .call name opening arguments closing semicolon =>
    buildOver .functionCall (some name.text) name semicolon fun call => do
      addChild (buildToken .identifier name) call
      addChild (buildOver .arguments none opening closing (addLeaves (argumentTokens arguments))) call
  | .ret keyword value semicolon =>
    buildOver .returnStatement none keyword semicolon (addExpression value)
  | .assignment target operator value semicolon =>
    buildOver .assignment (some operator.text) target semicolon fun assignment => do
      addChild (buildToken .identifier target) assignment
      addExpression value assignment

/-- Builds the node of the condition of a header. -/
def Header.buildCondition (h : Header) : Grow Nat :=
  buildOver .condition none h.opening h.closing (addLeaves h.condition)

/-- Adds the nodes of the statements of some code. -/
def Code.build : Code → Nat → Grow Unit
  | .done, _ => pure ()
  | .skip _ rest, block => rest.build block
  | .simple s rest, block => do
    addChild s.build block
    rest.build block
  | .loop kind h body closing rest, block => do
    let last := blockLast h.brace body closing
    addChild (buildOver kind.nodeKind none h.keyword last fun statement => do
      addChild h.buildCondition statement
      addChild (buildOver .loopBody none h.brace last body.build) statement) block
    rest.build block
  | .ifThen h body closing rest, block => do
    let last := blockLast h.brace body closing
    addChild (buildOver .ifStatement none h.keyword last fun statement => do
      addChild h.buildCondition statement
      addChild (buildOver .ifBody none h.brace last body.build) statement) block
    rest.build block
  | .ifThenElse h body closing e other otherClosing rest, block => do
    let last := elseLast e other otherClosing
    addChild (buildOver .ifStatement none h.keyword last fun statement => do
      addChild h.buildCondition statement
      addChild (buildOver .ifBody none h.brace (blockLast h.brace body closing) body.build) statement
      addChild (buildOver .elseBranch none e.keyword last other.build) statement) block
    rest.build block

/-- Adds the node of a parameter. A token that belongs to none adds nothing. -/
def ParameterItem.build : ParameterItem → Nat → Grow Unit
  | .parameter type name, parameters =>
    addChild (buildOver .parameter none type name fun parameter => do
      addChild (buildToken .type type) parameter
      addChild (buildToken .identifier name) parameter) parameters
  | .skipped _, _ => pure ()

/-- Adds the nodes of the parameters of a list. -/
def ParameterList.buildItems : List ParameterItem → Nat → Grow Unit
  | [], _ => pure ()
  | i :: items, parameters => do
    i.build parameters
    buildItems items parameters

/-- Adds the node of the body of a function, if it has one. -/
def Function.buildBody : Option Block → Nat → Grow Unit
  | some b, function => addChild (buildOver .functionBody none b.brace b.last b.code.build) function
  | none, _ => pure ()

/-- Builds the node of a function. -/
def Function.build (f : Function) : Grow Nat :=
  buildOver .functionDeclaration (some f.name.text) f.type f.last fun function => do
    addChild (buildToken .type f.type) function
    addChild (buildToken .identifier f.name) function
    addChild (buildOver .parameters none f.parameters.opening f.parameters.last
      (ParameterList.buildItems f.parameters.items)) function
    buildBody f.body function

namespace Program

/-- Adds the nodes of the functions among the parts of a program. -/
def buildItems : List ProgramItem → Nat → Grow Unit
  | [], _ => pure ()
  | .function f :: items, root => do
    addChild f.build root
    buildItems items root
  | .skipped _ :: items, root => buildItems items root

/-- Builds the root of a program, which begins where the text begins and ends with the last token. -/
def buildRoot (p : Program) : Grow Nat :=
  buildNode .program none .first ⟨0, 0⟩ ((p.last?.map Token.endPosition).getD .first)
    ((p.last?.map fun t => t.span.stop).getD 0) (buildItems p.items)

/-- The syntax tree of a program, built node by node. -/
def build (p : Program) : Tree := ⟨(p.buildRoot.run #[]).2⟩

end Program

end BraceLang
