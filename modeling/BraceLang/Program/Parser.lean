import BraceLang.Program.CodeReader
import BraceLang.Program.Shape
import BraceLang.Program.TreeBuilder

/-!
# `Program.Parser` — the syntax tree from a row of tokens in one pass

The parser has a cursor over the whole row, the table of the nodes and a count of the blocks around the
cursor. At each place it first recognises, without a change to any of the three, whether a statement
begins there. If one does, it adds the nodes of the statement, moves the cursor behind it and counts the
blocks in it up and down again; otherwise the cursor moves on by one token.

Nothing in the text of these steps says that they come to an end, since the cursor is set to places that
were looked up. So each call takes fuel, and a call without any stops. That this never happens if there is
more fuel than tokens are ahead is a theorem of `Proofs.Parser.Progress`. That the tree is that of
`Program.read` is one of `Proofs.Parser.Programs`.

## Contents
- `Parser.State`, `Parser.Stop` and `Parser.Run`, with the steps that change one part of the state.
- `Parser.parseBlock`, `Parser.parseStatement` and the steps between them.
- `Parser.parseFunction`, `Parser.parseProgram` and `Parser.parse`.
-/

namespace BraceLang

/-- Adds what is below the node of a statement without a block. -/
def Simple.addParts : Simple → Nat → Tree.Grow Unit
  | .declaration type name suffix initializer _, statement => do
    Tree.addChild (Tree.buildOver .type (some (typeText type suffix)) type (suffix.getLastD type)
      fun _ => pure ()) statement
    Tree.addChild (Tree.buildToken .identifier name) statement
    Tree.addExpression ((initializer.map Initializer.value).getD []) statement
  | .call name opening arguments closing _, statement => do
    Tree.addChild (Tree.buildToken .identifier name) statement
    Tree.addChild (Tree.buildOver .arguments none opening closing
      (Tree.addLeaves (argumentTokens arguments))) statement
  | .ret _ value _, statement => Tree.addExpression value statement
  | .assignment target _ value _, statement => do
    Tree.addChild (Tree.buildToken .identifier target) statement
    Tree.addExpression value statement

/-- The type and the name of a function that begins where the cursor is. -/
def Cursor.functionStart? (c : Cursor) : Option (Token × Token) :=
  match c.peek? 0, c.peek? 1, c.peek? 2 with
  | some type, some name, some opening =>
    if type.isTypeName && name.kind == .identifier && opening.isPunct "(" then some (type, name)
    else none
  | _, _, _ => none

namespace Parser

/-- Where a parser stands: its cursor, the nodes that it has added, the number of blocks around the
    cursor, and the indices of the tokens that the cursor has passed, in the order in which it did. -/
structure State where
  cursor : Cursor
  nodes : Array Tree.Node
  depth : Nat
  passed : List Nat

/-- The state before the first token. -/
def State.start (tokens : List Token) : State := ⟨.ofTokens tokens, #[], 0, []⟩

/-- What stops a parser: blocks around one another beyond the limit, or a call that is left without fuel. -/
inductive Stop
  | tooDeep (failure : NestingTooDeep)
  | outOfFuel
  deriving DecidableEq, Repr

/-- A part of a run of the parser. What stops it leaves the state as it is. -/
abbrev Run := ExceptT Stop (StateM State)

variable {α : Type}

/-- What comes of a run from a state, and the state behind it. -/
def outcome (m : Run α) (s : State) : Except Stop α × State := m.run.run s

/-! ## Steps that change one part of the state -/

/-- Sets the cursor. It passes the tokens between its old place and the new one. -/
def setCursor (change : Cursor → Cursor) : Run Unit :=
  modify fun s =>
    let cursor := change s.cursor
    { s with
      cursor
      passed := s.passed ++ List.range' s.cursor.position (cursor.position - s.cursor.position) }

/-- Moves the cursor on by one token. -/
def advance : Run Unit := setCursor Cursor.advance

/-- Moves the cursor to an index. -/
def moveTo (index : Nat) : Run Unit := setCursor (·.moveTo index)

/-- Moves the cursor on if the next token is the punctuation `text`. -/
def skipPunct (text : String) : Run Unit := setCursor fun c => (c.consumePunct text).2

/-- A step in building the tree. -/
def grow (step : Tree.Grow α) : Run α :=
  modifyGet fun s => ((step.run s.nodes).1, { s with nodes := (step.run s.nodes).2 })

/-- Parses a node that begins at `start`, and what is `below` it. The node ends with the token in front of the
    cursor. -/
def node (kind : NodeKind) (value : Option String) (start : Position) (span : Span)
    (below : Nat → Run Unit) : Run Nat := do
  let id ← grow (Tree.alloc kind value start span)
  below id
  let (stop, byte) := (← get).cursor.previousEnd
  grow (Tree.close id stop byte)
  return id

/-- Parses a node that begins with the token `first`. -/
def nodeFrom (kind : NodeKind) (value : Option String) (first : Token) (below : Nat → Run Unit) : Run Nat :=
  node kind value first.position first.span below

/-- Parses a node and then lists it as a child. -/
def addChild (child : Run Nat) (parent : Nat) : Run Unit := do
  grow (Tree.pushChild parent (← child))

/-- Lists a statement in its block, or moves on if there is none. -/
def listOrAdvance (block : Nat) : Option Nat → Run Unit
  | some statement => grow (Tree.pushChild block statement)
  | none => advance

/-- Counts one more block around the cursor, which begins with the token `first`. -/
def enter (limit : Nat) (first : Token) : Run Unit := do
  modify fun s => { s with depth := s.depth + 1 }
  let depth := (← get).depth
  if limit < depth then throw (.tooDeep ⟨depth, limit, first.position⟩)

/-- Counts one block less. -/
def leave : Run Unit := modify fun s => { s with depth := s.depth - 1 }

/-- A part of a run inside one more block. -/
def inBlock (limit : Nat) (first : Token) (inside : Run α) : Run α := do
  enter limit first
  let a ← inside
  leave
  return a

/-- Parses a statement without a block that ends at an index. -/
def parseSimple (x : Simple) (stop : Nat) : Run Nat :=
  nodeFrom x.label.kind x.label.value x.first fun statement => do
    grow (x.addParts statement)
    moveTo (stop + 1)

/-! ## Blocks and statements -/

mutual

/-- Parses the contents of a block, where `bare` further braces in it are open, up to the brace that closes
    it or the end of the row. -/
def parseItems (limit : Nat) : Nat → Nat → Nat → Run Unit
  | 0, _, _ => throw .outOfFuel
  | fuel + 1, bare, block => do
    match (← get).cursor.current? with
    | none => pure ()
    | some t =>
      if t.isPunct "\x7b" then
        advance
        parseItems limit fuel (bare + 1) block
      else if t.isPunct "\x7d" then
        advance
        if bare = 0 then pure () else parseItems limit fuel (bare - 1) block
      else
        listOrAdvance block (← parseStatement limit fuel)
        parseItems limit fuel bare block

/-- Parses the block of which the cursor is at the brace. The node begins with the token `first`. -/
def parseBlock (limit : Nat) : Nat → NodeKind → Token → Run Nat
  | 0, _, _ => throw .outOfFuel
  | fuel + 1, kind, first => inBlock limit first <| nodeFrom kind none first fun block => do
    skipPunct "\x7b"
    parseItems limit fuel 0 block

/-- Parses the statement at the cursor and gives its node, or gives nothing if none is recognised. -/
def parseStatement (limit : Nat) : Nat → Run (Option Nat)
  | 0 => throw .outOfFuel
  | fuel + 1 => do
    let c := (← get).cursor
    match c.statementAt? c.position with
    | none => return none
    | some (.simple x, stop) => return some (← parseSimple x stop)
    | some (.header .conditional h, brace) => return some (← parseIf limit fuel h brace)
    | some (.header (.loop kind) h, brace) => return some (← parseLoop limit fuel kind h brace)

/-- Parses a loop of which the brace has an index. -/
def parseLoop (limit : Nat) : Nat → LoopKind → Header → Nat → Run Nat
  | 0, _, _, _ => throw .outOfFuel
  | fuel + 1, kind, h, brace => nodeFrom kind.nodeKind none h.keyword fun statement => do
    grow (Tree.addChild h.buildCondition statement)
    moveTo brace
    addChild (parseBlock limit fuel .loopBody h.brace) statement

/-- Parses an `if` of which the brace has an index, and what follows it up to the end of its last `else`. -/
def parseIf (limit : Nat) : Nat → Header → Nat → Run Nat
  | 0, _, _ => throw .outOfFuel
  | fuel + 1, h, brace => nodeFrom .ifStatement none h.keyword fun statement => do
    grow (Tree.addChild h.buildCondition statement)
    moveTo brace
    addChild (parseBlock limit fuel .ifBody h.brace) statement
    parseElse limit fuel statement

/-- Parses the `else` at the cursor, if there is one with a block or with another `if`. -/
def parseElse (limit : Nat) : Nat → Nat → Run Unit
  | 0, _ => throw .outOfFuel
  | fuel + 1, statement => do
    let c := (← get).cursor
    match c.current? with
    | none => pure ()
    | some keyword =>
      if keyword.isKeyword "else" then
        if c.isPunctAt (c.position + 1) "\x7b" then
          moveTo (c.position + 1)
          addChild (parseBlock limit fuel .elseBranch keyword) statement
        else
          match c.headerAt? .conditional (c.position + 1) with
          | none => pure ()
          | some (h, brace) => inBlock limit keyword do
            addChild (nodeFrom .elseBranch none keyword fun branch => do
              moveTo (c.position + 1)
              addChild (parseIf limit fuel h brace) branch) statement
      else pure ()

end

/-! ## Functions and programs -/

/-- Parses the parameters up to the parenthesis that closes their list, where `depth` further ones in it are
    open, or up to the end of the row. -/
def parseParameterItems : Nat → Nat → Nat → Run Unit
  | 0, _, _ => throw .outOfFuel
  | fuel + 1, depth, parameters => do
    let c := (← get).cursor
    match c.current? with
    | none => pure ()
    | some t =>
      if t.isPunct "(" then
        advance
        parseParameterItems fuel (depth + 1) parameters
      else if t.isPunct ")" then
        advance
        if depth = 0 then pure () else parseParameterItems fuel (depth - 1) parameters
      else
        match (c.peek? 1).filter fun name => depth == 0 && t.isTypeName && name.kind == .identifier with
        | some name =>
          grow ((ParameterItem.parameter t name).build parameters)
          advance
          advance
          skipPunct ","
          parseParameterItems fuel depth parameters
        | none =>
          advance
          parseParameterItems fuel depth parameters

/-- Parses the parameter list of a function, which begins with the parenthesis at the cursor. -/
def parseParameters (fuel function : Nat) : Run Unit := do
  match (← get).cursor.current? with
  | some opening =>
    addChild (nodeFrom .parameters none opening fun parameters => do
      advance
      parseParameterItems fuel 0 parameters) function
  | none => pure ()

/-- Parses the body of a function, or the semicolon instead of one, if there is either. -/
def parseBody (limit fuel function : Nat) : Run Unit := do
  match (← get).cursor.current?.filter (·.isPunct "\x7b") with
  | some brace => addChild (parseBlock limit fuel .functionBody brace) function
  | none => skipPunct ";"

/-- Parses a function at the cursor, of which type and name have been recognised. -/
def parseFunction (limit fuel : Nat) (type name : Token) : Run Nat :=
  nodeFrom .functionDeclaration (some name.text) type fun function => do
    grow (Tree.addChild (Tree.buildToken .type type) function)
    grow (Tree.addChild (Tree.buildToken .identifier name) function)
    advance
    advance
    parseParameters fuel function
    parseBody limit fuel function

/-- Parses the functions up to the end of the row and skips what is between them. -/
def parseFunctions (limit : Nat) : Nat → Nat → Run Unit
  | 0, _ => throw .outOfFuel
  | fuel + 1, root => do
    let c := (← get).cursor
    match c.current? with
    | none => pure ()
    | some _ =>
      match c.functionStart? with
      | some (type, name) =>
        addChild (parseFunction limit fuel type name) root
        parseFunctions limit fuel root
      | none =>
        advance
        parseFunctions limit fuel root

/-- Parses a whole row and gives the root. -/
def parseProgram (limit fuel : Nat) : Run Nat := node .program none .first ⟨0, 0⟩ (parseFunctions limit fuel)

/-- The tree of a row of tokens in which no more than `limit` blocks may stand around one another. -/
def parse (limit : Nat) (tokens : List Token) : Except Stop Tree :=
  let (root, s) := outcome (parseProgram limit (tokens.length + 1)) (.start tokens)
  root.map fun _ => ⟨s.nodes⟩

end Parser

end BraceLang
