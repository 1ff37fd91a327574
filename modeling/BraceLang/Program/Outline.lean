import BraceLang.Forest
import BraceLang.Program.Basic
import BraceLang.Program.NodeKind

/-!
# `Program.Outline` — the abstract syntax of a program

The outline of a program is a forest of labelled nodes that leaves out the tokens that belong to
nothing and the punctuation that only delimits. Each node covers the source from its first token to
its last one, whether or not these are nodes themselves.

## Contents
- `Label` and `Label.covering`, the extent of a node.
- `Simple.label`, `Simple.parts`, `Header.conditionLabel`, `Code.outline`, `Function.outline`,
  `Program.outline`.
- `Code.nodeCount` and `Function.nodeCount`, the sizes of outlines without building them, and
  `Program.numberedFunctions`, which tells where each function stands in the pre-order.
- `Outline.render`, the outline as indented text.
-/

namespace BraceLang

/-- What the syntax tree says about a node: its kind, its value if it has one, the positions of the
    first and the last character it covers, and the bytes it covers. -/
structure Label where
  kind : NodeKind
  value : Option String
  start : Position
  stop : Position
  span : Span
  deriving DecidableEq, Repr, Inhabited

namespace Label

/-- The label of a node that covers the source from one token to another. A span never ends before
    it starts, even if the tokens come from elsewhere and are out of order. -/
def covering (kind : NodeKind) (value : Option String) (first last : Token) : Label :=
  { kind, value
    start := first.position
    stop := last.endPosition
    span := ⟨first.span.start, max last.span.stop first.span.start⟩ }

/-- The label of a node that is one token and bears its text. -/
def ofToken (kind : NodeKind) (t : Token) : Label :=
  covering kind (some t.text) t t

/-- The value of the node, or the empty text if it has none. -/
def text (l : Label) : String := l.value.getD ""

end Label

/-- The outline of a program or of a part of it. -/
abbrev Outline := Forest Label

namespace Outline

/-- One leaf for each token. -/
def leaves (tokens : List Token) : Outline :=
  .ofLabels (tokens.map fun t => .ofToken (.leaf t.kind) t)

/-- The node of an expression. An expression without tokens has no node. -/
def expression (tokens : List Token) : Outline :=
  match tokens with
  | [] => .nil
  | first :: rest =>
    .single (.covering .expression none first (rest.getLastD first)) (leaves tokens)

/-- The outline as text: one line for each node, indented by two blanks for each node above it,
    with the kind of the node and its value in quotes. -/
def render (depth : Nat) : Outline → String
  | .nil => ""
  | .node l children siblings =>
    "".pushn ' ' (2 * depth) ++ l.kind.name ++
      (match l.value with
        | some value => " \"" ++ value ++ "\""
        | none => "") ++ "\n" ++ (render (depth + 1) children ++ render depth siblings)

end Outline

namespace Simple

/-- The label of a statement without a block. Its value is the name of a called function or the
    operator of an assignment. -/
def label (s : Simple) : Label :=
  match s with
  | .declaration .. => .covering .variableDeclaration none s.first s.last
  | .call name .. => .covering .functionCall (some name.text) s.first s.last
  | .ret .. => .covering .returnStatement none s.first s.last
  | .assignment _ operator .. => .covering .assignment (some operator.text) s.first s.last

/-- The nodes below a statement without a block. -/
def parts : Simple → Outline
  | .declaration type name suffix initializer _ =>
    .node (.covering .type (some (typeText type suffix)) type (suffix.getLastD type)) .nil <|
    .node (.ofToken .identifier name) .nil <|
    Outline.expression ((initializer.map Initializer.value).getD [])
  | .call name opening arguments closing _ =>
    .node (.ofToken .identifier name) .nil <|
    .single (.covering .arguments none opening closing) (Outline.leaves (argumentTokens arguments))
  | .ret _ value _ => Outline.expression value
  | .assignment target _ value _ =>
    .node (.ofToken .identifier target) .nil (Outline.expression value)

end Simple

/-- The label of the condition of a header. -/
def Header.conditionLabel (h : Header) : Label :=
  .covering .condition none h.opening h.closing

/-- The kind of node that a loop is. -/
def LoopKind.nodeKind : LoopKind → NodeKind
  | .forLoop => .forStatement
  | .whileLoop => .whileStatement

namespace Code

/-- The outline of the code of a block: one tree for each of its statements. -/
def outline : Code → Outline
  | done => .nil
  | skip _ rest => rest.outline
  | simple s rest => .node s.label s.parts rest.outline
  | loop kind h body closing rest =>
    let last := blockLast h.brace body closing
    .node (.covering kind.nodeKind none h.keyword last)
      (.node h.conditionLabel (Outline.leaves h.condition) <|
        .single (.covering .loopBody none h.brace last) body.outline)
      rest.outline
  | ifThen h body closing rest =>
    let last := blockLast h.brace body closing
    .node (.covering .ifStatement none h.keyword last)
      (.node h.conditionLabel (Outline.leaves h.condition) <|
        .single (.covering .ifBody none h.brace last) body.outline)
      rest.outline
  | ifThenElse h body closing e other otherClosing rest =>
    let last := elseLast e other otherClosing
    .node (.covering .ifStatement none h.keyword last)
      (.node h.conditionLabel (Outline.leaves h.condition) <|
        .node (.covering .ifBody none h.brace (blockLast h.brace body closing)) body.outline <|
        .single (.covering .elseBranch none e.keyword last) other.outline)
      rest.outline

/-- The number of nodes in the outline of the code. -/
def nodeCount : Code → Nat
  | done => 0
  | skip _ rest => rest.nodeCount
  | simple s rest => 1 + s.parts.size + rest.nodeCount
  | loop _ h body _ rest | ifThen h body _ rest =>
    3 + h.condition.length + body.nodeCount + rest.nodeCount
  | ifThenElse h body _ _ other _ rest =>
    4 + h.condition.length + body.nodeCount + other.nodeCount + rest.nodeCount

theorem size_outline (c : Code) : c.outline.size = c.nodeCount := by
  induction c <;>
    simp_all [outline, nodeCount, Forest.size, Forest.single, Outline.leaves] <;> omega

end Code

/-- The node of a parameter, or none for a token that belongs to none. -/
def ParameterItem.outline : ParameterItem → Outline
  | parameter type name =>
    .single (.covering .parameter none type name)
      (.node (.ofToken .type type) .nil <| .single (.ofToken .identifier name) .nil)
  | skipped _ => .nil

/-- The node of a parameter list. -/
def ParameterList.outline (p : ParameterList) : Outline :=
  .single (.covering .parameters none p.opening p.last)
    (p.items.foldr (fun i rest => i.outline ++ rest) .nil)

namespace Function

/-- The nodes before the body of a function: its type, its name and its parameters. -/
def startOutline (f : Function) : Outline :=
  .node (.ofToken .type f.type) .nil <|
  .node (.ofToken .identifier f.name) .nil f.parameters.outline

/-- The node of a function. Its value is its name. -/
def outline (f : Function) : Outline :=
  .single (.covering .functionDeclaration (some f.name.text) f.type f.last) <|
    f.startOutline ++
      match f.body with
      | some b => .single (.covering .functionBody none b.brace b.last) b.code.outline
      | none => .nil

/-- The number of nodes in the outline of the function. -/
def nodeCount (f : Function) : Nat :=
  1 + f.startOutline.size +
    match f.body with
    | some b => 1 + b.code.nodeCount
    | none => 0

theorem size_outline (f : Function) : f.outline.size = f.nodeCount := by
  unfold outline nodeCount
  cases f.body with
  | none => simp [Forest.single, Forest.size]
  | some b =>
    simp only [Forest.single, Forest.size, Forest.size_append, Code.size_outline]
    omega

end Function

namespace Program

/-- The label of the whole program. It begins where the text begins and ends with the last token. -/
def label (p : Program) : Label :=
  { kind := .program
    value := none
    start := .first
    stop := (p.last?.map Token.endPosition).getD .first
    span := ⟨0, (p.last?.map fun t => t.span.stop).getD 0⟩ }

/-- The outline of a program: one node for the program, with one for each function below it. -/
def outline (p : Program) : Outline :=
  .single p.label (p.functions.foldr (fun f rest => f.outline ++ rest) .nil)

/-- Some functions with their numbers in the tree, if the first of them has the number `base`. -/
def numberFunctions (base : Nat) : List Function → List (Nat × Function)
  | [] => []
  | f :: fs => (base, f) :: numberFunctions (base + f.nodeCount) fs

/-- The functions of a program with their numbers in the tree, in which 0 is the program. -/
def numberedFunctions (p : Program) : List (Nat × Function) := numberFunctions 1 p.functions

end Program

end BraceLang
