import BraceLang.Token.Basic

/-!
# `Program.NodeKind` — what a node of the syntax tree stands for
-/

namespace BraceLang

/-- What a node of the syntax tree stands for. A leaf is a token that a condition, an expression or
    an argument list is written with. -/
inductive NodeKind
  | program
  | functionDeclaration
  | type
  | identifier
  | parameters
  | parameter
  | functionBody
  | variableDeclaration
  | ifStatement
  | condition
  | ifBody
  | elseBranch
  | functionCall
  | arguments
  | returnStatement
  | expression
  | forStatement
  | whileStatement
  | loopBody
  | assignment
  | leaf (kind : Token.Kind)
  deriving DecidableEq, Repr, Inhabited

namespace NodeKind

/-- Every kind of node, the leaves last and in the order of the kinds of tokens. -/
def all : List NodeKind :=
  [.program, .functionDeclaration, .type, .identifier, .parameters, .parameter, .functionBody,
   .variableDeclaration, .ifStatement, .condition, .ifBody, .elseBranch, .functionCall, .arguments,
   .returnStatement, .expression, .forStatement, .whileStatement, .loopBody, .assignment] ++
  Token.Kind.all.map leaf

/-- The displayed name of a kind of node. -/
def name : NodeKind → String
  | .program => "PROGRAM"
  | .functionDeclaration => "FUNCTION_DECLARATION"
  | .type => "TYPE"
  | .identifier => "IDENTIFIER"
  | .parameters => "PARAMETERS"
  | .parameter => "PARAMETER"
  | .functionBody => "FUNCTION_BODY"
  | .variableDeclaration => "VARIABLE_DECLARATION"
  | .ifStatement => "IF_STATEMENT"
  | .condition => "CONDITION"
  | .ifBody => "IF_BODY"
  | .elseBranch => "ELSE"
  | .functionCall => "FUNCTION_CALL"
  | .arguments => "ARGUMENTS"
  | .returnStatement => "RETURN"
  | .expression => "EXPRESSION"
  | .forStatement => "FOR_STATEMENT"
  | .whileStatement => "WHILE_STATEMENT"
  | .loopBody => "LOOP_BODY"
  | .assignment => "ASSIGNMENT"
  | .leaf kind => kind.name ++ "(leaf)"

/-- Whether the node is a loop. -/
def isLoop : NodeKind → Bool
  | .forStatement | .whileStatement => true
  | _ => false

/-- Whether the node is a block with a scope of its own inside of a function body. -/
def opensScope : NodeKind → Bool
  | .ifBody | .elseBranch | .loopBody => true
  | _ => false

/-- Whether the node is a token of a condition, an expression or an argument list. -/
def isLeaf : NodeKind → Bool
  | .leaf _ => true
  | _ => false

end NodeKind

end BraceLang
