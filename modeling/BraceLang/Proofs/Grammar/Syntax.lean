import BraceLang.Proofs.Reading.Parts
import BraceLang.Proofs.Tree.Bare

/-!
# `Proofs.Grammar.Syntax` — programs without a source

A program is given here by what it says and not by tokens: its parts are names, types, runs of words
and other parts, and each part is well-formed by its type. Nothing stands between the parts, and no
block is left open. Such a program has a **spelling**, a tree and a depth, and none of them is found
by reading.

## Contents
- `TypeName`, `Name`, `Expression`, `Condition`, `Brackets`, `Argument` and `Operator`.
- `Statement`, `Body` with `Else`, `Parameter`, `Function` and `Program`.
- For each of them `spell`, the words it is written with, and `outline`, its tree.
- `Body.depth` and `Program.depth`.
-/

namespace BraceLang

namespace Grammar

/-! ## Words and runs of words -/

/-- A keyword that names a type. -/
structure TypeName where
  text : String
  isTypeName : Keyword.isTypeName text = true

/-- The word of a type. -/
def TypeName.word (t : TypeName) : Word := .reserved t.text

/-- A name. -/
structure Name where
  text : String

/-- The word of a name. -/
def Name.word (n : Name) : Word := ⟨.identifier, n.text⟩

/-- A run of words that is an expression. -/
structure Expression where
  run : List Word
  isExpression : IsExpression run

/-- A run of words that may stand between the parentheses of a header. -/
structure Condition where
  run : List Word
  balanced : Balanced run

/-- The brackets of an array, with words between them that are no punctuation. -/
structure Brackets where
  inner : List Word
  ne_punctuation : ∀ w ∈ inner, w.kind ≠ .punctuation

/-- The words of the brackets. -/
def Brackets.spell (b : Brackets) : List Word := .mark "[" :: (b.inner ++ [.mark "]"])

/-- A text, a number or a name as an argument of a call. -/
structure Argument where
  word : Word
  isArgument : word.IsArgument

/-- An operator that assigns. -/
structure Operator where
  text : String
  mem : text ∈ assignmentOperators

/-- The word of an operator. -/
def Operator.word (o : Operator) : Word := ⟨.operator, o.text⟩

/-! ## Statements -/

/-- A statement without a block. -/
inductive Statement
  | declaration (type : TypeName) (name : Name) (brackets : Option Brackets)
      (value : Option Expression)
  | call (name : Name) (arguments : List Argument)
  | ret (value : Option Expression)
  | assignment (target : Name) (operator : Operator) (value : Expression)

mutual

/-- The statements of a block. -/
inductive Body
  | done
  | simple (statement : Statement) (rest : Body)
  | loop (kind : LoopKind) (condition : Condition) (body rest : Body)
  | branch (condition : Condition) (body : Body) (otherwise : Else) (rest : Body)

/-- What follows the block of an `if`: nothing, an `else` with a block, or an `else` with another
    `if`. -/
inductive Else
  | nothing
  | block (body : Body)
  | chain (condition : Condition) (body : Body) (otherwise : Else)

end

/-- A parameter of a function. -/
structure Parameter where
  type : TypeName
  name : Name

/-- A function, which is a mere announcement if it has no body. -/
structure Function where
  type : TypeName
  name : Name
  parameters : List Parameter
  body : Option Body

/-- A program: its functions in their order. -/
structure Program where
  functions : List Function

/-! ## Spelling -/

/-- The words of a statement. -/
def Statement.spell : Statement → List Word
  | .declaration type name brackets value =>
    type.word :: name.word :: ((brackets.map Brackets.spell).getD [] ++
      ((value.map fun e => ⟨.operator, "="⟩ :: e.run).getD [] ++ [.mark ";"]))
  | .call name arguments =>
    name.word :: .mark "(" ::
      ([.mark ","].intercalate (arguments.map fun a => [a.word]) ++ [.mark ")", .mark ";"])
  | .ret value => .reserved "return" :: ((value.map Expression.run).getD [] ++ [.mark ";"])
  | .assignment target operator value =>
    target.word :: operator.word :: (value.run ++ [.mark ";"])

/-- The words of a header. -/
def Condition.header (kind : HeaderKind) (c : Condition) : List Word :=
  .reserved kind.keyword :: .mark "(" :: (c.run ++ [.mark ")", .mark "\x7b"])

mutual

/-- The words of the statements of a block. -/
def Body.spell : Body → List Word
  | .done => []
  | .simple statement rest => statement.spell ++ rest.spell
  | .loop kind condition body rest =>
    condition.header (.loop kind) ++ (body.spell ++ .mark "\x7d" :: rest.spell)
  | .branch condition body otherwise rest =>
    condition.header .conditional ++
      (body.spell ++ .mark "\x7d" :: (otherwise.spell ++ rest.spell))

/-- The words of what follows the block of an `if`. -/
def Else.spell : Else → List Word
  | .nothing => []
  | .block body => .reserved "else" :: .mark "\x7b" :: (body.spell ++ [.mark "\x7d"])
  | .chain condition body otherwise =>
    .reserved "else" ::
      (condition.header .conditional ++ (body.spell ++ .mark "\x7d" :: otherwise.spell))

end

/-- The words of what follows the parameters of a function. -/
def bodySpell : Option Body → List Word
  | some body => .mark "\x7b" :: (body.spell ++ [.mark "\x7d"])
  | none => [.mark ";"]

/-- The words of a function. -/
def Function.spell (f : Function) : List Word :=
  f.type.word :: f.name.word :: .mark "(" ::
    ([.mark ","].intercalate (f.parameters.map fun p => [p.type.word, p.name.word]) ++
      .mark ")" :: bodySpell f.body)

/-- The words of a program. -/
def Program.spell (p : Program) : List Word := p.functions.flatMap Function.spell

/-! ## Trees -/

/-- The node of an expression, if there is one. -/
def expressionOutline : Option Expression → Outline
  | none => .nil
  | some e => .single (.plain .expression none) (Outline.wordLeaves e.run)

/-- The label of a statement. -/
def Statement.label : Statement → Label
  | .declaration .. => .plain .variableDeclaration none
  | .call name _ => .plain .functionCall (some name.text)
  | .ret _ => .plain .returnStatement none
  | .assignment _ operator _ => .plain .assignment (some operator.text)

/-- The nodes below a statement. The value of a declared type has the brackets of an array in it. -/
def Statement.parts : Statement → Outline
  | .declaration type name brackets value =>
    let written := ((brackets.map Brackets.spell).getD []).foldl (fun text w => text ++ w.text)
      type.text
    .node (.plain .type (some written)) .nil <|
    .node (.plain .identifier (some name.text)) .nil (expressionOutline value)
  | .call name arguments =>
    .node (.plain .identifier (some name.text)) .nil <|
    .single (.plain .arguments none) (Outline.wordLeaves (arguments.map Argument.word))
  | .ret value => expressionOutline value
  | .assignment target _ value =>
    .node (.plain .identifier (some target.text)) .nil (expressionOutline (some value))

/-- The nodes of a condition and of the blocks behind it. -/
def Condition.outline (c : Condition) (blocks : Outline) : Outline :=
  .node (.plain .condition none) (Outline.wordLeaves c.run) blocks

mutual

/-- The trees of the statements of a block. -/
def Body.outline : Body → Outline
  | .done => .nil
  | .simple statement rest => .node statement.label statement.parts rest.outline
  | .loop kind condition body rest =>
    .node (.plain kind.nodeKind none)
      (condition.outline (.single (.plain .loopBody none) body.outline)) rest.outline
  | .branch condition body otherwise rest =>
    .node (.plain .ifStatement none)
      (condition.outline (.node (.plain .ifBody none) body.outline otherwise.outline)) rest.outline

/-- The tree of what follows the block of an `if`. -/
def Else.outline : Else → Outline
  | .nothing => .nil
  | .block body => .single (.plain .elseBranch none) body.outline
  | .chain condition body otherwise =>
    .single (.plain .elseBranch none) <|
    .single (.plain .ifStatement none) <|
      condition.outline (.node (.plain .ifBody none) body.outline otherwise.outline)

end

/-- The tree of a parameter. -/
def Parameter.outline (p : Parameter) : Outline :=
  .single (.plain .parameter none) <|
  .node (.plain .type (some p.type.text)) .nil <|
  .single (.plain .identifier (some p.name.text)) .nil

/-- The tree of the body of a function, if there is one. -/
def bodyOutline : Option Body → Outline
  | some body => .single (.plain .functionBody none) body.outline
  | none => .nil

/-- The tree of a function. -/
def Function.outline (f : Function) : Outline :=
  .single (.plain .functionDeclaration (some f.name.text)) <|
  .node (.plain .type (some f.type.text)) .nil <|
  .node (.plain .identifier (some f.name.text)) .nil <|
  .node (.plain .parameters none) (f.parameters.foldr (fun p rest => p.outline ++ rest) .nil) <|
    bodyOutline f.body

/-- The tree of a program. -/
def Program.outline (p : Program) : Outline :=
  .single (.plain .program none) (p.functions.foldr (fun f rest => f.outline ++ rest) .nil)

/-- The tree of a program as a table, with no places. -/
def Program.tree (p : Program) : Tree := .ofOutline p.outline

/-! ## Depths -/

mutual

/-- How many blocks of the statements stand around one another. -/
def Body.depth : Body → Nat
  | .done => 0
  | .simple _ rest => rest.depth
  | .loop _ _ body rest => max (body.depth + 1) rest.depth
  | .branch _ body otherwise rest => max (max (body.depth + 1) otherwise.depth) rest.depth

/-- How many blocks of an `else` stand around one another, the `else` itself being one. -/
def Else.depth : Else → Nat
  | .nothing => 0
  | .block body => body.depth + 1
  | .chain _ body otherwise => max (body.depth + 1) otherwise.depth + 1

end

/-- How many blocks of a function stand around one another. -/
def Function.depth (f : Function) : Nat := (f.body.map fun body => body.depth + 1).getD 0

/-- How many blocks of a program stand around one another. -/
def Program.depth (p : Program) : Nat := p.functions.foldr (fun f rest => max f.depth rest) 0

end Grammar

end BraceLang
