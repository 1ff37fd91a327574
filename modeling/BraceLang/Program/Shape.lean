import BraceLang.Program.StatementReader
import BraceLang.Token.Cursor

/-!
# `Program.Shape` — recognising a statement by its index

A reader with a cursor does not take tokens away. It asks whether a statement begins at an index, and
then knows the index of its last token, or of the brace if the statement has a block. Where an
expression ends and where a parenthesis closes is looked up; the brackets of an array and the
arguments of a call are gone through one by one.

## Contents
- `Form`, what a statement can be, and `Shape`, what is recognised of one.
- `Cursor.declarationAt?`, `Cursor.headerAt?`, `Cursor.callAt?`, `Cursor.retAt?` and
  `Cursor.assignmentAt?`, one for each form.
- `Cursor.shapeAt?` for a form, and `Cursor.statementAt?`, which tries one form after the other.
-/

namespace BraceLang

/-- The forms of a statement. -/
inductive Form
  | declaration
  | header (kind : HeaderKind)
  | call
  | ret
  | assignment
  deriving DecidableEq, Repr

/-- Every form, in the order in which they are tried. -/
def Form.all : List Form :=
  .declaration :: (HeaderKind.all.map .header ++ [.call, .ret, .assignment])

/-- What is recognised of a statement: all of it, or its header if it has a block. -/
inductive Shape
  | simple (x : Simple)
  | header (kind : HeaderKind) (h : Header)
  deriving DecidableEq, Repr

/-- The tokens that are recognised, from left to right. -/
def Shape.tokens : Shape → List Token
  | simple x => x.tokens
  | header _ h => h.tokens

namespace Cursor

/-- The index of the next `]` from an index on, if no other punctuation comes before it. -/
def bracketEnd? (c : Cursor) (index : Nat) : Option Nat :=
  match h : c.token? index with
  | none => none
  | some t =>
    if t.isPunct "]" then some index
    else if t.kind == .punctuation then none
    else
      have := (Array.getElem?_eq_some_iff.mp h).1
      c.bracketEnd? (index + 1)
termination_by c.tokens.size - index

/-- The brackets of an array at an index, which may be missing, and the index behind them. -/
def suffixAt? (c : Cursor) (index : Nat) : Option (List Token × Nat) :=
  if c.isPunctAt index "[" then
    (c.bracketEnd? (index + 1)).map fun close => (c.slice index (close + 1), close + 1)
  else some ([], index)

/-- The expression at an index, the semicolon behind it, and the index of that. -/
def valueAt? (c : Cursor) (start : Nat) : Option (List Token × Token × Nat) :=
  let stop := c.expressionEnd start
  if stop == start then none
  else
    match c.token? stop with
    | some t => if t.isPunct ";" then some (c.slice start stop, t, stop) else none
    | none => none

/-- The index of the `)` behind one or more arguments that begin at an index. -/
def argumentsEnd? (c : Cursor) (index : Nat) : Option Nat :=
  match h : c.token? index with
  | none => none
  | some a =>
    if a.isArgument then
      if c.isPunctAt (index + 1) "," then
        have := (Array.getElem?_eq_some_iff.mp h).1
        c.argumentsEnd? (index + 2)
      else if c.isPunctAt (index + 1) ")" then some (index + 1)
      else none
    else none
termination_by c.tokens.size - index

/-- The declaration at an index, and the index of its semicolon. -/
def declarationAt? (c : Cursor) (index : Nat) : Option (Simple × Nat) :=
  match c.token? index, c.token? (index + 1) with
  | some type, some name =>
    if type.isTypeName && name.kind == .identifier then
      match c.suffixAt? (index + 2) with
      | some (suffix, next) =>
        match c.token? next with
        | some t =>
          if t.hasText .operator "=" then
            (c.valueAt? (next + 1)).map fun (value, semicolon, stop) =>
              (.declaration type name suffix (some ⟨t, value⟩) semicolon, stop)
          else if t.isPunct ";" then some (.declaration type name suffix none t, next)
          else none
        | none => none
      | none => none
    else none
  | _, _ => none

/-- The header of a kind at an index, and the index of its brace. -/
def headerAt? (c : Cursor) (kind : HeaderKind) (index : Nat) : Option (Header × Nat) :=
  match c.token? index, c.token? (index + 1), c.matchingParen? (index + 1) with
  | some keyword, some opening, some close =>
    if keyword.isKeyword kind.keyword then
      match c.token? close, c.token? (close + 1) with
      | some closing, some brace =>
        if brace.isPunct "\x7b" then
          some (⟨keyword, opening, c.slice (index + 2) close, closing, brace⟩, close + 1)
        else none
      | _, _ => none
    else none
  | _, _, _ => none

/-- The call at an index, and the index of its semicolon. -/
def callAt? (c : Cursor) (index : Nat) : Option (Simple × Nat) :=
  match c.token? index, c.token? (index + 1) with
  | some name, some opening =>
    if name.kind == .identifier && opening.isPunct "(" then
      match if c.isPunctAt (index + 2) ")" then some (index + 2) else c.argumentsEnd? (index + 2) with
      | some close =>
        match c.token? close, c.token? (close + 1) with
        | some closing, some t =>
          if t.isPunct ";" then
            some (.call name opening (c.slice (index + 2) close) closing t, close + 1)
          else none
        | _, _ => none
      | none => none
    else none
  | _, _ => none

/-- The `return` at an index, and the index of its semicolon. -/
def retAt? (c : Cursor) (index : Nat) : Option (Simple × Nat) :=
  match c.token? index, c.token? (index + 1) with
  | some keyword, some t =>
    if keyword.isKeyword "return" then
      if t.isPunct ";" then some (.ret keyword [] t, index + 1)
      else (c.valueAt? (index + 1)).map fun (value, semicolon, stop) =>
        (.ret keyword value semicolon, stop)
    else none
  | _, _ => none

/-- The assignment at an index, and the index of its semicolon. -/
def assignmentAt? (c : Cursor) (index : Nat) : Option (Simple × Nat) :=
  match c.token? index, c.token? (index + 1) with
  | some target, some operator =>
    if target.kind == .identifier && operator.kind == .operator &&
        assignmentOperators.contains operator.text then
      (c.valueAt? (index + 2)).map fun (value, semicolon, stop) =>
        (.assignment target operator value semicolon, stop)
    else none
  | _, _ => none

/-- What is recognised as a statement of a form at an index, and the index of its last token. -/
def shapeAt? (c : Cursor) (index : Nat) : Form → Option (Shape × Nat)
  | .declaration => (c.declarationAt? index).map fun (x, stop) => (.simple x, stop)
  | .header kind => (c.headerAt? kind index).map fun (h, stop) => (.header kind h, stop)
  | .call => (c.callAt? index).map fun (x, stop) => (.simple x, stop)
  | .ret => (c.retAt? index).map fun (x, stop) => (.simple x, stop)
  | .assignment => (c.assignmentAt? index).map fun (x, stop) => (.simple x, stop)

/-- What is recognised as a statement at an index by the first form that fits, and the index of its last
    token. -/
def statementAt? (c : Cursor) (index : Nat) : Option (Shape × Nat) :=
  Form.all.findSome? (c.shapeAt? index)

end Cursor

end BraceLang
