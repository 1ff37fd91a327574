import BraceLang.Flow.Graph
import BraceLang.Program.Outline

/-!
# `Flow.Station` — the nodes of the graph of a function

The statements of a function, in source order and at any depth, become the nodes of its graph
between entry and exit. Each remembers the number of its node in the syntax tree, which is found by
counting: the outline of a statement begins with the statement itself, then its condition with one
node for each token, and then its blocks, each with a node of its own before its contents.
-/

namespace BraceLang

/-- The texts of some tokens with single blanks between them. -/
def joinTexts (tokens : List Token) : String := " ".intercalate (tokens.map (·.text))

namespace Simple

/-- A statement without a block as a short text. -/
def flowLabel : Simple → String
  | .declaration type name suffix initializer _ =>
    typeText type suffix ++ " " ++ name.text ++
      (match initializer with
        | some i => " = " ++ joinTexts i.value
        | none => "")
  | .call name _ arguments _ _ =>
    name.text ++ "(" ++ ", ".intercalate ((argumentTokens arguments).map (·.text)) ++ ")"
  | .ret _ value _ => if value.isEmpty then "return" else "return " ++ joinTexts value
  | .assignment target operator value _ =>
    target.text ++ " " ++ operator.text ++ " " ++ joinTexts value

/-- The kind of node that a statement without a block becomes. -/
def flowKind : Simple → Flow.Kind
  | .call .. => .call
  | .ret .. => .ret
  | _ => .statement

/-- Whether the statement is a `return`, behind which control never goes on. -/
def isReturn : Simple → Bool
  | .ret .. => true
  | _ => false

/-- The station of a statement without a block that has the number `id` in the syntax tree. -/
def station (s : Simple) (id : Nat) : Flow.Station := ⟨s.flowKind, none, s.flowLabel, some id⟩

end Simple

/-- The kind of node that a loop becomes. -/
def LoopKind.flowKind : LoopKind → Flow.Kind
  | .forLoop => .forLoop
  | .whileLoop => .whileLoop

/-- The station of a statement with a condition that has the number `id` in the syntax tree. -/
def Header.station (h : Header) (kind : Flow.Kind) (keyword : String) (id : Nat) : Flow.Station :=
  ⟨kind, some (joinTexts h.condition), keyword ++ " (" ++ joinTexts h.condition ++ ")", some id⟩

namespace Code

/-- The number of statements in the code, at any depth. -/
def statementCount : Code → Nat
  | done => 0
  | skip _ rest => rest.statementCount
  | simple _ rest => 1 + rest.statementCount
  | loop _ _ body _ rest | ifThen _ body _ rest => 1 + body.statementCount + rest.statementCount
  | ifThenElse _ body _ _ other _ rest =>
    1 + body.statementCount + other.statementCount + rest.statementCount

/-- Code that has a statement has at least one. -/
theorem statementCount_pos {c : Code} (h : c.isEmpty = false) : 0 < c.statementCount := by
  induction c with
  | done => simp [isEmpty] at h
  | skip _ rest ih => exact ih h
  | _ => simp only [statementCount]; omega

/-- The stations of the statements in some code of which the first statement has the number `id` in
    the syntax tree. -/
def stations (id : Nat) : Code → List Flow.Station
  | done => []
  | skip _ rest => rest.stations id
  | simple s rest => s.station id :: rest.stations (id + 1 + s.parts.size)
  | loop kind h body _ rest =>
    let inner := id + 3 + h.condition.length
    h.station kind.flowKind kind.keyword id ::
      (body.stations inner ++ rest.stations (inner + body.nodeCount))
  | ifThen h body _ rest =>
    let inner := id + 3 + h.condition.length
    h.station .branch HeaderKind.conditional.keyword id ::
      (body.stations inner ++ rest.stations (inner + body.nodeCount))
  | ifThenElse h body _ _ other _ rest =>
    let inner := id + 3 + h.condition.length
    let otherInner := inner + body.nodeCount + 1
    h.station .branch HeaderKind.conditional.keyword id ::
      (body.stations inner ++ (other.stations otherInner ++
        rest.stations (otherInner + other.nodeCount)))

/-- There is one station for each statement. -/
theorem length_stations (id : Nat) (c : Code) : (c.stations id).length = c.statementCount := by
  induction c generalizing id <;> simp_all [stations, statementCount] <;> omega

end Code

namespace Flow

/-- The station of the entry of a function that has the number `id` in the syntax tree. -/
def entryStation (id : Nat) : Station := ⟨.entry, none, Kind.name .entry, some id⟩

/-- The station of the exit, which comes from no node of the syntax tree. -/
def exitStation : Station := ⟨.exit, none, Kind.name .exit, none⟩

end Flow

namespace Function

/-- The code of the body of a function. A function without a body has none. -/
def code (f : Function) : Code := (f.body.map Block.code).getD .done

/-- The stations of the graph of a function that has the number `id` in the syntax tree: the entry,
    the statements of its body, and the exit. -/
def stations (f : Function) (id : Nat) : List Flow.Station :=
  Flow.entryStation id ::
    (f.code.stations (id + 2 + f.startOutline.size) ++ [Flow.exitStation])

end Function

end BraceLang
