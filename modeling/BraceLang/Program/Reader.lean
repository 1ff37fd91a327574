import BraceLang.Program.Basic
import BraceLang.Program.CodeReader

/-!
# `Program.Reader` — reading a program

A function begins with the name of a type, an identifier and an opening parenthesis; any other
token outside of a function is skipped. Its parameter list goes to the matching parenthesis, with
no regard to anything else, and its body follows if a brace does.

## Contents
- `ParameterList.readItems` and `Function.read?`, with the fact that nothing is lost.
- `Program.read`, the reader of a whole row of tokens, and `Program.read_tokens`.
-/

namespace BraceLang

/-- Reads the parts of a parameter list up to the parenthesis that closes it, when `depth` further
    parentheses in it are open. A parameter is the name of a type and an identifier behind it,
    outside of further parentheses. Gives the parts, the closing parenthesis and the tokens left. -/
def ParameterList.readItems :
    Nat → List Token → List ParameterItem × Option Token × List Token
  | _, [] => ([], none, [])
  | depth, t :: s =>
    if t.isPunct "(" then
      let (items, closing, rest) := readItems (depth + 1) s
      (.skipped t :: items, closing, rest)
    else if t.isPunct ")" then
      match depth with
      | 0 => ([], some t, s)
      | depth + 1 =>
        let (items, closing, rest) := readItems depth s
        (.skipped t :: items, closing, rest)
    else
      match s with
      | name :: s' =>
        if depth == 0 && t.isTypeName && name.kind == .identifier then
          let (items, closing, rest) := readItems depth s'
          (.parameter t name :: items, closing, rest)
        else
          let (items, closing, rest) := readItems depth (name :: s')
          (.skipped t :: items, closing, rest)
      | [] => ([.skipped t], none, [])

theorem ParameterList.readItems_tokens (depth : Nat) (s : List Token) :
    (readItems depth s).1.flatMap ParameterItem.tokens ++
      ((readItems depth s).2.1.toList ++ (readItems depth s).2.2) = s := by
  fun_induction readItems depth s <;> simp_all [ParameterItem.tokens]

/-- Takes the start of a function up to its parameters: its type, its name and the parenthesis. -/
def Function.readStart? : List Token → Option (Token × Token × Token × List Token)
  | type :: name :: opening :: s =>
    if type.isTypeName && name.kind == .identifier && opening.isPunct "(" then
      some (type, name, opening, s)
    else none
  | _ => none

theorem Function.readStart?_append {s rest : List Token} {type name opening : Token}
    (h : readStart? s = some (type, name, opening, rest)) :
    type :: name :: opening :: rest = s := by
  unfold readStart? at h
  split at h
  · split at h
    · obtain ⟨rfl, rfl, rfl, rfl⟩ := by simpa using h
      rfl
    · simp at h
  · simp at h

/-- What was read of the tokens `s` behind a parameter list: a body or a semicolon if there is one,
    and the tokens left. -/
structure Function.Tail (s : List Token) where
  body : Option Block
  semicolon : Option Token
  rest : List Token
  tokens_eq : (body.map Block.tokens).getD [] ++ (semicolon.toList ++ rest) = s

/-- What was read of the tokens `s` as a function, and the tokens left. -/
structure Function.Reading (s : List Token) where
  function : Function
  rest : List Token
  tokens_eq : function.tokens ++ rest = s

/-- Reads what follows the parameters of a function: its body, which is a block with no other block
    around it, or a semicolon. -/
def Function.readTail (limit : Nat) (s : List Token) : Except NestingTooDeep (Tail s) :=
  match s with
  | [] => .ok ⟨none, none, [], rfl⟩
  | t :: s =>
    if t.isPunct "\x7b" then
      match enter limit 0 t with
      | .error e => .error e
      | .ok level =>
        (Code.read limit level (.block 0) s).map fun body =>
          ⟨some ⟨t, body.code, body.closing⟩, none, body.rest, by
            simp [Block.tokens, body.tokens_eq]⟩
    else if t.isPunct ";" then .ok ⟨none, some t, s, rfl⟩
    else .ok ⟨none, none, t :: s, rfl⟩

/-- Reads a whole function if one begins here. -/
def Function.read? (limit : Nat) (s : List Token) :
    Option (Except NestingTooDeep (Reading s)) :=
  match h : readStart? s with
  | none => none
  | some (type, name, opening, rest) =>
    let items := ParameterList.readItems 0 rest
    some <| (readTail limit items.2.2).map fun tail =>
      ⟨⟨type, name, ⟨opening, items.1, items.2.1⟩, tail.body, tail.semicolon⟩, tail.rest, by
        rw [← readStart?_append h, ← ParameterList.readItems_tokens 0 rest]
        simp [tokens, ParameterList.tokens, tail.tokens_eq, items]⟩

theorem Function.length_lt_of_append (f : Function) {s rest : List Token}
    (h : f.tokens ++ rest = s) : rest.length < s.length := by
  subst h
  simp [tokens]
  omega

/-- Reads the parts of a program. -/
def Program.readItems (limit : Nat) (s : List Token) : Except NestingTooDeep (List ProgramItem) :=
  match s with
  | [] => .ok []
  | t :: s =>
    match Function.read? limit (t :: s) with
    | none => (readItems limit s).map (.skipped t :: ·)
    | some (.error e) => .error e
    | some (.ok f) =>
      have := f.function.length_lt_of_append f.tokens_eq
      (readItems limit f.rest).map (.function f.function :: ·)
termination_by s.length
decreasing_by
  all_goals
    simp only [List.length_cons] at *
    omega

/-- The nesting limit of a caller that does not choose one. -/
def Program.defaultLimit : Nat := 256

/-- Reads a program from a row of tokens in which no more than `limit` blocks stand around one
    another. -/
def Program.read (limit : Nat) (tokens : List Token) : Except NestingTooDeep Program :=
  (readItems limit tokens).map Program.mk

theorem Program.readItems_tokens {limit : Nat} {s : List Token} {items : List ProgramItem}
    (h : readItems limit s = .ok items) : items.flatMap ProgramItem.tokens = s := by
  fun_induction readItems limit s generalizing items with
  | case1 =>
    obtain rfl := by simpa using h
    rfl
  | case2 t s _ ih =>
    cases hr : readItems limit s with
    | error e => simp [hr, Except.map] at h
    | ok rest =>
      obtain rfl := by simpa [hr, Except.map] using h
      simp [ProgramItem.tokens, ih hr]
  | case3 => simp at h
  | case4 t s f _ _ ih =>
    cases hr : readItems limit f.rest with
    | error e => simp [hr, Except.map] at h
    | ok rest =>
      obtain rfl := by simpa [hr, Except.map] using h
      simp [ProgramItem.tokens, ih hr, f.tokens_eq]

/-- Nothing is lost: the tokens of a program are those that it was read from. -/
theorem Program.read_tokens {limit : Nat} {s : List Token} {p : Program}
    (h : read limit s = .ok p) : p.tokens = s := by
  unfold read at h
  cases hr : readItems limit s with
  | error e => simp [hr, Except.map] at h
  | ok items =>
    obtain rfl := by simpa [hr, Except.map] using h
    exact readItems_tokens hr

end BraceLang
