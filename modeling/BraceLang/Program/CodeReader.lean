import BraceLang.Failure
import BraceLang.Program.Code
import BraceLang.Program.StatementReader

/-!
# `Program.CodeReader` — reading the contents of a block

`Code.read` descends into the blocks of the tokens ahead. It goes past bare braces and past every
token that begins no statement, and stops behind the brace that closes its block. The one thing
that can go wrong is that blocks stand around one another more often than the caller allows.

What has been read comes with the equation that nothing is lost: the code, the brace that closed it
and the tokens left are the tokens that were ahead. The recursion ends because of it, since every
reader leaves a row of tokens that is shorter.

## Contents
- `ElseHead.read?`, the start of an `else`.
- `Code.Goal`, how far to read, and `Code.Reading`, what was read.
- `enter`, the check against the nesting limit.
- `Code.read`.
-/

namespace BraceLang

namespace ElseHead

/-- Takes the start of an `else` if a block or another `if` follows. A block is entered with its
    brace; an `if` is left to be read. -/
def read? : List Token → Option (ElseHead × List Token)
  | keyword :: brace :: s =>
    if keyword.isKeyword "else" then
      if brace.isPunct "\x7b" then some (⟨keyword, some brace⟩, s)
      else if (Header.read? .conditional (brace :: s)).isSome then
        some (⟨keyword, none⟩, brace :: s)
      else none
    else none
  | _ => none

theorem read?_append {s rest : List Token} {e : ElseHead} (h : read? s = some (e, rest)) :
    e.tokens ++ rest = s := by
  unfold read? at h
  split at h
  · split at h
    · split at h
      · obtain ⟨rfl, rfl⟩ := by simpa using h
        rfl
      · split at h
        · obtain ⟨rfl, rfl⟩ := by simpa using h
          rfl
        · simp at h
    · simp at h
  · simp at h

theorem length_lt_of_append (e : ElseHead) {s rest : List Token} (h : e.tokens ++ rest = s) :
    rest.length < s.length := by
  have := congrArg List.length h
  simp [tokens] at this
  omega

end ElseHead

namespace Code

/-- How far to read. -/
inductive Goal
  /-- Up to the brace that closes the block, when `bare` further braces in it are open. -/
  | block (bare : Nat)
  /-- One statement. -/
  | statement
  /-- Nothing. -/
  | nothing
  deriving DecidableEq, Repr

namespace Goal

/-- The goal inside one more pair of bare braces. -/
def opened : Goal → Goal
  | block bare => block (bare + 1)
  | goal => goal

/-- The goal behind a closing brace, or none if that brace closes the block. -/
def closed? : Goal → Option Goal
  | block 0 => none
  | block (bare + 1) => some (block bare)
  | goal => some goal

/-- The goal behind a statement. -/
def next : Goal → Goal
  | block bare => block bare
  | _ => nothing

end Goal

/-- What was read of the tokens `s`: the code, the brace that closed it, and the tokens left. -/
structure Reading (s : List Token) where
  code : Code
  closing : Option Token
  rest : List Token
  tokens_eq : code.tokens ++ (closing.toList ++ rest) = s

namespace Reading

theorem length_rest_le {s : List Token} (r : Reading s) : r.rest.length ≤ s.length := by
  have h := congrArg List.length r.tokens_eq
  simp only [List.length_append] at h
  omega

/-- Nothing was read. -/
def nothing (s : List Token) : Reading s := ⟨.done, none, s, rfl⟩

/-- The brace at the front has closed the block. -/
def close (t : Token) (s : List Token) : Reading (t :: s) := ⟨.done, some t, s, rfl⟩

/-- A token that belongs to no statement, before what was read. -/
def skip (t : Token) {s : List Token} (r : Reading s) : Reading (t :: s) :=
  ⟨.skip t r.code, r.closing, r.rest, by simp [Code.tokens, r.tokens_eq]⟩

/-- A statement without a block, before what was read. -/
def simple {s s₁ : List Token} (x : Simple) (hx : x.tokens ++ s₁ = s) (r : Reading s₁) :
    Reading s :=
  ⟨.simple x r.code, r.closing, r.rest, by simp [Code.tokens, r.tokens_eq, hx]⟩

/-- A loop, before what was read. -/
def loop {s s₁ : List Token} (kind : LoopKind) (h : Header) (hh : h.tokens ++ s₁ = s)
    (body : Reading s₁) (r : Reading body.rest) : Reading s :=
  ⟨.loop kind h body.code body.closing r.code, r.closing, r.rest, by
    simp [Code.tokens, r.tokens_eq, body.tokens_eq, hh]⟩

/-- An `if` without an `else`, before what was read. -/
def ifThen {s s₁ : List Token} (h : Header) (hh : h.tokens ++ s₁ = s)
    (body : Reading s₁) (r : Reading body.rest) : Reading s :=
  ⟨.ifThen h body.code body.closing r.code, r.closing, r.rest, by
    simp [Code.tokens, r.tokens_eq, body.tokens_eq, hh]⟩

/-- An `if` with an `else`, before what was read. -/
def ifThenElse {s s₁ s₂ : List Token} (h : Header) (hh : h.tokens ++ s₁ = s)
    (body : Reading s₁) (e : ElseHead) (he : e.tokens ++ s₂ = body.rest)
    (other : Reading s₂) (r : Reading other.rest) : Reading s :=
  ⟨.ifThenElse h body.code body.closing e other.code other.closing r.code, r.closing, r.rest, by
    simp [Code.tokens, r.tokens_eq, other.tokens_eq, he, body.tokens_eq, hh]⟩

end Reading

end Code

/-- Enters one more block, which begins with the token `anchor`, when `level` blocks stand around
    it. The result is the number of blocks around its contents. -/
def enter (limit level : Nat) (anchor : Token) : Except NestingTooDeep Nat :=
  if level < limit then .ok (level + 1) else .error ⟨level + 1, limit, anchor.position⟩

/-- How far to read behind the start of an `else`: its block, or the `if` that it holds. -/
def ElseHead.goal (e : ElseHead) : Code.Goal :=
  if e.brace.isSome then .block 0 else .statement

/-- Reads code with `level` blocks around it, of which no more than `limit` may stand around one
    another.

At each place a brace is looked for first, then a statement without a block, then one with a block;
any other token is skipped. The block of a statement is entered at its brace and an `else` at its
keyword, and an `else` that holds another `if` is one block more around that `if`. -/
def Code.read (limit level : Nat) (goal : Goal) (s : List Token) :
    Except NestingTooDeep (Reading s) :=
  match goal, s with
  | .nothing, s => .ok (.nothing s)
  | _, [] => .ok (.nothing [])
  | goal, t :: rest =>
    if t.isPunct "\x7b" then (read limit level goal.opened rest).map (.skip t)
    else if t.isPunct "\x7d" then
      match goal.closed? with
      | none => .ok (.close t rest)
      | some goal => (read limit level goal rest).map (.skip t)
    else
      match hsimple : Simple.read? (t :: rest) with
      | some (x, s₁) =>
        have hx := Simple.read?_append hsimple
        have := x.length_lt_of_append hx
        (read limit level goal.next s₁).map (.simple x hx)
      | none =>
        match hheader : Header.readAny? (t :: rest) with
        | none => (read limit level goal rest).map (.skip t)
        | some (kind, h, s₁) =>
          have hh := Header.readAny?_append hheader
          have := h.length_lt_of_append hh
          match enter limit level h.brace with
          | .error e => .error e
          | .ok inner =>
            match read limit inner (.block 0) s₁ with
            | .error e => .error e
            | .ok body =>
              have := body.length_rest_le
              match kind with
              | .loop kind => (read limit level goal.next body.rest).map (.loop kind h hh body)
              | .conditional =>
                match helse : ElseHead.read? body.rest with
                | none => (read limit level goal.next body.rest).map (.ifThen h hh body)
                | some (e, s₂) =>
                  have he := ElseHead.read?_append helse
                  have := e.length_lt_of_append he
                  match enter limit level e.keyword with
                  | .error e => .error e
                  | .ok inner =>
                    match read limit inner e.goal s₂ with
                    | .error e => .error e
                    | .ok other =>
                      have := other.length_rest_le
                      (read limit level goal.next other.rest).map
                        (.ifThenElse h hh body e he other)
termination_by s.length
decreasing_by
  all_goals
    simp only [List.length_cons] at *
    omega

end BraceLang
