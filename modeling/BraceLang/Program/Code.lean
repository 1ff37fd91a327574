import BraceLang.Program.Statement

/-!
# `Program.Code` — the contents of a block

`Code` is what stands between the braces of a block: a row of statements, some of which hold blocks
of their own, with the tokens that belong to no statement left in between. Bare braces are such
tokens, so the statements inside them are statements of the block around them.

The type has a single recursive form, like `Forest`: a statement holds its blocks and the code
after it. One induction therefore covers nesting and sequence alike.

## Contents
- `ElseHead` and `Code`, with `Code.tokens`, the text a block was read from.
- `Code.isEmpty` and `Code.lastToken?`, and `blockLast` and `elseLast`, where blocks end.
-/

namespace BraceLang

/-- The start of an `else`: the keyword, and the brace behind it. There is no brace if another
    `if` follows, which then is all that the `else` holds. -/
structure ElseHead where
  keyword : Token
  brace : Option Token
  deriving DecidableEq, Repr

/-- The tokens of the start of an `else`. -/
def ElseHead.tokens (e : ElseHead) : List Token := e.keyword :: e.brace.toList

/-- The contents of a block. A block that the source does not close has no closing brace. -/
inductive Code
  | done
  /-- A token that belongs to no statement. -/
  | skip (token : Token) (rest : Code)
  | simple (statement : Simple) (rest : Code)
  /-- A loop with its body and the brace that closes it. -/
  | loop (kind : LoopKind) (header : Header) (body : Code) (closing : Option Token) (rest : Code)
  /-- An `if` without an `else`. -/
  | ifThen (header : Header) (body : Code) (closing : Option Token) (rest : Code)
  /-- An `if` with an `else`, and the brace that closes each of the two blocks. -/
  | ifThenElse (header : Header) (body : Code) (closing : Option Token)
      (head : ElseHead) (alternative : Code) (alternativeClosing : Option Token) (rest : Code)
  deriving DecidableEq, Repr, Inhabited

namespace Code

/-- The tokens of the code, from left to right. -/
def tokens : Code → List Token
  | done => []
  | skip t rest => t :: rest.tokens
  | simple s rest => s.tokens ++ rest.tokens
  | loop _ h body closing rest => h.tokens ++ (body.tokens ++ (closing.toList ++ rest.tokens))
  | ifThen h body closing rest => h.tokens ++ (body.tokens ++ (closing.toList ++ rest.tokens))
  | ifThenElse h body closing e other otherClosing rest =>
    h.tokens ++ (body.tokens ++ (closing.toList ++
      (e.tokens ++ (other.tokens ++ (otherClosing.toList ++ rest.tokens)))))

/-- Whether the code holds no statement. -/
def isEmpty : Code → Bool
  | done => true
  | skip _ rest => rest.isEmpty
  | _ => false

/-- The last token of the code. -/
def lastToken? : Code → Option Token
  | done => none
  | skip t rest => rest.lastToken? <|> some t
  | simple s rest => rest.lastToken? <|> some s.last
  | loop _ h body closing rest | ifThen h body closing rest =>
    rest.lastToken? <|> closing <|> body.lastToken? <|> some h.brace
  | ifThenElse _ _ _ e other otherClosing rest =>
    rest.lastToken? <|> otherClosing <|> other.lastToken? <|> e.brace <|> some e.keyword

theorem lastToken?_eq_getLast? (c : Code) : c.lastToken? = c.tokens.getLast? := by
  induction c with
  | done => rfl
  | skip t rest ih =>
    simp only [lastToken?, tokens, ih, List.getLast?_cons]
    cases rest.tokens.getLast? <;> rfl
  | simple s rest ih =>
    simp [lastToken?, tokens, ih, List.getLast?_append, s.getLast?_tokens]
  | loop k h body closing rest ihb ih | ifThen h body closing rest ihb ih =>
    cases closing <;>
      simp [lastToken?, tokens, ih, ihb, Header.tokens, List.getLast?_append, List.getLast?_cons]
  | ifThenElse h body closing e other otherClosing rest ihb iho ih =>
    obtain ⟨keyword, brace⟩ := e
    cases otherClosing <;> cases brace <;>
      simp [lastToken?, tokens, ih, iho, ElseHead.tokens, List.getLast?_append,
        List.getLast?_cons]

end Code

/-- The last token of a block that is opened by `opening`. Without a closing brace this is the last
    token of its contents, and of an empty block the opening brace. -/
def blockLast (opening : Token) (body : Code) (closing : Option Token) : Token :=
  (closing <|> body.lastToken?).getD opening

/-- The last token of an `else`. -/
def elseLast (e : ElseHead) (other : Code) (closing : Option Token) : Token :=
  (closing <|> other.lastToken? <|> e.brace).getD e.keyword

end BraceLang
