/-!
# `Token.Lexeme` — the classes of lexemes and the longest match

A **lexeme** is a text that the language reads as one piece: a run of blanks, a comment, a name, a
quoted text, a number, an operator or a punctuation mark. For each class, `Class.reach` is the
length of the longest prefix of a text that belongs to the class, and `longest?` picks the class
that reaches furthest.

All classes are about ASCII characters, except that a comment and a quoted text may hold any
character but the one that ends them.

## Contents
- `isBlank`, `isNameStart`, `isNamePart`: the sets of characters.
- `Class` and `Class.reach`, with one function for each class that needs more than one line.
- `longest?` and `longest?_pos`, the longest match and the fact that it is not empty.
-/

namespace BraceLang.Lexeme

/-- The classes of lexemes. The first two are skipped, the others become tokens. -/
inductive Class
  | whitespace
  | comment
  | identifier
  | string
  | number
  | operator
  | punctuation
  deriving DecidableEq, Repr

/-- The blanks: space, tab, carriage return, line feed and form feed. -/
def isBlank (c : Char) : Bool :=
  c == ' ' || c == '\t' || c == '\r' || c == '\n' || c == '\x0c'

/-- The characters that begin a name. -/
def isNameStart (c : Char) : Bool := c.isAlpha || c == '_'

/-- The characters that continue a name. -/
def isNamePart (c : Char) : Bool := c.isAlphanum || c == '_'

/-- The operators of two characters. -/
def operatorPairs : List (Char × Char) :=
  [('=', '='), ('!', '='), ('<', '='), ('>', '='), ('&', '&'), ('|', '|'), ('+', '+'), ('-', '-'),
   ('+', '='), ('-', '='), ('*', '='), ('/', '='), ('%', '='), ('-', '>'), ('<', '<'), ('>', '>')]

/-- The operators of one character. -/
def operatorSingles : List Char :=
  ['+', '-', '*', '/', '%', '=', '<', '>', '!', '&', '|', '^', '~', '?', ':', '.']

/-- The punctuation marks. -/
def marks : List Char := [';', ',', '(', ')', '\x7b', '\x7d', '[', ']']

/-- The number of characters at the front of a text that satisfy `p`. -/
def runLength (p : Char → Bool) (s : List Char) : Nat := (s.takeWhile p).length

/-- A comment starts with two slashes and ends before the next line feed. -/
def commentReach : List Char → Nat
  | '/' :: '/' :: s => 2 + runLength (· != '\n') s
  | _ => 0

/-- A name starts with a letter or an underscore, and may go on with digits as well. -/
def nameReach : List Char → Nat
  | c :: s => if isNameStart c then 1 + runLength isNamePart s else 0
  | [] => 0

/-- A quoted text goes from a quote to the next quote of the same form, across line feeds and with
    no way to write that quote inside it. A quote that is never closed begins no lexeme. -/
def quotedReach : List Char → Nat
  | q :: s =>
    if q == '"' || q == '\'' then
      let inner := runLength (· != q) s
      if inner < s.length then inner + 2 else 0
    else 0
  | [] => 0

/-- The fraction of a number is a point with at least one digit behind it. -/
def fractionReach : List Char → Nat
  | '.' :: s =>
    let digits := runLength Char.isDigit s
    if digits = 0 then 0 else digits + 1
  | _ => 0

/-- The exponent of a number is the letter `e` with at least one digit behind it; a sign may stand
    between the two. -/
def exponentReach : List Char → Nat
  | e :: s =>
    if e == 'e' || e == 'E' then
      let sign := match s with
        | c :: _ => if c == '+' || c == '-' then 1 else 0
        | [] => 0
      let digits := runLength Char.isDigit (s.drop sign)
      if digits = 0 then 0 else digits + sign + 1
    else 0
  | [] => 0

/-- A number is a run of digits, then a fraction and then an exponent where there is one. A point
    or an `e` without its digits is left for the next lexeme. -/
def numberReach (s : List Char) : Nat :=
  let digits := runLength Char.isDigit s
  if digits = 0 then 0
  else
    let fraction := fractionReach (s.drop digits)
    digits + fraction + exponentReach (s.drop (digits + fraction))

/-- An operator of two characters, or else one of a single character. -/
def operatorReach : List Char → Nat
  | c :: s =>
    if s.head?.any fun d => operatorPairs.contains (c, d) then 2
    else if operatorSingles.contains c then 1
    else 0
  | [] => 0

/-- One of the punctuation marks. -/
def markReach : List Char → Nat
  | c :: _ => if marks.contains c then 1 else 0
  | [] => 0

namespace Class

/-- Every class. -/
def all : List Class :=
  [.whitespace, .comment, .identifier, .string, .number, .operator, .punctuation]

/-- The length of the longest prefix of a text that belongs to the class. It is 0 if there is none,
    since no lexeme is empty. -/
def reach : Class → List Char → Nat
  | .whitespace => runLength isBlank
  | .comment => commentReach
  | .identifier => nameReach
  | .string => quotedReach
  | .number => numberReach
  | .operator => operatorReach
  | .punctuation => markReach

end Class

/-- The better of a match found so far and the match of one more class, which has to be longer. -/
def better (s : List Char) (found : Option (Class × Nat)) (c : Class) : Option (Class × Nat) :=
  if (found.map (·.2)).getD 0 < c.reach s then some (c, c.reach s) else found

/-- The longest lexeme at the front of a text: its class and its length. -/
def longest? (s : List Char) : Option (Class × Nat) :=
  Class.all.foldl (better s) none

/-- The longest lexeme is the prefix that its class reaches, and it is not empty. -/
theorem longest?_pos {s : List Char} {c : Class} {n : Nat} (h : longest? s = some (c, n)) :
    n = c.reach s ∧ 0 < n := by
  have step : ∀ (cs : List Class) (found : Option (Class × Nat)),
      (∀ d m, found = some (d, m) → m = d.reach s ∧ 0 < m) →
      ∀ d m, cs.foldl (better s) found = some (d, m) → m = d.reach s ∧ 0 < m := by
    intro cs
    induction cs with
    | nil => exact fun _ hf => hf
    | cons c cs ih =>
      intro found hf
      refine ih (better s found c) fun d m hb => ?_
      unfold better at hb
      split at hb
      · next hlt =>
        obtain ⟨rfl, rfl⟩ := Prod.mk.inj (Option.some.inj hb)
        exact ⟨rfl, Nat.zero_lt_of_lt hlt⟩
      · exact hf d m hb
  exact step _ none (fun _ _ hn => by simp at hn) c n h

end BraceLang.Lexeme
