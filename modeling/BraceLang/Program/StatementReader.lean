import BraceLang.Program.Statement
import BraceLang.Token.Extent

/-!
# `Program.StatementReader` — recognising a statement by what is ahead

Each form of statement has a reader that looks at the tokens ahead and either takes the whole
statement (of a statement with a block: its header) or takes nothing. The forms differ in their
first two tokens, so at most one of them fits.

## Contents
- `valueThenSemicolon?`, `bracketSuffix?` and `arguments?`, the parts that statements share.
- `Simple.declaration?`, `Simple.call?`, `Simple.ret?`, `Simple.assignment?` and `Simple.read?`.
- `Header.read?` and `Header.readAny?`.
- For each reader, that the tokens it took and the tokens it left are the tokens that were ahead.
-/

namespace BraceLang

/-- The operators that assign. -/
def assignmentOperators : List String := ["=", "+=", "-=", "*=", "/=", "%="]

/-- Takes an expression of at least one token and the semicolon behind it. -/
def valueThenSemicolon? (s : List Token) : Option (List Token × Token × List Token) :=
  match s.take (expressionExtent 0 s), s.drop (expressionExtent 0 s) with
  | v :: vs, t :: rest => if t.isPunct ";" then some (v :: vs, t, rest) else none
  | _, _ => none

theorem valueThenSemicolon?_append {s value rest : List Token} {semicolon : Token}
    (h : valueThenSemicolon? s = some (value, semicolon, rest)) :
    value ++ semicolon :: rest = s := by
  unfold valueThenSemicolon? at h
  split at h
  · next v vs t r hv hr =>
    split at h
    · obtain ⟨rfl, rfl, rfl⟩ := by simpa using h
      rw [← hv, ← hr, List.take_append_drop]
    · simp at h
  · simp at h

/-- Takes the tokens up to the next `]`, and that one as well, if no other punctuation is among
    them. -/
def upToBracket? : List Token → Option (List Token × List Token)
  | [] => none
  | t :: s =>
    if t.isPunct "]" then some ([t], s)
    else if t.kind == .punctuation then none
    else (upToBracket? s).map fun (inner, rest) => (t :: inner, rest)

theorem upToBracket?_append {s taken rest : List Token}
    (h : upToBracket? s = some (taken, rest)) : taken ++ rest = s := by
  induction s generalizing taken with
  | nil => simp [upToBracket?] at h
  | cons t s ih =>
    unfold upToBracket? at h
    split at h
    · obtain ⟨rfl, rfl⟩ := by simpa using h
      rfl
    · split at h
      · simp at h
      · obtain ⟨⟨inner, r⟩, hr, he⟩ := Option.map_eq_some_iff.1 h
        obtain ⟨rfl, rfl⟩ := by simpa using he
        simp [ih hr]

/-- Takes the brackets of an array if there are any. Brackets that are not closed, or that hold
    punctuation, make the whole declaration unreadable. -/
def bracketSuffix? : List Token → Option (List Token × List Token)
  | [] => some ([], [])
  | t :: s =>
    if t.isPunct "[" then (upToBracket? s).map fun (inner, rest) => (t :: inner, rest)
    else some ([], t :: s)

theorem bracketSuffix?_append {s suffix rest : List Token}
    (h : bracketSuffix? s = some (suffix, rest)) : suffix ++ rest = s := by
  unfold bracketSuffix? at h
  split at h
  · obtain ⟨rfl, rfl⟩ := by simpa using h
    rfl
  · split at h
    · obtain ⟨⟨inner, r⟩, hr, he⟩ := Option.map_eq_some_iff.1 h
      obtain ⟨rfl, rfl⟩ := by simpa using he
      simp [upToBracket?_append hr]
    · obtain ⟨rfl, rfl⟩ := by simpa using h
      rfl

/-- Takes one or more arguments, separated by commas, and the `)` behind them. -/
def argumentList? : List Token → Option (List Token × Token × List Token)
  | a :: t :: s =>
    if a.isArgument then
      if t.isPunct "," then
        (argumentList? s).map fun (more, closing, rest) => (a :: t :: more, closing, rest)
      else if t.isPunct ")" then some ([a], t, s)
      else none
    else none
  | _ => none

theorem argumentList?_append {s arguments rest : List Token} {closing : Token}
    (h : argumentList? s = some (arguments, closing, rest)) :
    arguments ++ closing :: rest = s := by
  fun_induction argumentList? s generalizing arguments with
  | case1 a t s _ _ ih =>
    obtain ⟨⟨more, c, r⟩, hr, he⟩ := Option.map_eq_some_iff.1 h
    obtain ⟨rfl, rfl, rfl⟩ := by simpa using he
    simp [ih hr]
  | case2 a t s =>
    obtain ⟨rfl, rfl, rfl⟩ := by simpa using h
    rfl
  | case3 => simp at h
  | case4 => simp at h
  | case5 => simp at h

/-- Takes the arguments of a call, of which there may be none, and the `)` behind them. -/
def arguments? : List Token → Option (List Token × Token × List Token)
  | [] => none
  | t :: s => if t.isPunct ")" then some ([], t, s) else argumentList? (t :: s)

theorem arguments?_append {s arguments rest : List Token} {closing : Token}
    (h : arguments? s = some (arguments, closing, rest)) :
    arguments ++ closing :: rest = s := by
  unfold arguments? at h
  split at h
  · simp at h
  · split at h
    · obtain ⟨rfl, rfl, rfl⟩ := by simpa using h
      rfl
    · exact argumentList?_append h

namespace Simple

/-- Takes a declaration. Its name may be followed by the brackets of an array, and then either by
    a semicolon or by `=` and a value. -/
def declaration? : List Token → Option (Simple × List Token)
  | type :: name :: s =>
    if type.isTypeName && name.kind == .identifier then
      match bracketSuffix? s with
      | some (suffix, t :: rest) =>
        if t.hasText .operator "=" then
          (valueThenSemicolon? rest).map fun (value, semicolon, rest) =>
            (.declaration type name suffix (some ⟨t, value⟩) semicolon, rest)
        else if t.isPunct ";" then some (.declaration type name suffix none t, rest)
        else none
      | _ => none
    else none
  | _ => none

/-- Takes a call that is a statement of its own. Its arguments are single tokens. -/
def call? : List Token → Option (Simple × List Token)
  | name :: opening :: s =>
    if name.kind == .identifier && opening.isPunct "(" then
      match arguments? s with
      | some (arguments, closing, t :: rest) =>
        if t.isPunct ";" then some (.call name opening arguments closing t, rest) else none
      | _ => none
    else none
  | _ => none

/-- Takes a `return`, with or without a value. -/
def ret? : List Token → Option (Simple × List Token)
  | keyword :: t :: s =>
    if keyword.isKeyword "return" then
      if t.isPunct ";" then some (.ret keyword [] t, s)
      else (valueThenSemicolon? (t :: s)).map fun (value, semicolon, rest) =>
        (.ret keyword value semicolon, rest)
    else none
  | _ => none

/-- Takes an assignment to a name. -/
def assignment? : List Token → Option (Simple × List Token)
  | target :: operator :: s =>
    if target.kind == .identifier && operator.kind == .operator &&
        assignmentOperators.contains operator.text then
      (valueThenSemicolon? s).map fun (value, semicolon, rest) =>
        (.assignment target operator value semicolon, rest)
    else none
  | _ => none

/-- Takes whichever statement without a block is ahead. -/
def read? (s : List Token) : Option (Simple × List Token) :=
  declaration? s <|> call? s <|> ret? s <|> assignment? s

theorem declaration?_append {s rest : List Token} {x : Simple}
    (h : declaration? s = some (x, rest)) : x.tokens ++ rest = s := by
  unfold declaration? at h
  split at h
  · split at h
    · split at h
      · next hs =>
        split at h
        · obtain ⟨⟨value, semicolon, r⟩, hr, he⟩ := Option.map_eq_some_iff.1 h
          obtain ⟨rfl, rfl⟩ := by simpa using he
          simp [tokens, Initializer.tokens, ← bracketSuffix?_append hs,
            ← valueThenSemicolon?_append hr]
        · split at h
          · obtain ⟨rfl, rfl⟩ := by simpa using h
            simp [tokens, ← bracketSuffix?_append hs]
          · simp at h
      · simp at h
    · simp at h
  · simp at h

theorem call?_append {s rest : List Token} {x : Simple}
    (h : call? s = some (x, rest)) : x.tokens ++ rest = s := by
  unfold call? at h
  split at h
  · split at h
    · split at h
      · next hs =>
        split at h
        · obtain ⟨rfl, rfl⟩ := by simpa using h
          simp [tokens, ← arguments?_append hs]
        · simp at h
      · simp at h
    · simp at h
  · simp at h

theorem ret?_append {s rest : List Token} {x : Simple}
    (h : ret? s = some (x, rest)) : x.tokens ++ rest = s := by
  unfold ret? at h
  split at h
  · split at h
    · split at h
      · obtain ⟨rfl, rfl⟩ := by simpa using h
        rfl
      · obtain ⟨⟨value, semicolon, r⟩, hr, he⟩ := Option.map_eq_some_iff.1 h
        obtain ⟨rfl, rfl⟩ := by simpa using he
        simp [tokens, ← valueThenSemicolon?_append hr]
    · simp at h
  · simp at h

theorem assignment?_append {s rest : List Token} {x : Simple}
    (h : assignment? s = some (x, rest)) : x.tokens ++ rest = s := by
  unfold assignment? at h
  split at h
  · split at h
    · obtain ⟨⟨value, semicolon, r⟩, hr, he⟩ := Option.map_eq_some_iff.1 h
      obtain ⟨rfl, rfl⟩ := by simpa using he
      simp [tokens, ← valueThenSemicolon?_append hr]
    · simp at h
  · simp at h

/-- Reading a statement without a block splits the tokens ahead. -/
theorem read?_append {s rest : List Token} {x : Simple}
    (h : read? s = some (x, rest)) : x.tokens ++ rest = s := by
  simp only [read?, Option.orElse_eq_orElse, Option.orElse_eq_or, Option.or_eq_some_iff] at h
  rcases h with h | ⟨_, h | ⟨_, h | ⟨_, h⟩⟩⟩
  · exact declaration?_append h
  · exact call?_append h
  · exact ret?_append h
  · exact assignment?_append h

end Simple

namespace Header

/-- Takes a header of one kind: its keyword, a condition in parentheses, and an opening brace. -/
def read? (kind : HeaderKind) : List Token → Option (Header × List Token)
  | keyword :: opening :: s =>
    if keyword.isKeyword kind.keyword && opening.isPunct "(" then
      match parenExtent? 0 s with
      | some n =>
        match s.drop n with
        | closing :: brace :: rest =>
          if brace.isPunct "\x7b" then some (⟨keyword, opening, s.take n, closing, brace⟩, rest)
          else none
        | _ => none
      | none => none
    else none
  | _ => none

/-- Takes whichever header is ahead. -/
def readAny? (s : List Token) : Option (HeaderKind × Header × List Token) :=
  HeaderKind.all.findSome? fun kind => (read? kind s).map (kind, ·)

theorem read?_append {kind : HeaderKind} {s rest : List Token} {h : Header}
    (hr : read? kind s = some (h, rest)) : h.tokens ++ rest = s := by
  unfold read? at hr
  split at hr
  · next s =>
    split at hr
    · split at hr
      · next n _ =>
        split at hr
        · next hd =>
          split at hr
          · obtain ⟨rfl, rfl⟩ := by simpa using hr
            have split := List.take_append_drop n s
            rw [hd] at split
            simpa [tokens] using split
          · simp at hr
        · simp at hr
      · simp at hr
    · simp at hr
  · simp at hr

/-- Reading a header splits the tokens ahead. -/
theorem readAny?_append {kind : HeaderKind} {s rest : List Token} {h : Header}
    (hr : readAny? s = some (kind, h, rest)) : h.tokens ++ rest = s := by
  obtain ⟨k, _, hk⟩ := List.exists_of_findSome?_eq_some hr
  obtain ⟨p, hp, he⟩ := Option.map_eq_some_iff.1 hk
  obtain ⟨rfl, rfl⟩ := Prod.mk.inj he
  exact read?_append hp

end Header

end BraceLang
