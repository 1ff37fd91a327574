import BraceLang.Program.CodeReader
import BraceLang.Proofs.Reading.Parts

/-!
# `Proofs.Reading.Statement` — which rows of tokens are statements

A statement, a header and the start of an `else` are rows of tokens in which each token is in its
place. `Proper` says so for each of them without reading anything, and the readers of
`Program.StatementReader` take exactly the proper ones: what stands behind a statement never decides
whether it is one.

## Contents
- `Simple.Proper`, `Header.Proper` and `ElseHead.Proper`.
- `Simple.read?_eq_some_iff`, `Header.readAny?_eq_some_iff` and `ElseHead.read?_eq_some_iff`.
-/

namespace BraceLang

/-- Each token of the initializer is in its place. -/
structure Initializer.Proper (i : Initializer) : Prop where
  sign : i.sign.word = ⟨.operator, "="⟩
  value : IsExpression (words i.value)

/-- Each token of the statement is in its place. -/
def Simple.Proper : Simple → Prop
  | .declaration type name suffix initializer semicolon =>
    type.word.IsTypeName ∧ name.word.IsName ∧ IsSuffix (words suffix) ∧
      (∀ i ∈ initializer, i.Proper) ∧ semicolon.word = .mark ";"
  | .call name opening arguments closing semicolon =>
    name.word.IsName ∧ opening.word = .mark "(" ∧
      (arguments = [] ∨ IsArgumentList (words arguments)) ∧
      closing.word = .mark ")" ∧ semicolon.word = .mark ";"
  | .ret keyword value semicolon =>
    keyword.word = .reserved "return" ∧ (value = [] ∨ IsExpression (words value)) ∧
      semicolon.word = .mark ";"
  | .assignment target operator value semicolon =>
    target.word.IsName ∧ operator.word.IsAssignment ∧ IsExpression (words value) ∧
      semicolon.word = .mark ";"

/-- Each token of the header is in its place. -/
structure Header.Proper (kind : HeaderKind) (h : Header) : Prop where
  keyword : h.keyword.word = .reserved kind.keyword
  opening : h.opening.word = .mark "("
  condition : Balanced (words h.condition)
  closing : h.closing.word = .mark ")"
  brace : h.brace.word = .mark "\x7b"

/-- A header of the kind stands at the front. -/
def Header.Ahead (kind : HeaderKind) (s : List Token) : Prop :=
  ∃ h rest, Header.Proper kind h ∧ h.tokens ++ rest = s

/-- A statement without a block stands at the front. -/
def Simple.Ahead (s : List Token) : Prop := ∃ x rest, Simple.Proper x ∧ x.tokens ++ rest = s

/-- Each token of the start of an `else` is in its place, and if it has no brace, the header of an
    `if` is ahead. -/
structure ElseHead.Proper (e : ElseHead) (ahead : List Token) : Prop where
  keyword : e.keyword.word = .reserved "else"
  brace : ∀ b ∈ e.brace, b.word = .mark "\x7b"
  header : e.brace = none → Header.Ahead .conditional ahead

/-- The start of an `else` stands at the front. -/
def ElseHead.Ahead (s : List Token) : Prop :=
  ∃ (e : ElseHead) (rest : List Token), e.Proper rest ∧ e.tokens ++ rest = s

/-! ## Statements without a block -/

namespace Simple

variable {s rest : List Token} {t : Token} {x : Simple}

theorem proper_of_declaration? (h : declaration? s = some (x, rest)) : x.Proper := by
  unfold declaration? at h
  split at h
  · split at h
    · next htest =>
      rw [Bool.and_eq_true, Token.isTypeName_iff, Token.isName_iff] at htest
      obtain ⟨htype, hname⟩ := htest
      split at h
      · next hsuffix =>
        have hsuffix := isSuffix_of_bracketSuffix? hsuffix
        split at h
        · next hsign =>
          obtain ⟨⟨value, semicolon, r⟩, hvalue, he⟩ := Option.map_eq_some_iff.mp h
          obtain ⟨rfl, rfl⟩ := Prod.mk.inj he
          obtain ⟨hexpr, hsemi, -⟩ := valueThenSemicolon?_eq_some_iff.mp hvalue
          refine ⟨htype, hname, hsuffix, ?_, hsemi⟩
          intro i hi
          obtain rfl := Option.mem_some.mp hi
          exact ⟨Token.hasText_operator_iff.mp hsign, hexpr⟩
        · split at h
          · next hsemi =>
            obtain ⟨rfl, rfl⟩ := by simpa using h
            exact ⟨htype, hname, hsuffix, by simp, Token.isPunct_iff.mp hsemi⟩
          · exact absurd h (by simp)
      · exact absurd h (by simp)
    · exact absurd h (by simp)
  · exact absurd h (by simp)

theorem proper_of_call? (h : call? s = some (x, rest)) : x.Proper := by
  unfold call? at h
  split at h
  · split at h
    · next htest =>
      rw [Bool.and_eq_true, Token.isName_iff, Token.isPunct_iff] at htest
      split at h
      · next harguments =>
        obtain ⟨hlist, hclosing, -⟩ := arguments?_eq_some_iff.mp harguments
        split at h
        · next hsemi =>
          obtain ⟨rfl, rfl⟩ := by simpa using h
          exact ⟨htest.1, htest.2, hlist, hclosing, Token.isPunct_iff.mp hsemi⟩
        · exact absurd h (by simp)
      · exact absurd h (by simp)
    · exact absurd h (by simp)
  · exact absurd h (by simp)

theorem proper_of_ret? (h : ret? s = some (x, rest)) : x.Proper := by
  unfold ret? at h
  split at h
  · split at h
    · next hkeyword =>
      rw [Token.isKeyword_iff] at hkeyword
      split at h
      · next hsemi =>
        obtain ⟨rfl, rfl⟩ := by simpa using h
        exact ⟨hkeyword, Or.inl rfl, Token.isPunct_iff.mp hsemi⟩
      · obtain ⟨⟨value, semicolon, r⟩, hvalue, he⟩ := Option.map_eq_some_iff.mp h
        obtain ⟨rfl, rfl⟩ := Prod.mk.inj he
        obtain ⟨hexpr, hsemi, -⟩ := valueThenSemicolon?_eq_some_iff.mp hvalue
        exact ⟨hkeyword, Or.inr hexpr, hsemi⟩
    · exact absurd h (by simp)
  · exact absurd h (by simp)

theorem proper_of_assignment? (h : assignment? s = some (x, rest)) : x.Proper := by
  unfold assignment? at h
  split at h
  · split at h
    · next htest =>
      rw [Bool.and_assoc, Bool.and_eq_true, Token.isName_iff, Token.isAssignment_iff] at htest
      obtain ⟨⟨value, semicolon, r⟩, hvalue, he⟩ := Option.map_eq_some_iff.mp h
      obtain ⟨rfl, rfl⟩ := Prod.mk.inj he
      obtain ⟨hexpr, hsemi, -⟩ := valueThenSemicolon?_eq_some_iff.mp hvalue
      exact ⟨htest.1, htest.2, hexpr, hsemi⟩
    · exact absurd h (by simp)
  · exact absurd h (by simp)

theorem declaration?_eq_none (ht : ¬ t.word.IsTypeName) : declaration? (t :: s) = none := by
  rw [← Token.isTypeName_iff, Bool.not_eq_true] at ht
  cases s with
  | nil => rfl
  | cons name s => rw [declaration?, ht, Bool.false_and, if_neg Bool.false_ne_true]

theorem call?_eq_none {opening : Token} (h : t.word.IsName → opening.word ≠ .mark "(") :
    call? (t :: opening :: s) = none := by
  rw [call?, if_neg]
  rw [Bool.and_eq_true, Token.isName_iff, Token.isPunct_iff]
  rintro ⟨hname, hopening⟩
  exact h hname hopening

theorem ret?_eq_none (ht : t.word ≠ .reserved "return") : ret? (t :: s) = none := by
  cases s with
  | nil => rfl
  | cons u s => rw [ret?, if_neg (fun h => ht (Token.isKeyword_iff.mp h))]

theorem declaration?_append_of_proper {type name semicolon : Token} {suffix : List Token}
    {initializer : Option Initializer}
    (h : (declaration type name suffix initializer semicolon).Proper) :
    declaration? ((declaration type name suffix initializer semicolon).tokens ++ rest) =
      some (declaration type name suffix initializer semicolon, rest) := by
  obtain ⟨htype, hname, hsuffix, hinitializer, hsemi⟩ := h
  have htest : (type.isTypeName && name.kind == .identifier) = true := by
    rw [Bool.and_eq_true, Token.isTypeName_iff, Token.isName_iff]
    exact ⟨htype, hname⟩
  cases initializer with
  | none =>
    have hsign : ¬ semicolon.hasText .operator "=" = true := by
      rw [Token.hasText_operator_iff, hsemi]
      decide
    simp only [tokens, Option.map_none, Option.getD_none, List.nil_append, List.cons_append,
      List.append_assoc]
    rw [declaration?, if_pos htest, bracketSuffix?_append_cons hsuffix (by rw [hsemi]; decide)]
    dsimp only
    rw [if_neg hsign, if_pos (Token.isPunct_iff.mpr hsemi)]
  | some i =>
    obtain ⟨hsign, hvalue⟩ := hinitializer i rfl
    simp only [tokens, Option.map_some, Option.getD_some, Initializer.tokens, List.nil_append,
      List.cons_append, List.append_assoc]
    rw [declaration?, if_pos htest, bracketSuffix?_append_cons hsuffix (by rw [hsign]; decide)]
    dsimp only
    rw [if_pos (Token.hasText_operator_iff.mpr hsign),
      valueThenSemicolon?_eq_some_iff.mpr ⟨hvalue, hsemi, rfl⟩, Option.map_some]

theorem call?_append_of_proper {name opening closing semicolon : Token} {arguments : List Token}
    (h : (call name opening arguments closing semicolon).Proper) :
    call? ((call name opening arguments closing semicolon).tokens ++ rest) =
      some (call name opening arguments closing semicolon, rest) := by
  obtain ⟨hname, hopening, harguments, hclosing, hsemi⟩ := h
  simp only [tokens, List.nil_append, List.cons_append, List.append_assoc]
  rw [call?, if_pos, arguments?_eq_some_iff.mpr ⟨harguments, hclosing, rfl⟩]
  · exact if_pos (Token.isPunct_iff.mpr hsemi)
  · rw [Bool.and_eq_true, Token.isName_iff, Token.isPunct_iff]
    exact ⟨hname, hopening⟩

theorem ret?_append_of_proper {keyword semicolon : Token} {value : List Token}
    (h : (ret keyword value semicolon).Proper) :
    ret? ((ret keyword value semicolon).tokens ++ rest) =
      some (ret keyword value semicolon, rest) := by
  obtain ⟨hkeyword, hvalue, hsemi⟩ := h
  have hkeyword := Token.isKeyword_iff.mpr hkeyword
  simp only [tokens, List.nil_append, List.cons_append, List.append_assoc]
  rcases hvalue with rfl | hexpr
  · rw [List.nil_append, ret?, if_pos hkeyword, if_pos (Token.isPunct_iff.mpr hsemi)]
  · have hread : valueThenSemicolon? (value ++ semicolon :: rest) =
        some (value, semicolon, rest) := valueThenSemicolon?_eq_some_iff.mpr ⟨hexpr, hsemi, rfl⟩
    obtain ⟨hne, -, hundivided⟩ := isExpression_iff.mp hexpr
    cases value with
    | nil => exact absurd rfl hne
    | cons v vs =>
      -- The first token of an expression is no semicolon.
      have hv : ¬ v.isPunct ";" = true := by
        intro hv
        have := hundivided [] v.word (words vs) rfl (Or.inl (Token.isPunct_iff.mp hv))
        exact absurd this (by decide)
      rw [List.cons_append] at hread ⊢
      rw [ret?, if_pos hkeyword, if_neg hv, hread, Option.map_some]

theorem assignment?_append_of_proper {target operator semicolon : Token} {value : List Token}
    (h : (assignment target operator value semicolon).Proper) :
    assignment? ((assignment target operator value semicolon).tokens ++ rest) =
      some (assignment target operator value semicolon, rest) := by
  obtain ⟨htarget, hoperator, hexpr, hsemi⟩ := h
  simp only [tokens, List.nil_append, List.cons_append, List.append_assoc]
  rw [assignment?, if_pos, valueThenSemicolon?_eq_some_iff.mpr ⟨hexpr, hsemi, rfl⟩,
    Option.map_some]
  rw [Bool.and_assoc, Bool.and_eq_true, Token.isName_iff, Token.isAssignment_iff]
  exact ⟨htarget, hoperator⟩

theorem proper_of_read? (h : read? s = some (x, rest)) : x.Proper := by
  simp only [read?, Option.orElse_eq_orElse, Option.orElse_eq_or, Option.or_eq_some_iff] at h
  rcases h with h | ⟨-, h | ⟨-, h | ⟨-, h⟩⟩⟩
  · exact proper_of_declaration? h
  · exact proper_of_call? h
  · exact proper_of_ret? h
  · exact proper_of_assignment? h

/-- A `return` is no call, whatever stands behind it. -/
theorem call?_ret {keyword semicolon : Token} {value : List Token}
    (hkeyword : keyword.word = .reserved "return") :
    call? ((ret keyword value semicolon).tokens ++ rest) = none := by
  have hname : ¬ keyword.word.IsName := by
    rw [hkeyword]
    exact Word.not_isName_reserved _
  obtain ⟨next, more, hmore⟩ : ∃ next more, value ++ [semicolon] ++ rest = next :: more := by
    cases value with
    | nil => exact ⟨semicolon, rest, rfl⟩
    | cons v vs => exact ⟨v, _, rfl⟩
  rw [tokens, List.cons_append, hmore]
  exact call?_eq_none fun h => absurd h hname

/-- A proper statement is read, whatever stands behind it. -/
theorem read?_append_of_proper (hx : x.Proper) : read? (x.tokens ++ rest) = some (x, rest) := by
  rw [read?]
  -- The forms before the proper one fail at one of the first two tokens.
  cases x with
  | declaration type name suffix initializer semicolon =>
    rw [declaration?_append_of_proper hx]
    rfl
  | call name opening arguments closing semicolon =>
    have hname : ¬ name.word.IsTypeName := by
      rintro ⟨hkind, -⟩
      exact absurd (hkind.symm.trans hx.1) (by decide)
    rw [call?_append_of_proper hx, tokens, List.cons_append, declaration?_eq_none hname]
    rfl
  | ret keyword value semicolon =>
    have hkeyword : ¬ keyword.word.IsTypeName := by
      rw [hx.1]
      rintro ⟨-, htype⟩
      exact absurd htype (by decide)
    rw [ret?_append_of_proper hx, call?_ret hx.1, tokens, List.cons_append,
      declaration?_eq_none hkeyword]
    rfl
  | assignment target operator value semicolon =>
    have htarget : ¬ target.word.IsTypeName := by
      rintro ⟨hkind, -⟩
      exact absurd (hkind.symm.trans hx.1) (by decide)
    have hkeyword : target.word ≠ .reserved "return" := by
      intro h
      have hkind : target.word.kind = .identifier := hx.1
      rw [h] at hkind
      exact absurd hkind (by decide)
    have hoperator : operator.word ≠ .mark "(" := by
      intro h
      have hkind := hx.2.1.1
      rw [h] at hkind
      exact absurd hkind (by decide)
    rw [assignment?_append_of_proper hx, tokens, List.cons_append, List.cons_append,
      declaration?_eq_none htarget, call?_eq_none fun _ => hoperator, ret?_eq_none hkeyword]
    rfl

/-- **A statement without a block is read if and only if a proper one stands ahead.** -/
theorem read?_eq_some_iff : read? s = some (x, rest) ↔ x.Proper ∧ x.tokens ++ rest = s := by
  constructor
  · intro h
    exact ⟨proper_of_read? h, read?_append h⟩
  · rintro ⟨hx, rfl⟩
    exact read?_append_of_proper hx

/-- No statement without a block is read if and only if none stands ahead. -/
theorem read?_eq_none_iff : read? s = none ↔ ¬ Ahead s := by
  rw [Option.eq_none_iff_forall_not_mem]
  constructor
  · rintro h ⟨x, rest, hx⟩
    exact h (x, rest) (read?_eq_some_iff.mpr hx)
  · rintro h ⟨x, rest⟩ hread
    exact h ⟨x, rest, read?_eq_some_iff.mp hread⟩

/-- A statement without a block begins with the name of a type, a name or `return`. -/
theorem Proper.first (h : x.Proper) :
    x.first.word.IsTypeName ∨ x.first.word.IsName ∨ x.first.word = .reserved "return" := by
  cases x with
  | declaration => exact Or.inl h.1
  | call => exact Or.inr (Or.inl h.1)
  | ret => exact Or.inr (Or.inr h.1)
  | assignment => exact Or.inr (Or.inl h.1)

end Simple

/-! ## Headers -/

namespace HeaderKind

/-- The keywords of headers differ. -/
theorem keyword_injective {kind other : HeaderKind} (h : kind.keyword = other.keyword) :
    kind = other := by
  rcases kind with _ | ⟨_ | _⟩ <;> rcases other with _ | ⟨_ | _⟩ <;>
    first | rfl | exact absurd h (by decide)

theorem mem_all (kind : HeaderKind) : kind ∈ all := by
  rcases kind with _ | ⟨_ | _⟩ <;> decide

/-- The keyword of a header names no type. -/
theorem not_isTypeName (kind : HeaderKind) : ¬ (Word.reserved kind.keyword).IsTypeName := by
  rintro ⟨-, h⟩
  rcases kind with _ | ⟨_ | _⟩ <;> exact absurd h (by decide)

end HeaderKind

namespace Header

variable {s rest : List Token} {kind : HeaderKind} {h : Header}

theorem proper_of_read? (hr : read? kind s = some (h, rest)) : h.Proper kind := by
  unfold read? at hr
  split at hr
  · split at hr
    · next htest =>
      rw [Bool.and_eq_true, Token.isKeyword_iff, Token.isPunct_iff] at htest
      split at hr
      · next n hextent =>
        split at hr
        · next hdrop =>
          split at hr
          · next hbrace =>
            obtain ⟨rfl, rfl⟩ := by simpa using hr
            obtain ⟨closing, hat, hclosing⟩ := parenExtent?_spec hextent
            rw [← List.head?_drop, hdrop, List.head?_cons] at hat
            obtain rfl := Option.some.inj hat
            exact ⟨htest.1, htest.2, balanced_iff_closes.mpr (closes_of_parenExtent? hextent),
              Token.isPunct_iff.mp hclosing, Token.isPunct_iff.mp hbrace⟩
          · exact absurd hr (by simp)
        · exact absurd hr (by simp)
      · exact absurd hr (by simp)
    · exact absurd hr (by simp)
  · exact absurd hr (by simp)

/-- A proper header is read, whatever stands behind it. -/
theorem read?_append_of_proper (hh : h.Proper kind) :
    read? kind (h.tokens ++ rest) = some (h, rest) := by
  have htest : (h.keyword.isKeyword kind.keyword && h.opening.isPunct "(") = true := by
    rw [Bool.and_eq_true, Token.isKeyword_iff, Token.isPunct_iff]
    exact ⟨hh.keyword, hh.opening⟩
  simp only [tokens, List.cons_append, List.append_assoc, List.nil_append]
  rw [read?, if_pos htest, parenExtent?_append (balanced_iff_closes.mp hh.condition)
    (Token.isPunct_iff.mpr hh.closing)]
  dsimp only
  rw [List.drop_left, List.take_left]
  exact if_pos (Token.isPunct_iff.mpr hh.brace)

/-- A header of a kind is read if and only if a proper one stands ahead. -/
theorem read?_eq_some_iff :
    read? kind s = some (h, rest) ↔ h.Proper kind ∧ h.tokens ++ rest = s := by
  constructor
  · intro hr
    exact ⟨proper_of_read? hr, read?_append hr⟩
  · rintro ⟨hh, rfl⟩
    exact read?_append_of_proper hh

/-- **A header is read if and only if a proper one stands ahead.** -/
theorem readAny?_eq_some_iff :
    readAny? s = some (kind, h, rest) ↔ h.Proper kind ∧ h.tokens ++ rest = s := by
  constructor
  · intro hr
    obtain ⟨k, -, hk⟩ := List.exists_of_findSome?_eq_some hr
    obtain ⟨p, hp, he⟩ := Option.map_eq_some_iff.mp hk
    obtain ⟨rfl, rfl⟩ := Prod.mk.inj he
    exact read?_eq_some_iff.mp hp
  · intro hp
    -- Some reader takes a header here, namely the one for the kind.
    have hsome : (readAny? s).isSome = true := by
      rw [readAny?, List.findSome?_isSome_iff]
      exact ⟨kind, kind.mem_all, by rw [read?_eq_some_iff.mpr hp]; rfl⟩
    obtain ⟨⟨k, g, r⟩, hread⟩ := Option.isSome_iff_exists.mp hsome
    obtain ⟨k', -, hk⟩ := List.exists_of_findSome?_eq_some hread
    obtain ⟨p, hg, he⟩ := Option.map_eq_some_iff.mp hk
    obtain ⟨rfl, rfl⟩ := Prod.mk.inj he
    -- The reader that took something is the one for the kind, since the keywords differ.
    have hkind : k' = kind := by
      obtain ⟨hproper, hs⟩ := read?_eq_some_iff.mp hg
      have hfirst : g.keyword = h.keyword :=
        (List.cons.inj (hs.trans hp.2.symm)).1
      have hword := hproper.keyword.symm.trans (hfirst ▸ hp.1.keyword)
      exact HeaderKind.keyword_injective (congrArg Word.text hword)
    subst hkind
    have hsame := hg.symm.trans (read?_eq_some_iff.mpr hp)
    rw [hread, Option.some.inj hsame]

/-- No header is read if and only if none stands ahead. -/
theorem readAny?_eq_none_iff : readAny? s = none ↔ ∀ kind, ¬ Ahead kind s := by
  rw [Option.eq_none_iff_forall_not_mem]
  constructor
  · rintro h kind ⟨g, rest, hg⟩
    exact h (kind, g, rest) (readAny?_eq_some_iff.mpr hg)
  · rintro h ⟨kind, g, rest⟩ hread
    exact h kind ⟨g, rest, readAny?_eq_some_iff.mp hread⟩

/-- Where a header stands, no statement without a block does. -/
theorem Ahead.not_simple (hs : Ahead kind s) : ¬ Simple.Ahead s := by
  obtain ⟨h, rest, hproper, rfl⟩ := hs
  rintro ⟨x, more, hx, htokens⟩
  have hfirst : x.first = h.keyword := by
    have hhead := congrArg List.head? htokens
    rw [List.head?_append, x.head?_tokens] at hhead
    exact Option.some.inj hhead
  rcases hx.first with htype | hname | hreturn
  · rw [hfirst, hproper.keyword] at htype
    exact kind.not_isTypeName htype
  · rw [hfirst, hproper.keyword] at hname
    exact Word.not_isName_reserved _ hname
  · rw [hfirst, hproper.keyword] at hreturn
    have htext := congrArg Word.text hreturn
    rcases kind with _ | ⟨_ | _⟩ <;> exact absurd htext (by decide)

end Header

/-! ## The start of an `else` -/

namespace ElseHead

variable {s rest : List Token} {keyword brace : Token} {e : ElseHead}

theorem Proper.ofBrace (hkeyword : keyword.word = .reserved "else")
    (hbrace : brace.word = .mark "\x7b") : Proper ⟨keyword, some brace⟩ s := by
  refine ⟨hkeyword, fun b hb => ?_, fun hnone => absurd hnone (Option.some_ne_none brace)⟩
  rw [← Option.mem_some.mp hb]
  exact hbrace

theorem Proper.ofHeader (hkeyword : keyword.word = .reserved "else")
    (hahead : Header.Ahead .conditional s) : Proper ⟨keyword, none⟩ s :=
  ⟨hkeyword, fun b hb => absurd hb (Option.not_mem_none b), fun _ => hahead⟩

theorem proper_of_read? (hr : read? s = some (e, rest)) : e.Proper rest := by
  unfold read? at hr
  split at hr
  · split at hr
    · next hkeyword =>
      rw [Token.isKeyword_iff] at hkeyword
      split at hr
      · next hbrace =>
        obtain ⟨rfl, rfl⟩ := by simpa using hr
        exact .ofBrace hkeyword (Token.isPunct_iff.mp hbrace)
      · split at hr
        · next hheader =>
          obtain ⟨rfl, rfl⟩ := by simpa using hr
          obtain ⟨⟨h, r⟩, hread⟩ := Option.isSome_iff_exists.mp hheader
          exact .ofHeader hkeyword ⟨h, r, Header.read?_eq_some_iff.mp hread⟩
        · exact absurd hr (by simp)
    · exact absurd hr (by simp)
  · exact absurd hr (by simp)

/-- A proper start of an `else` is read, either with its brace or before the header of an `if`. -/
theorem read?_append_of_proper (he : e.Proper rest) : read? (e.tokens ++ rest) = some (e, rest) := by
  obtain ⟨hkeyword, hbrace, hheader⟩ := he
  obtain ⟨keyword, brace⟩ := e
  rw [← Token.isKeyword_iff] at hkeyword
  cases brace with
  | some b =>
    rw [tokens, Option.toList_some, List.cons_append, List.singleton_append, read?,
      if_pos hkeyword, if_pos (Token.isPunct_iff.mpr (hbrace b rfl))]
  | none =>
    obtain ⟨h, r, hproper, rfl⟩ := hheader rfl
    have hread : (Header.read? .conditional (h.tokens ++ r)).isSome = true := by
      rw [Header.read?_append_of_proper hproper]
      rfl
    have hfirst : ¬ h.keyword.isPunct "\x7b" = true := by
      rw [Token.isPunct_iff, hproper.keyword]
      decide
    rw [tokens, Option.toList_none, List.cons_append, List.nil_append]
    rw [Header.tokens, List.cons_append] at hread ⊢
    rw [read?, if_pos hkeyword, if_neg hfirst, if_pos hread]

/-- **The start of an `else` is read if and only if a proper one stands ahead.** -/
theorem read?_eq_some_iff : read? s = some (e, rest) ↔ e.Proper rest ∧ e.tokens ++ rest = s := by
  constructor
  · intro hr
    exact ⟨proper_of_read? hr, read?_append hr⟩
  · rintro ⟨he, rfl⟩
    exact read?_append_of_proper he

/-- No start of an `else` is read if and only if none stands ahead. -/
theorem read?_eq_none_iff : read? s = none ↔ ¬ Ahead s := by
  rw [Option.eq_none_iff_forall_not_mem]
  constructor
  · rintro h ⟨e, rest, he⟩
    exact h (e, rest) (read?_eq_some_iff.mpr he)
  · rintro h ⟨e, rest⟩ hread
    exact h ⟨e, rest, read?_eq_some_iff.mp hread⟩

end ElseHead

end BraceLang
