import BraceLang.Program.StatementReader
import BraceLang.Proofs.Token.Balance

/-!
# `Proofs.Reading.Parts` — the parts that statements share

Statements are made of words that pass a test and of rows of words that are read as a whole: a value
with its semicolon, the brackets of an array, the arguments of a call. Which words and which rows
these are is said here without reading anything, and the readers of the parts take exactly them.

## Contents
- `Word.IsTypeName`, `IsName`, `IsAssignment` and `IsArgument`, with the tests for tokens.
- `IsSuffix` and `IsArgumentList`, rows of words inside of statements.
- `valueThenSemicolon?_eq_some_iff`, `argumentList?_eq_some_iff` and others, for the readers.
-/

namespace BraceLang

namespace Word

/-- The reserved word `text`. -/
def reserved (text : String) : Word := ⟨.keyword, text⟩

/-- Whether the word is a keyword that names a type. -/
def IsTypeName (w : Word) : Prop := w.kind = .keyword ∧ Keyword.isTypeName w.text = true

/-- Whether the word is a name. -/
def IsName (w : Word) : Prop := w.kind = .identifier

theorem not_isName_reserved (text : String) : ¬ (reserved text).IsName := by
  intro h
  exact absurd (show Token.Kind.keyword = .identifier from h) (by decide)

/-- A reserved word is no punctuation. -/
theorem reserved_ne_mark (word text : String) : reserved word ≠ mark text := by
  intro h
  exact absurd (show Token.Kind.keyword = .punctuation from congrArg Word.kind h) (by decide)

/-- Whether the word assigns. -/
def IsAssignment (w : Word) : Prop := w.kind = .operator ∧ w.text ∈ assignmentOperators

/-- Whether the word may stand as an argument of a call. -/
def IsArgument (w : Word) : Prop := w.kind.isArgument = true

end Word

/-- What may follow the name of a declared variable: nothing, or the brackets of an array. -/
def IsSuffix (run : List Word) : Prop :=
  run = [] ∨ ∃ inner, run = .mark "[" :: (inner ++ [.mark "]"]) ∧ ∀ w ∈ inner, w.kind ≠ .punctuation

/-- One or more arguments with commas between them. -/
inductive IsArgumentList : List Word → Prop
  | single {a : Word} (ha : a.IsArgument) : IsArgumentList [a]
  | more {a : Word} {run : List Word} (ha : a.IsArgument) (hrun : IsArgumentList run) :
    IsArgumentList (a :: .mark "," :: run)

/-! ## The tests for tokens -/

section Tests

variable {t : Token} {text : String}

theorem Token.isKeyword_iff : t.isKeyword text = true ↔ t.word = .reserved text := by
  simp [isKeyword, hasText, word, Word.reserved]

theorem Token.hasText_operator_iff :
    t.hasText .operator text = true ↔ t.word = ⟨.operator, text⟩ := by
  simp [hasText, word]

theorem Token.isTypeName_iff : t.isTypeName = true ↔ t.word.IsTypeName := by
  simp [isTypeName, word, Word.IsTypeName]

theorem Token.isName_iff : (t.kind == .identifier) = true ↔ t.word.IsName := by
  simp [word, Word.IsName]

theorem Token.isArgument_iff : t.isArgument = true ↔ t.word.IsArgument := Iff.rfl

theorem Token.isAssignment_iff :
    (t.kind == .operator && assignmentOperators.contains t.text) = true ↔
      t.word.IsAssignment := by
  simp [word, Word.IsAssignment]

end Tests

/-! ## The parts that statements share -/

section Parts

variable {s value taken suffix arguments rest : List Token} {semicolon closing : Token}

/-- A value is read if and only if an expression stands ahead with a semicolon behind it. -/
theorem valueThenSemicolon?_eq_some_iff :
    valueThenSemicolon? s = some (value, semicolon, rest) ↔
      IsExpression (words value) ∧ semicolon.word = .mark ";" ∧ value ++ semicolon :: rest = s := by
  constructor
  · intro h
    have happend := valueThenSemicolon?_append h
    unfold valueThenSemicolon? at h
    split at h
    · next v vs t r hv hr =>
      split at h
      · next hsemi =>
        obtain ⟨rfl, rfl, rfl⟩ := by simpa using h
        have hat : s[expressionExtent 0 s]? = some t := by
          rw [← List.head?_drop, hr, List.head?_cons]
        obtain ⟨hclosed, hundivided⟩ := closes_of_expressionExtent hat hsemi
        rw [hv] at hclosed hundivided
        exact ⟨isExpression_iff.mpr ⟨List.cons_ne_nil _ _, hclosed, hundivided⟩,
          Token.isPunct_iff.mp hsemi, happend⟩
      · exact absurd h (by simp)
    · exact absurd h (by simp)
  · rintro ⟨hvalue, hsemi, rfl⟩
    obtain ⟨hne, hclosed, hundivided⟩ := isExpression_iff.mp hvalue
    rw [← Token.isPunct_iff] at hsemi
    have hextent : expressionExtent 0 (value ++ semicolon :: rest) = value.length :=
      expressionExtent_append hclosed hundivided hsemi
    cases value with
    | nil => exact absurd rfl hne
    | cons v vs =>
      rw [valueThenSemicolon?, hextent, List.take_left, List.drop_left]
      exact if_pos hsemi

/-- What is read up to a bracket has no other punctuation in it. -/
theorem exists_inner_of_upToBracket? (h : upToBracket? s = some (taken, rest)) :
    ∃ inner close, taken = inner ++ [close] ∧ (∀ t ∈ inner, t.kind ≠ .punctuation) ∧
      close.word = .mark "]" := by
  fun_induction upToBracket? s generalizing taken with
  | case1 => exact absurd h (by simp)
  | case2 t s hclose =>
    obtain ⟨rfl, rfl⟩ := by simpa using h
    exact ⟨[], t, rfl, by simp, Token.isPunct_iff.mp hclose⟩
  | case3 => exact absurd h (by simp)
  | case4 t s _ hpunct ih =>
    obtain ⟨⟨more, r⟩, hmore, he⟩ := Option.map_eq_some_iff.mp h
    obtain ⟨rfl, rfl⟩ := Prod.mk.inj he
    obtain ⟨inner, close, rfl, hinner, hword⟩ := ih hmore
    refine ⟨t :: inner, close, rfl, ?_, hword⟩
    intro a ha
    rcases List.mem_cons.mp ha with rfl | hmem
    · simpa using hpunct
    · exact hinner a hmem

/-- Tokens without punctuation are read up to a bracket behind them. -/
theorem upToBracket?_append_cons {inner : List Token} {close : Token}
    (hinner : ∀ t ∈ inner, t.kind ≠ .punctuation) (hclose : close.word = .mark "]") :
    upToBracket? (inner ++ close :: rest) = some (inner ++ [close], rest) := by
  induction inner with
  | nil => exact if_pos (Token.isPunct_iff.mpr hclose)
  | cons t inner ih =>
    have hkind : t.kind ≠ .punctuation := hinner t List.mem_cons_self
    have hnot : ¬ t.isPunct "]" = true := by
      rw [Token.isPunct_iff]
      intro hword
      exact hkind (congrArg Word.kind hword)
    have hrest := ih fun a ha => hinner a (List.mem_cons_of_mem t ha)
    rw [List.cons_append, upToBracket?, if_neg hnot, if_neg (by simpa using hkind), hrest,
      Option.map_some]
    rfl

/-- What is read behind the name of a variable is empty or the brackets of an array. -/
theorem isSuffix_of_bracketSuffix? (h : bracketSuffix? s = some (suffix, rest)) :
    IsSuffix (words suffix) := by
  unfold bracketSuffix? at h
  split at h
  · obtain ⟨rfl, rfl⟩ := by simpa using h
    exact Or.inl rfl
  · split at h
    · next t s hopen =>
      obtain ⟨⟨more, r⟩, hmore, he⟩ := Option.map_eq_some_iff.mp h
      obtain ⟨rfl, rfl⟩ := Prod.mk.inj he
      obtain ⟨inner, close, rfl, hinner, hword⟩ := exists_inner_of_upToBracket? hmore
      refine Or.inr ⟨words inner, ?_, ?_⟩
      · simp only [words, List.map_cons, List.map_append, List.map_nil, hword,
          Token.isPunct_iff.mp hopen]
      · intro w hw
        obtain ⟨t, ht, rfl⟩ := List.mem_map.mp hw
        exact hinner t ht
    · obtain ⟨rfl, rfl⟩ := by simpa using h
      exact Or.inl rfl

/-- What may follow the name of a variable is read up to a token that opens no bracket. -/
theorem bracketSuffix?_append_cons {t : Token} (h : IsSuffix (words suffix))
    (ht : t.word ≠ .mark "[") : bracketSuffix? (suffix ++ t :: rest) = some (suffix, t :: rest) := by
  rcases h with hnil | ⟨inner, hrun, hinner⟩
  · obtain rfl := List.map_eq_nil_iff.mp hnil
    exact if_neg (Token.not_isPunct_iff.mpr ht)
  · obtain ⟨o, suffix, rfl, ho, hsuffix⟩ := List.map_eq_cons_iff.mp hrun
    obtain ⟨inside, last, rfl, hinside, hlast⟩ := List.map_eq_append_iff.mp hsuffix
    obtain ⟨close, rfl, hclose⟩ := List.map_eq_singleton_iff.mp hlast
    have hkinds : ∀ a ∈ inside, a.kind ≠ .punctuation := by
      intro a ha
      exact hinner a.word (hinside ▸ List.mem_map_of_mem ha)
    rw [List.cons_append, bracketSuffix?, if_pos (Token.isPunct_iff.mpr ho), List.append_assoc,
      List.singleton_append, upToBracket?_append_cons hkinds hclose, Option.map_some]

/-- What is read as arguments is a list of arguments, up to a parenthesis. -/
theorem isArgumentList_of_argumentList? (h : argumentList? s = some (arguments, closing, rest)) :
    IsArgumentList (words arguments) ∧ closing.word = .mark ")" := by
  fun_induction argumentList? s generalizing arguments with
  | case1 a t s ha hcomma ih =>
    obtain ⟨⟨more, c, r⟩, hmore, he⟩ := Option.map_eq_some_iff.mp h
    obtain ⟨rfl, rfl, rfl⟩ := by simpa using he
    obtain ⟨hlist, hclosing⟩ := ih hmore
    rw [words, List.map_cons, List.map_cons, Token.isPunct_iff.mp hcomma]
    exact ⟨.more (Token.isArgument_iff.mp ha) hlist, hclosing⟩
  | case2 a t s ha hcomma hclose =>
    obtain ⟨rfl, rfl, rfl⟩ := by simpa using h
    exact ⟨.single (Token.isArgument_iff.mp ha), Token.isPunct_iff.mp hclose⟩
  | case3 | case4 | case5 => exact absurd h (by simp)

/-- A list of arguments is read up to a parenthesis behind it. -/
theorem argumentList?_append_cons (harguments : IsArgumentList (words arguments))
    (hclosing : closing.isPunct ")" = true) :
    argumentList? (arguments ++ closing :: rest) = some (arguments, closing, rest) := by
  generalize hrun : words arguments = run at harguments
  induction harguments generalizing arguments with
  | single ha =>
    obtain ⟨a, rfl, rfl⟩ := List.map_eq_singleton_iff.mp hrun
    rw [List.singleton_append, argumentList?, if_pos (Token.isArgument_iff.mpr ha),
      if_neg (Token.not_isPunct hclosing (by decide)), if_pos hclosing]
  | more ha _ ih =>
    obtain ⟨a, tail, rfl, rfl, htail⟩ := List.map_eq_cons_iff.mp hrun
    obtain ⟨comma, more, rfl, hcomma, hmore⟩ := List.map_eq_cons_iff.mp htail
    rw [List.cons_append, List.cons_append, argumentList?,
      if_pos (Token.isArgument_iff.mpr ha), if_pos (Token.isPunct_iff.mpr hcomma), ih hmore,
      Option.map_some]

/-- Arguments are read if and only if they stand ahead with a parenthesis behind them. -/
theorem argumentList?_eq_some_iff :
    argumentList? s = some (arguments, closing, rest) ↔
      IsArgumentList (words arguments) ∧ closing.word = .mark ")" ∧
        arguments ++ closing :: rest = s := by
  constructor
  · intro h
    obtain ⟨hlist, hclosing⟩ := isArgumentList_of_argumentList? h
    exact ⟨hlist, hclosing, argumentList?_append h⟩
  · rintro ⟨hlist, hclosing, rfl⟩
    exact argumentList?_append_cons hlist (Token.isPunct_iff.mpr hclosing)

/-- A list of arguments begins with one. -/
theorem exists_first_of_isArgumentList (h : IsArgumentList (words arguments)) :
    ∃ a more, arguments = a :: more ∧ a.word.IsArgument := by
  generalize hrun : words arguments = run at h
  cases h with
  | single ha | more ha _ =>
    obtain ⟨a, more, rfl, rfl, -⟩ := List.map_eq_cons_iff.mp hrun
    exact ⟨a, more, rfl, ha⟩

/-- The arguments of a call are read if and only if they stand ahead, or nothing does, with a
    parenthesis behind them. -/
theorem arguments?_eq_some_iff :
    arguments? s = some (arguments, closing, rest) ↔
      (arguments = [] ∨ IsArgumentList (words arguments)) ∧ closing.word = .mark ")" ∧
        arguments ++ closing :: rest = s := by
  cases s with
  | nil => simp [arguments?]
  | cons t s =>
    rw [arguments?]
    by_cases hclose : t.isPunct ")" = true
    · rw [if_pos hclose]
      constructor
      · intro h
        obtain ⟨rfl, rfl, rfl⟩ := by simpa using h
        exact ⟨Or.inl rfl, Token.isPunct_iff.mp hclose, rfl⟩
      · rintro ⟨rfl | harguments, -, hs⟩
        · obtain ⟨rfl, rfl⟩ := by simpa using hs
          rfl
        · -- An argument is no parenthesis.
          obtain ⟨a, more, rfl, ha⟩ := exists_first_of_isArgumentList harguments
          obtain ⟨rfl, -⟩ := by simpa using hs
          rw [Word.IsArgument, Token.isPunct_iff.mp hclose] at ha
          exact absurd ha (by decide)
    · rw [if_neg hclose, argumentList?_eq_some_iff]
      constructor
      · rintro ⟨harguments, h⟩
        exact ⟨Or.inr harguments, h⟩
      · rintro ⟨rfl | harguments, hword, hs⟩
        · obtain ⟨rfl, -⟩ := by simpa using hs
          exact absurd (Token.isPunct_iff.mpr hword) hclose
        · exact ⟨harguments, hword, hs⟩

end Parts

end BraceLang
