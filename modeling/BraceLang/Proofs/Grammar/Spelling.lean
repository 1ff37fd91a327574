import BraceLang.Proofs.Grammar.Syntax
import BraceLang.Proofs.Reading.Statement

/-!
# `Proofs.Grammar.Spelling` — tokens that spell a statement

A part of a program says which words it is written with, but not where they stand. Tokens with these
words are that part as it is read: they are a proper statement or a proper header, and its tree is
the tree of the part up to places.

## Contents
- `bare_expressionOutline`, `exists_initializer` and `isSuffix_of_words`, for the parts of
  statements.
- `Statement.WrittenAs` and `Statement.exists_writtenAs`, by the form of the statement.
- `Condition.exists_header`.
-/

namespace BraceLang

open Outline

namespace Grammar

variable {run suffix ts : List Token} {t : Token}

/-! ## Words -/

theorem TypeName.isTypeName_of_word {type : TypeName} (h : t.word = type.word) :
    t.word.IsTypeName := by
  rw [h]
  exact ⟨rfl, type.isTypeName⟩

theorem Name.isName_of_word {name : Name} (h : t.word = name.word) : t.word.IsName := by
  rw [h]
  rfl

theorem Operator.isAssignment_of_word {o : Operator} (h : t.word = o.word) :
    t.word.IsAssignment := by
  rw [h]
  exact ⟨rfl, o.mem⟩

/-! ## Values -/

theorem Expression.isExpression_of_words {e : Expression} (h : words run = e.run) :
    IsExpression (words run) := by
  rw [h]
  exact e.isExpression

/-- The tree of an expression is one node with the words of the run below it. -/
theorem bare_expressionOutline {e : Expression} (h : words run = e.run) :
    bare (expression run) = expressionOutline (some e) := by
  rw [expressionOutline, ← h]
  cases run with
  | nil => exact absurd rfl (Expression.isExpression_of_words h).ne_nil
  | cons t run =>
    rw [expression, Forest.single, bare_node, bare_leaves]
    rfl

/-- Tokens that spell a value that may be missing. -/
theorem value_of_words {value : Option Expression}
    (h : words run = (value.map Expression.run).getD []) :
    (run = [] ∨ IsExpression (words run)) ∧ bare (expression run) = expressionOutline value := by
  cases value with
  | none =>
    obtain rfl := List.map_eq_nil_iff.mp h
    exact ⟨Or.inl rfl, rfl⟩
  | some e => exact ⟨Or.inr (Expression.isExpression_of_words h), bare_expressionOutline h⟩

/-- Tokens that spell an initializer that may be missing. -/
theorem exists_initializer {value : Option Expression}
    (h : words run = (value.map fun e => ⟨.operator, "="⟩ :: e.run).getD []) :
    ∃ i : Option Initializer, (∀ j ∈ i, j.Proper) ∧ (i.map Initializer.tokens).getD [] = run ∧
      bare (expression ((i.map Initializer.value).getD [])) = expressionOutline value := by
  cases value with
  | none =>
    obtain rfl := List.map_eq_nil_iff.mp h
    exact ⟨none, by simp, rfl, rfl⟩
  | some e =>
    obtain ⟨sign, run, rfl, hsign, hrun⟩ := List.map_eq_cons_iff.mp h
    refine ⟨some ⟨sign, run⟩, ?_, rfl, bare_expressionOutline hrun⟩
    intro j hj
    obtain rfl := Option.mem_some.mp hj
    exact ⟨hsign, Expression.isExpression_of_words hrun⟩

/-! ## Declared types -/

theorem isSuffix_of_words {brackets : Option Brackets}
    (h : words suffix = (brackets.map Brackets.spell).getD []) : IsSuffix (words suffix) := by
  rw [h]
  cases brackets with
  | none => exact Or.inl rfl
  | some b => exact Or.inr ⟨b.inner, rfl, b.ne_punctuation⟩

/-- The written form of a declared type is made of the texts of its words. -/
theorem typeText_eq_foldl {text : String} (h : t.text = text) (suffix : List Token) :
    Simple.typeText t suffix = (words suffix).foldl (fun text w => text ++ w.text) text := by
  rw [words, List.foldl_map, Simple.typeText, h]
  rfl

/-! ## Arguments -/

/-- The words of arguments with commas between them are an argument list. -/
theorem isArgumentList_intercalate (a : Argument) (arguments : List Argument) :
    IsArgumentList ([.mark ","].intercalate ((a :: arguments).map fun a => [a.word])) := by
  induction arguments generalizing a with
  | nil => exact .single a.isArgument
  | cons b arguments ih =>
    rw [List.map_cons, List.map_cons, List.intercalate_cons_cons]
    exact .more a.isArgument (ih b)

/-- Without the commas the words are the arguments. -/
theorem filter_intercalate (arguments : List Argument) :
    ([Word.mark ","].intercalate (arguments.map fun a => [a.word])).filter
      (fun w => w.kind.isArgument) = arguments.map Argument.word := by
  induction arguments with
  | nil => rfl
  | cons a arguments ih =>
    cases arguments with
    | nil => exact List.filter_cons_of_pos a.isArgument
    | cons b arguments =>
      have ha : [a.word].filter (fun w => w.kind.isArgument) = [a.word] :=
        List.filter_cons_of_pos a.isArgument
      rw [List.map_cons] at ih
      rw [List.map_cons, List.map_cons, List.intercalate_cons_cons, List.filter_append,
        List.filter_append, ih, ha]
      rfl

/-- Tokens that spell the arguments of a call. -/
theorem arguments_of_words {arguments : List Argument}
    (h : words run = [.mark ","].intercalate (arguments.map fun a => [a.word])) :
    (run = [] ∨ IsArgumentList (words run)) ∧
      words (Simple.argumentTokens run) = arguments.map Argument.word := by
  constructor
  · cases arguments with
    | nil => exact Or.inl (List.map_eq_nil_iff.mp h)
    | cons a arguments =>
      rw [h]
      exact Or.inr (isArgumentList_intercalate a arguments)
  · have hfilter : words (Simple.argumentTokens run) =
        (words run).filter fun w => w.kind.isArgument := by
      rw [words, words, List.filter_map]
      rfl
    rw [hfilter, h, filter_intercalate]

/-! ## Statements -/

namespace Statement

/-- The statement that was read is a proper one with the tree of `a`. -/
structure WrittenAs (a : Statement) (x : Simple) : Prop where
  proper : x.Proper
  label : x.label.bare = a.label
  parts : bare x.parts = a.parts

theorem exists_declaration {type : TypeName} {name : Name} {brackets : Option Brackets}
    {value : Option Expression} (h : words ts = (declaration type name brackets value).spell) :
    ∃ x, WrittenAs (.declaration type name brackets value) x ∧ x.tokens = ts := by
  obtain ⟨t, ts, rfl, ht, h⟩ := List.map_eq_cons_iff.mp h
  obtain ⟨n, ts, rfl, hn, h⟩ := List.map_eq_cons_iff.mp h
  obtain ⟨suffix, ts, rfl, hsuffix, h⟩ := List.map_eq_append_iff.mp h
  obtain ⟨init, ts, rfl, hinit, h⟩ := List.map_eq_append_iff.mp h
  obtain ⟨semicolon, rfl, hsemi⟩ := List.map_eq_singleton_iff.mp h
  obtain ⟨i, hproper, rfl, hvalue⟩ := exists_initializer hinit
  have htext : t.text = type.text := congrArg Word.text ht
  have hident : n.text = name.text := congrArg Word.text hn
  refine ⟨.declaration t n suffix i semicolon, ⟨?_, rfl, ?_⟩, rfl⟩
  · exact ⟨TypeName.isTypeName_of_word ht, Name.isName_of_word hn, isSuffix_of_words hsuffix,
      hproper, hsemi⟩
  · rw [Statement.parts, ← hvalue, ← hident, ← hsuffix, ← words, ← typeText_eq_foldl htext]
    rfl

theorem exists_call {name : Name} {arguments : List Argument}
    (h : words ts = (call name arguments).spell) :
    ∃ x, WrittenAs (.call name arguments) x ∧ x.tokens = ts := by
  obtain ⟨n, ts, rfl, hn, h⟩ := List.map_eq_cons_iff.mp h
  obtain ⟨opening, ts, rfl, hopening, h⟩ := List.map_eq_cons_iff.mp h
  obtain ⟨run, ts, rfl, hrun, h⟩ := List.map_eq_append_iff.mp h
  obtain ⟨closing, ts, rfl, hclosing, h⟩ := List.map_eq_cons_iff.mp h
  obtain ⟨semicolon, rfl, hsemi⟩ := List.map_eq_singleton_iff.mp h
  obtain ⟨hlist, hleaves⟩ := arguments_of_words hrun
  have hident : n.text = name.text := congrArg Word.text hn
  refine ⟨.call n opening run closing semicolon, ⟨?_, ?_, ?_⟩, rfl⟩
  · exact ⟨Name.isName_of_word hn, hopening, hlist, hclosing, hsemi⟩
  · rw [Statement.label, ← hident]
    rfl
  · rw [Statement.parts, ← hident, ← hleaves, ← bare_leaves]
    rfl

theorem exists_ret {value : Option Expression} (h : words ts = (ret value).spell) :
    ∃ x, WrittenAs (.ret value) x ∧ x.tokens = ts := by
  obtain ⟨keyword, ts, rfl, hkeyword, h⟩ := List.map_eq_cons_iff.mp h
  obtain ⟨run, ts, rfl, hrun, h⟩ := List.map_eq_append_iff.mp h
  obtain ⟨semicolon, rfl, hsemi⟩ := List.map_eq_singleton_iff.mp h
  obtain ⟨hexpr, hvalue⟩ := value_of_words hrun
  exact ⟨.ret keyword run semicolon, ⟨⟨hkeyword, hexpr, hsemi⟩, rfl, hvalue⟩, rfl⟩

theorem exists_assignment {target : Name} {operator : Operator} {value : Expression}
    (h : words ts = (assignment target operator value).spell) :
    ∃ x, WrittenAs (.assignment target operator value) x ∧ x.tokens = ts := by
  obtain ⟨n, ts, rfl, hn, h⟩ := List.map_eq_cons_iff.mp h
  obtain ⟨sign, ts, rfl, hsign, h⟩ := List.map_eq_cons_iff.mp h
  obtain ⟨run, ts, rfl, hrun, h⟩ := List.map_eq_append_iff.mp h
  obtain ⟨semicolon, rfl, hsemi⟩ := List.map_eq_singleton_iff.mp h
  have hident : n.text = target.text := congrArg Word.text hn
  have hoperator : sign.text = operator.text := congrArg Word.text hsign
  refine ⟨.assignment n sign run semicolon, ⟨?_, ?_, ?_⟩, rfl⟩
  · exact ⟨Name.isName_of_word hn, Operator.isAssignment_of_word hsign,
      Expression.isExpression_of_words hrun, hsemi⟩
  · rw [Statement.label, ← hoperator]
    rfl
  · rw [Statement.parts, ← hident, ← bare_expressionOutline hrun]
    rfl

/-- Tokens that spell a statement are a proper one, with its tree. -/
theorem exists_writtenAs (a : Statement) (h : words ts = a.spell) :
    ∃ x, a.WrittenAs x ∧ x.tokens = ts := by
  cases a with
  | declaration => exact exists_declaration h
  | call => exact exists_call h
  | ret => exact exists_ret h
  | assignment => exact exists_assignment h

end Statement

/-! ## Headers -/

/-- Tokens that spell a header are a proper one. -/
theorem Condition.exists_header {kind : HeaderKind} (c : Condition)
    (h : words ts = c.header kind) :
    ∃ g : Header, g.Proper kind ∧ g.tokens = ts ∧ words g.condition = c.run := by
  obtain ⟨keyword, ts, rfl, hkeyword, h⟩ := List.map_eq_cons_iff.mp h
  obtain ⟨opening, ts, rfl, hopening, h⟩ := List.map_eq_cons_iff.mp h
  obtain ⟨run, ts, rfl, hrun, h⟩ := List.map_eq_append_iff.mp h
  obtain ⟨closing, ts, rfl, hclosing, h⟩ := List.map_eq_cons_iff.mp h
  obtain ⟨brace, rfl, hbrace⟩ := List.map_eq_singleton_iff.mp h
  have hcondition : Balanced (words run) := by
    rw [words, hrun]
    exact c.balanced
  exact ⟨⟨keyword, opening, run, closing, brace⟩,
    ⟨hkeyword, hopening, hcondition, hclosing, hbrace⟩, rfl, hrun⟩

end Grammar

end BraceLang
