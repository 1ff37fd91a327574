import BraceLang.Proofs.Reading.Bodies
import BraceLang.Proofs.Scope.Copies
import BraceLang.Proofs.Token.Places

/-!
# `Proofs.Scope.Written` — the variables of scopes in the source

A variable of a scope is written in the source: the name of a type, its own name, and behind that the brackets
of an array if it is one. Name, type and place of the variable are those of the tokens. A scope has its
variables in the order in which they are written.

## Contents
- `Variable.WrittenIn`.
- **`Program.writtenIn_of_mem_locals`** and `Program.pairwise_locals`.
-/

namespace BraceLang

/-- Some of the tokens declare the variable: a type name, the name of the variable, and brackets if it is an
    array. What follows begins its initializer or ends the declaration. -/
def Variable.WrittenIn (v : Variable) (tokens : List Token) : Prop :=
  ∃ type name suffix next behind, type :: name :: (suffix ++ next :: behind) <:+: tokens ∧
    type.word.IsTypeName ∧ name.word.IsName ∧ IsSuffix (words suffix) ∧
    (next.word = ⟨.operator, "="⟩ ∨ next.word = .mark ";") ∧
    v.name = name.text ∧ v.declaredType = Simple.typeText type suffix ∧
    v.position = name.position ∧ v.span = name.span

namespace Program

variable {source : String} {limit : Nat} {p : Program} {config : Config} {s : Scope} {v : Variable}

/-- The declarations of a program are written in its source. -/
theorem writtenIn_of_mem_declarations (hread : read limit (tokenize source).tokens = .ok p)
    (h : v ∈ p.declarations) : v.WrittenIn (tokenize source).tokens := by
  obtain ⟨f, hf, b, hb, x, hx, hdeclares⟩ := exists_of_mem_declarations h
  obtain ⟨inner, behind, hcode, hinner⟩ := (reads_of_read hread).exists_code hf hb
  obtain ⟨hproper, hin⟩ := hcode.of_mem_simples hx
  have htokens := hin.trans hinner.isInfix
  cases x with
  | declaration type name suffix initializer semicolon =>
    obtain rfl := Option.some.inj hdeclares
    obtain ⟨htype, hname, hsuffix, hinitializer, hsemicolon⟩ := hproper
    have hmem : name ∈ (tokenize source).tokens :=
      htokens.subset (List.mem_cons_of_mem _ List.mem_cons_self)
    have hspan : (Label.ofToken .identifier name).span = name.span := by
      have hle := ((tokenize_successive source).start_lt_stop name hmem).le
      rw [Label.ofToken, Label.covering, Nat.max_eq_left hle]
    cases initializer with
    | none =>
      exact ⟨type, name, suffix, semicolon, [], htokens, htype, hname, hsuffix, .inr hsemicolon, rfl, rfl,
        rfl, hspan⟩
    | some i =>
      obtain ⟨hsign, -⟩ := hinitializer i rfl
      refine ⟨type, name, suffix, i.sign, i.value ++ [semicolon], ?_, htype, hname, hsuffix, .inl hsign,
        rfl, rfl, rfl, hspan⟩
      exact htokens
  | _ => exact absurd hdeclares (Option.some_ne_none v).symm

/-- **The variables of the scopes are written in the source.** -/
theorem writtenIn_of_mem_locals (hread : read limit (tokenize source).tokens = .ok p)
    (hs : s ∈ (p.scopes config).labels) (hv : v ∈ s.locals) : v.WrittenIn (tokenize source).tokens := by
  have hdeclared : v.unmarked ∈ p.declarations :=
    (locals_sublist hs).subset (List.mem_map_of_mem hv)
  -- the mark has no part in where a variable is written
  have hwritten : v.unmarked.WrittenIn (tokenize source).tokens :=
    writtenIn_of_mem_declarations hread hdeclared
  exact hwritten

/-- The variables of a scope are in the order in which their names are written. -/
theorem pairwise_locals (hread : read limit (tokenize source).tokens = .ok p)
    (hs : s ∈ (p.scopes config).labels) : s.locals.Pairwise fun v w => v.span.start < w.span.start := by
  have hordered := (pairwise_declarations hread).sublist (locals_sublist hs)
  rw [Scope.unmarked, List.pairwise_map] at hordered
  exact hordered

end Program

end BraceLang
