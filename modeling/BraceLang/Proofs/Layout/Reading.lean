import BraceLang.Proofs.Layout.Relocation
import BraceLang.Proofs.Reading.Nesting

/-!
# `Proofs.Layout.Reading` — a relocated text is read as the relocated program

A derivation only asks for words, so it can be carried over to new places rule by rule. What stands
at the front of a row of tokens decides which rule is used, and by `simple_ahead_iff` and its like
that is the same at the new places.

## Contents
- `Relocation.code_reads` and so on, up to `Relocation.program_reads`.
-/

namespace BraceLang

namespace Relocation

variable {r : Relocation} {s rest : List Token}

theorem goal_elseHead (r : Relocation) (e : ElseHead) : (r.elseHead e).goal = e.goal := by
  obtain ⟨keyword, brace⟩ := e
  cases brace <;> rfl

theorem code_reads {goal : Code.Goal} {c : Code} {closing : Option Token}
    (h : Code.Reads goal s c closing rest) :
    Code.Reads goal (r.tokens s) (r.code c) (closing.map r.token) (r.tokens rest) := by
  -- The rule stays in each case. Only `skip` and the two forms of `if` also say what is not ahead, for
  -- which nothing new may be read at the new places.
  induction h with
  | nothing => exact .nothing
  | atEnd => exact .atEnd
  | close hgoal ht => exact .close hgoal ht
  | opened hgoal ht _ ih => exact .opened hgoal ht ih
  | closed hgoal houter ht _ ih => exact .closed hgoal houter ht ih
  | skip hgoal ht hsimple hheader _ ih =>
    have hsimple' : ¬ Simple.Ahead (r.tokens (_ :: _)) := mt simple_ahead_iff.mp hsimple
    have hheader' kind : ¬ Header.Ahead kind (r.tokens (_ :: _)) :=
      mt header_ahead_iff.mp (hheader kind)
    exact .skip hgoal ht hsimple' hheader' ih
  | simple hgoal hx _ ih =>
    rw [r.tokens_append, ← tokens_simple]
    exact .simple hgoal (simple_proper_iff.mpr hx) ih
  | loop hgoal hh _ _ ihb ih =>
    rw [r.tokens_append, ← tokens_header]
    exact .loop hgoal (header_proper_iff.mpr hh) ihb ih
  | ifThen hgoal hh _ helse _ ihb ih =>
    rw [r.tokens_append, ← tokens_header]
    exact .ifThen hgoal (header_proper_iff.mpr hh) ihb (mt elseHead_ahead_iff.mp helse) ih
  | ifThenElse hgoal hh _ he _ _ ihb iho ih =>
    -- what the body leaves begins with the `else`, so that is moved inside of the rest of the body
    rw [r.tokens_append, ← tokens_header]
    rw [r.tokens_append, ← tokens_elseHead] at ihb
    rw [← goal_elseHead r] at iho
    exact .ifThenElse hgoal (header_proper_iff.mpr hh) ihb (elseHead_proper_iff.mpr he) iho ih

/-- The parts of a parameter list are told apart by words. -/
theorem readItems_tokens (r : Relocation) (depth : Nat) (s : List Token) :
    ParameterList.readItems depth (r.tokens s) =
      ((ParameterList.readItems depth s).1.map r.parameterItem,
        (ParameterList.readItems depth s).2.1.map r.token,
        r.tokens (ParameterList.readItems depth s).2.2) := by
  fun_induction ParameterList.readItems depth s with
  | case1 => rfl
  | case2 depth t s hopen items closing rest hread ih =>
    simp only [hread] at ih
    rw [tokens_cons, ParameterList.readItems.eq_def]
    dsimp only
    rw [isPunct_token, if_pos hopen, ih]
    rfl
  | case3 t s hopen hclose =>
    rw [tokens_cons, ParameterList.readItems.eq_def]
    dsimp only
    rw [isPunct_token, if_neg hopen, isPunct_token, if_pos hclose]
    rfl
  | case4 t s hopen hclose depth items closing rest hread ih =>
    simp only [hread] at ih
    rw [tokens_cons, ParameterList.readItems.eq_def]
    dsimp only
    rw [isPunct_token, if_neg hopen, isPunct_token, if_pos hclose, ih]
    rfl
  | case5 depth t hopen hclose name s htest items closing rest hread ih =>
    simp only [hread] at ih
    rw [tokens_cons, tokens_cons, ParameterList.readItems.eq_def]
    dsimp only
    rw [isPunct_token, if_neg hopen, isPunct_token, if_neg hclose, isTypeName_token, kind_token,
      if_pos htest, ih]
    rfl
  | case6 depth t hopen hclose name s htest items closing rest hread ih =>
    rw [tokens_cons] at ih
    simp only [hread] at ih
    rw [tokens_cons, tokens_cons, ParameterList.readItems.eq_def]
    dsimp only
    rw [isPunct_token, if_neg hopen, isPunct_token, if_neg hclose, isTypeName_token, kind_token,
      if_neg htest, ih]
    rfl
  | case7 depth t hopen hclose =>
    rw [tokens_cons, ParameterList.readItems.eq_def]
    dsimp only
    rw [isPunct_token, if_neg hopen, isPunct_token, if_neg hclose]
    rfl

theorem function_readsTail {body : Option Block} {semicolon : Option Token}
    (h : Function.ReadsTail s body semicolon rest) :
    Function.ReadsTail (r.tokens s) (body.map r.block) (semicolon.map r.token) (r.tokens rest) := by
  cases h with
  | body ht hcode => exact .body ht (code_reads hcode)
  | semicolon ht => exact .semicolon ht
  | nothing hs =>
    refine .nothing ?_
    intro t ht
    rw [tokens, List.head?_map] at ht
    obtain ⟨u, hu, rfl⟩ := Option.map_eq_some_iff.mp ht
    exact hs u hu

theorem function_reads {f : Function} (h : Function.Reads s f rest) :
    Function.Reads (r.tokens s) (r.function f) (r.tokens rest) := by
  obtain ⟨⟨htype, hname, hopening⟩, htail⟩ := h
  rename_i type name opening s body semicolon
  have hstart : Function.ProperStart (r.token type) (r.token name) (r.token opening) :=
    ⟨htype, hname, hopening⟩
  have hread : Function.ReadsTail (ParameterList.readItems 0 (r.tokens s)).2.2 (body.map r.block)
      (semicolon.map r.token) (r.tokens rest) := by
    rw [readItems_tokens]
    exact function_readsTail htail
  have hfunction := Function.Reads.intro hstart hread
  rwa [readItems_tokens] at hfunction

theorem function_ahead_iff : Function.Ahead (r.tokens s) ↔ Function.Ahead s := by
  constructor
  · rintro ⟨type, name, opening, rest, ⟨htype, hname, hopening⟩, hs⟩
    obtain ⟨type, _, rfl, rfl, h₁⟩ := List.map_eq_cons_iff.mp hs.symm
    obtain ⟨name, _, rfl, rfl, h₂⟩ := List.map_eq_cons_iff.mp h₁
    obtain ⟨opening, rest, rfl, rfl, -⟩ := List.map_eq_cons_iff.mp h₂
    exact ⟨type, name, opening, rest, ⟨htype, hname, hopening⟩, rfl⟩
  · rintro ⟨type, name, opening, rest, ⟨htype, hname, hopening⟩, rfl⟩
    exact ⟨r.token type, r.token name, r.token opening, r.tokens rest, ⟨htype, hname, hopening⟩, rfl⟩

/-- **A relocated text is read as the relocated program.** -/
theorem program_reads {items : List ProgramItem} (h : Program.Reads s items) :
    Program.Reads (r.tokens s) (items.map r.item) := by
  induction h with
  | nil => exact .nil
  | skipped hs _ ih =>
    have hs' : ¬ Function.Ahead (r.tokens (_ :: _)) := mt function_ahead_iff.mp hs
    exact .skipped hs' ih
  | function hf _ ih => exact .function (function_reads hf) ih

end Relocation

end BraceLang
