import BraceLang.Cost.Facts
import BraceLang.Proofs.Reading.Derivation

/-!
# `Proofs.Reading.Bodies` — what stands in the bodies of functions

A derivation reads a program from left to right, so everything that it finds on its way stands in the tokens
as it was read: the code of each body, and each statement without a block at any depth in that code.

## Contents
- `Code.tokens_of_mem_simples`, a statement among the tokens of code.
- `Code.Reads.rest_suffix` and `Code.Reads.of_mem_simples`.
- `Program.Reads.exists_code`, the code of a body.
-/

namespace BraceLang

variable {s rest : List Token} {c : Code} {closing : Option Token} {x : Simple}

namespace Code

variable {goal : Goal}

/-- A statement without a block stands, at any depth, among the tokens of the code. -/
theorem tokens_of_mem_simples (h : x ∈ c.simples) : x.tokens <:+: c.tokens := by
  induction c with
  | done => exact absurd h List.not_mem_nil
  | skip t rest ih => exact (ih h).trans (List.suffix_cons _ _).isInfix
  | simple first rest ih =>
    rcases List.mem_cons.mp h with rfl | hrest
    · exact (List.prefix_append _ _).isInfix
    · exact (ih hrest).trans (List.suffix_append _ _).isInfix
  | loop kind hd body closing rest ihb ih | ifThen hd body closing rest ihb ih =>
    rcases List.mem_append.mp h with hbody | hrest
    · exact (ihb hbody).trans ⟨hd.tokens, closing.toList ++ rest.tokens, by simp [tokens]⟩
    · exact (ih hrest).trans ⟨hd.tokens ++ (body.tokens ++ closing.toList), [], by simp [tokens]⟩
  | ifThenElse hd body closing e other otherClosing rest ihb iho ih =>
    rcases List.mem_append.mp h with hbody | hbehind
    · exact (ihb hbody).trans ⟨hd.tokens, closing.toList ++ (e.tokens ++ (other.tokens ++
        (otherClosing.toList ++ rest.tokens))), by simp [tokens]⟩
    · rcases List.mem_append.mp hbehind with hother | hrest
      · exact (iho hother).trans ⟨hd.tokens ++ (body.tokens ++ (closing.toList ++ e.tokens)),
          otherClosing.toList ++ rest.tokens, by simp [tokens]⟩
      · exact (ih hrest).trans ⟨hd.tokens ++ (body.tokens ++ (closing.toList ++ (e.tokens ++
          (other.tokens ++ otherClosing.toList)))), [], by simp [tokens]⟩

/-- What is left are the last of the tokens. -/
theorem Reads.rest_suffix (h : Reads goal s c closing rest) : rest <:+ s := by
  rw [← h.tokens_eq, ← List.append_assoc]
  exact List.suffix_append _ _

theorem Reads.proper_of_mem_simples (h : Reads goal s c closing rest) (hx : x ∈ c.simples) :
    x.Proper := by
  induction h with
  | nothing | atEnd | close => exact absurd hx List.not_mem_nil
  | opened _ _ _ ih | closed _ _ _ _ ih | skip _ _ _ _ _ ih => exact ih hx
  | simple _ hproper _ ih =>
    rcases List.mem_cons.mp hx with rfl | hx
    · exact hproper
    · exact ih hx
  | loop _ _ _ _ ihb ih | ifThen _ _ _ _ _ ihb ih => exact (List.mem_append.mp hx).elim ihb ih
  | ifThenElse _ _ _ _ _ _ ihb iho ih =>
    rcases List.mem_append.mp hx with hx | hx
    · exact ihb hx
    · exact (List.mem_append.mp hx).elim iho ih

/-- A statement without a block stands in the tokens as it was read. -/
theorem Reads.of_mem_simples (h : Reads goal s c closing rest) (hx : x ∈ c.simples) :
    x.Proper ∧ x.tokens <:+: s := by
  refine ⟨h.proper_of_mem_simples hx, ?_⟩
  rw [← h.tokens_eq]
  exact (tokens_of_mem_simples hx).trans (List.prefix_append _ _).isInfix

end Code

/-! ## The code of a body -/

namespace Function

variable {f : Function} {b : Block} {semicolon : Option Token} {body : Option Block}

theorem ReadsTail.exists_code (h : ReadsTail s body semicolon rest) (hb : b ∈ body) :
    ∃ inner behind, Code.Reads (.block 0) inner b.code b.closing behind ∧ inner <:+ s := by
  cases h with
  | body ht hcode =>
    obtain rfl := Option.mem_some.mp hb
    exact ⟨_, _, hcode, List.suffix_cons _ _⟩
  | semicolon => nomatch hb
  | nothing => nomatch hb

theorem Reads.exists_code (h : Reads s f rest) (hb : b ∈ f.body) :
    ∃ inner behind, Code.Reads (.block 0) inner b.code b.closing behind ∧ inner <:+ s := by
  cases h with
  | @intro type name opening s _ body semicolon hstart htail =>
    obtain ⟨inner, behind, hcode, hin⟩ := htail.exists_code hb
    have hparameters : (ParameterList.readItems 0 s).2.2 <:+ s := by
      refine ⟨(ParameterList.readItems 0 s).1.flatMap ParameterItem.tokens ++
        (ParameterList.readItems 0 s).2.1.toList, ?_⟩
      rw [List.append_assoc, ParameterList.readItems_tokens]
    exact ⟨inner, behind, hcode,
      hin.trans (hparameters.trans (List.suffix_append [type, name, opening] s))⟩

end Function

/-- **The body of a function stands in the tokens that were read.** -/
theorem Program.Reads.exists_code {items : List ProgramItem} {f : Function} {b : Block}
    (h : Reads s items) (hf : f ∈ (mk items).functions) (hb : b ∈ f.body) :
    ∃ inner behind, Code.Reads (.block 0) inner b.code b.closing behind ∧ inner <:+ s := by
  induction h with
  | nil => exact absurd hf List.not_mem_nil
  | skipped _ _ ih =>
    obtain ⟨inner, behind, hcode, hin⟩ := ih hf
    exact ⟨inner, behind, hcode, hin.trans (List.suffix_cons _ _)⟩
  | @function s rest g items hg _ ih =>
    rcases List.mem_cons.mp hf with rfl | hf
    · exact hg.exists_code hb
    · obtain ⟨inner, behind, hcode, hin⟩ := ih hf
      have hrest : rest <:+ s := by
        rw [← hg.tokens_eq]
        exact List.suffix_append _ _
      exact ⟨inner, behind, hcode, hin.trans hrest⟩

end BraceLang
