import BraceLang.Program.Reader
import BraceLang.Proofs.Reading.Statement

/-!
# `Proofs.Reading.Derivation` — what a row of tokens is read as

Without a nesting limit, every row of tokens is read as something. The relations of this module say
as what, one rule for each thing that can stand at the front. They mention neither a limit nor the
number of blocks around a place, so a reading that breaks off at a limit can be compared with the
one that it would have become.

## Contents
- `Code.Reads`, with `Code.Reads.tokens_eq` and `Code.exists_reads`.
- `Function.ReadsTail` and `Function.Reads`, and the same for them.
- `Program.Reads` and `Program.exists_reads`.
-/

namespace BraceLang

namespace Code

/-- Reading the tokens `s` up to a goal gives a code, the brace that has closed it, and the tokens
    that are left. -/
inductive Reads : Goal → List Token → Code → Option Token → List Token → Prop
  | nothing {s : List Token} : Reads .nothing s .done none s
  | atEnd {goal : Goal} : Reads goal [] .done none []
  | close {goal : Goal} {t : Token} {s : List Token} (hgoal : goal.closed? = none)
      (ht : t.word = .mark "\x7d") : Reads goal (t :: s) .done (some t) s
  | opened {goal : Goal} {t : Token} {s rest : List Token} {c : Code} {closing : Option Token}
      (hgoal : goal ≠ .nothing) (ht : t.word = .mark "\x7b")
      (hrest : Reads goal.opened s c closing rest) : Reads goal (t :: s) (.skip t c) closing rest
  | closed {goal outer : Goal} {t : Token} {s rest : List Token} {c : Code}
      {closing : Option Token} (hgoal : goal ≠ .nothing) (houter : goal.closed? = some outer)
      (ht : t.word = .mark "\x7d") (hrest : Reads outer s c closing rest) :
      Reads goal (t :: s) (.skip t c) closing rest
  | skip {goal : Goal} {t : Token} {s rest : List Token} {c : Code} {closing : Option Token}
      (hgoal : goal ≠ .nothing) (ht : ¬ t.word.IsBrace) (hsimple : ¬ Simple.Ahead (t :: s))
      (hheader : ∀ kind, ¬ Header.Ahead kind (t :: s)) (hrest : Reads goal s c closing rest) :
      Reads goal (t :: s) (.skip t c) closing rest
  | simple {goal : Goal} {x : Simple} {s rest : List Token} {c : Code} {closing : Option Token}
      (hgoal : goal ≠ .nothing) (hx : x.Proper) (hrest : Reads goal.next s c closing rest) :
      Reads goal (x.tokens ++ s) (.simple x c) closing rest
  | loop {goal : Goal} {kind : LoopKind} {h : Header} {s middle rest : List Token}
      {body c : Code} {bodyClosing closing : Option Token} (hgoal : goal ≠ .nothing)
      (hh : h.Proper (.loop kind)) (hbody : Reads (.block 0) s body bodyClosing middle)
      (hrest : Reads goal.next middle c closing rest) :
      Reads goal (h.tokens ++ s) (.loop kind h body bodyClosing c) closing rest
  | ifThen {goal : Goal} {h : Header} {s middle rest : List Token} {body c : Code}
      {bodyClosing closing : Option Token} (hgoal : goal ≠ .nothing) (hh : h.Proper .conditional)
      (hbody : Reads (.block 0) s body bodyClosing middle) (helse : ¬ ElseHead.Ahead middle)
      (hrest : Reads goal.next middle c closing rest) :
      Reads goal (h.tokens ++ s) (.ifThen h body bodyClosing c) closing rest
  | ifThenElse {goal : Goal} {h : Header} {e : ElseHead} {s s' middle rest : List Token}
      {body other c : Code} {bodyClosing otherClosing closing : Option Token}
      (hgoal : goal ≠ .nothing) (hh : h.Proper .conditional)
      (hbody : Reads (.block 0) s body bodyClosing (e.tokens ++ s')) (he : e.Proper s')
      (hother : Reads e.goal s' other otherClosing middle)
      (hrest : Reads goal.next middle c closing rest) :
      Reads goal (h.tokens ++ s) (.ifThenElse h body bodyClosing e other otherClosing c) closing
        rest

variable {goal : Goal} {s rest : List Token} {c : Code} {closing : Option Token}

/-- Nothing is lost. -/
theorem Reads.tokens_eq (h : Reads goal s c closing rest) :
    c.tokens ++ (closing.toList ++ rest) = s := by
  induction h with
  | nothing | atEnd | close => rfl
  | opened _ _ _ ih | closed _ _ _ _ ih | skip _ _ _ _ _ ih => rw [tokens, List.cons_append, ih]
  | simple _ _ _ ih => rw [tokens, List.append_assoc, ih]
  | loop _ _ _ _ ihb ih | ifThen _ _ _ _ _ ihb ih =>
    rw [tokens, List.append_assoc, List.append_assoc, List.append_assoc, ih, ihb]
  | ifThenElse _ _ _ _ _ _ ihb iho ih =>
    rw [tokens]
    simp only [List.append_assoc]
    rw [ih, iho, ihb]

theorem Reads.length_rest_le (h : Reads goal s c closing rest) : rest.length ≤ s.length := by
  rw [← h.tokens_eq, List.length_append, List.length_append]
  omega

/-- Every row of tokens is read as something. -/
theorem exists_reads (goal : Goal) (s : List Token) :
    ∃ c closing rest, Reads goal s c closing rest := by
  -- Behind a block no more tokens are left than before it, so the number of tokens decreases along
  -- each way of reading on. The cases come in the order in which the reader asks for them.
  induction hn : s.length using Nat.strongRecOn generalizing goal s with
  | ind n ih =>
    subst hn
    by_cases hgoal : goal = .nothing
    · subst hgoal
      exact ⟨_, _, _, .nothing⟩
    cases s with
    | nil => exact ⟨_, _, _, .atEnd⟩
    | cons t s =>
      have hnext : ∀ goal, ∃ c closing rest, Reads goal s c closing rest := fun goal =>
        ih s.length (by rw [List.length_cons]; omega) goal s rfl
      by_cases hopen : t.word = .mark "\x7b"
      · obtain ⟨c, closing, rest, hrest⟩ := hnext goal.opened
        exact ⟨_, _, _, .opened hgoal hopen hrest⟩
      by_cases hclose : t.word = .mark "\x7d"
      · cases houter : goal.closed? with
        | none => exact ⟨_, _, _, .close houter hclose⟩
        | some outer =>
          obtain ⟨c, closing, rest, hrest⟩ := hnext outer
          exact ⟨_, _, _, .closed hgoal houter hclose hrest⟩
      have hbrace : ¬ t.word.IsBrace := not_or.mpr ⟨hopen, hclose⟩
      by_cases hsimple : Simple.Ahead (t :: s)
      · obtain ⟨x, s₁, hx, hs⟩ := hsimple
        obtain ⟨c, closing, rest, hrest⟩ := ih s₁.length (x.length_lt_of_append hs) goal.next s₁ rfl
        rw [← hs]
        exact ⟨_, _, _, .simple hgoal hx hrest⟩
      by_cases hheader : ∃ kind, Header.Ahead kind (t :: s)
      · obtain ⟨kind, h, s₁, hh, hs⟩ := hheader
        have hlt := h.length_lt_of_append hs
        obtain ⟨body, bodyClosing, middle, hbody⟩ := ih s₁.length hlt (.block 0) s₁ rfl
        have hmiddle := hbody.length_rest_le
        rw [← hs]
        cases kind with
        | loop kind =>
          obtain ⟨c, closing, rest, hrest⟩ :=
            ih middle.length (by omega) goal.next middle rfl
          exact ⟨_, _, _, .loop hgoal hh hbody hrest⟩
        | conditional =>
          by_cases helse : ElseHead.Ahead middle
          · obtain ⟨e, s₂, he, rfl⟩ := helse
            have hs₂ : s₂.length < (e.tokens ++ s₂).length := e.length_lt_of_append rfl
            obtain ⟨other, otherClosing, last, hother⟩ := ih s₂.length (by omega) e.goal s₂ rfl
            have hlast := hother.length_rest_le
            obtain ⟨c, closing, rest, hrest⟩ := ih last.length (by omega) goal.next last rfl
            exact ⟨_, _, _, .ifThenElse hgoal hh hbody he hother hrest⟩
          · obtain ⟨c, closing, rest, hrest⟩ :=
              ih middle.length (by omega) goal.next middle rfl
            exact ⟨_, _, _, .ifThen hgoal hh hbody helse hrest⟩
      · obtain ⟨c, closing, rest, hrest⟩ := hnext goal
        exact ⟨_, _, _, .skip hgoal hbrace hsimple (not_exists.mp hheader) hrest⟩

end Code

namespace Function

/-- The start of a function stands at the front: its type, its name and a parenthesis. -/
structure ProperStart (type name opening : Token) : Prop where
  type : type.word.IsTypeName
  name : name.word.IsName
  opening : opening.word = .mark "("

/-- Reading what follows the parameters of a function gives its body, its semicolon, and the tokens
    that are left. -/
inductive ReadsTail : List Token → Option Block → Option Token → List Token → Prop
  | body {t : Token} {s rest : List Token} {c : Code} {closing : Option Token}
      (ht : t.word = .mark "\x7b") (hcode : Code.Reads (.block 0) s c closing rest) :
      ReadsTail (t :: s) (some ⟨t, c, closing⟩) none rest
  | semicolon {t : Token} {s : List Token} (ht : t.word = .mark ";") :
      ReadsTail (t :: s) none (some t) s
  | nothing {s : List Token}
      (hs : ∀ t ∈ s.head?, t.word ≠ .mark "\x7b" ∧ t.word ≠ .mark ";") : ReadsTail s none none s

/-- Reading the tokens `s` as a function gives that function and the tokens that are left. -/
inductive Reads : List Token → Function → List Token → Prop
  | intro {type name opening : Token} {s rest : List Token} {body : Option Block}
      {semicolon : Option Token} (hstart : ProperStart type name opening)
      (htail : ReadsTail (ParameterList.readItems 0 s).2.2 body semicolon rest) :
      Reads (type :: name :: opening :: s)
        ⟨type, name, ⟨opening, (ParameterList.readItems 0 s).1, (ParameterList.readItems 0 s).2.1⟩,
          body, semicolon⟩ rest

/-- A function begins at the front. -/
def Ahead (s : List Token) : Prop :=
  ∃ type name opening rest, ProperStart type name opening ∧ type :: name :: opening :: rest = s

variable {s rest : List Token} {type name opening : Token} {body : Option Block}
  {semicolon : Option Token} {f : Function}

/-- The start of a function is read if and only if a proper one stands ahead. -/
theorem readStart?_eq_some_iff :
    readStart? s = some (type, name, opening, rest) ↔
      ProperStart type name opening ∧ type :: name :: opening :: rest = s := by
  constructor
  · intro h
    refine ⟨?_, readStart?_append h⟩
    unfold readStart? at h
    split at h
    · split at h
      · next htest =>
        obtain ⟨rfl, rfl, rfl, rfl⟩ := by simpa using h
        rw [Bool.and_eq_true, Bool.and_eq_true, Token.isTypeName_iff, Token.isName_iff,
          Token.isPunct_iff] at htest
        exact ⟨htest.1.1, htest.1.2, htest.2⟩
      · exact absurd h (by simp)
    · exact absurd h (by simp)
  · rintro ⟨⟨htype, hname, hopening⟩, rfl⟩
    rw [readStart?, if_pos]
    rw [Bool.and_eq_true, Bool.and_eq_true, Token.isTypeName_iff, Token.isName_iff,
      Token.isPunct_iff]
    exact ⟨⟨htype, hname⟩, hopening⟩

/-- No start of a function is read if and only if none stands ahead. -/
theorem readStart?_eq_none_iff : readStart? s = none ↔ ¬ Ahead s := by
  rw [Option.eq_none_iff_forall_not_mem]
  constructor
  · rintro h ⟨type, name, opening, rest, hs⟩
    exact h (type, name, opening, rest) (readStart?_eq_some_iff.mpr hs)
  · rintro h ⟨type, name, opening, rest⟩ hread
    exact h ⟨type, name, opening, rest, readStart?_eq_some_iff.mp hread⟩

/-- Nothing is lost. -/
theorem ReadsTail.tokens_eq (h : ReadsTail s body semicolon rest) :
    (body.map Block.tokens).getD [] ++ (semicolon.toList ++ rest) = s := by
  cases h with
  | body ht hcode =>
    show _ :: (_ ++ _) ++ ([] ++ _) = _
    rw [List.nil_append, List.cons_append, List.append_assoc, hcode.tokens_eq]
  | semicolon | nothing => rfl

/-- Whatever follows the parameters of a function is read as something. -/
theorem exists_readsTail (s : List Token) :
    ∃ body semicolon rest, ReadsTail s body semicolon rest := by
  cases s with
  | nil => exact ⟨_, _, _, .nothing (by simp)⟩
  | cons t s =>
    by_cases hbrace : t.word = .mark "\x7b"
    · obtain ⟨c, closing, rest, hcode⟩ := Code.exists_reads (.block 0) s
      exact ⟨_, _, _, .body hbrace hcode⟩
    by_cases hsemi : t.word = .mark ";"
    · exact ⟨_, _, _, .semicolon hsemi⟩
    · refine ⟨_, _, _, .nothing ?_⟩
      intro u hu
      obtain rfl := Option.mem_some.mp hu
      exact ⟨hbrace, hsemi⟩

/-- Nothing is lost. -/
theorem Reads.tokens_eq (h : Reads s f rest) : f.tokens ++ rest = s := by
  obtain ⟨hstart, htail⟩ := h
  rename_i s' body semicolon
  have hitems := ParameterList.readItems_tokens 0 s'
  rw [← htail.tokens_eq] at hitems
  simp only [tokens, ParameterList.tokens, List.cons_append, List.append_assoc, hitems]

/-- Where a function begins, the tokens are read as one. -/
theorem exists_reads (h : Ahead s) : ∃ f rest, Reads s f rest := by
  obtain ⟨type, name, opening, s', hstart, rfl⟩ := h
  obtain ⟨body, semicolon, rest, htail⟩ := exists_readsTail (ParameterList.readItems 0 s').2.2
  exact ⟨_, _, .intro hstart htail⟩

end Function

namespace Program

/-- Reading the tokens of a program gives its parts. -/
inductive Reads : List Token → List ProgramItem → Prop
  | nil : Reads [] []
  | skipped {t : Token} {s : List Token} {items : List ProgramItem}
      (hs : ¬ Function.Ahead (t :: s)) (hrest : Reads s items) :
      Reads (t :: s) (.skipped t :: items)
  | function {s rest : List Token} {f : Function} {items : List ProgramItem}
      (hf : Function.Reads s f rest) (hrest : Reads rest items) :
      Reads s (.function f :: items)

/-- Every row of tokens is read as a program. -/
theorem exists_reads (s : List Token) : ∃ items, Reads s items := by
  induction hn : s.length using Nat.strongRecOn generalizing s with
  | ind n ih =>
    subst hn
    by_cases hahead : Function.Ahead s
    · obtain ⟨f, rest, hf⟩ := Function.exists_reads hahead
      obtain ⟨items, hitems⟩ := ih rest.length (f.length_lt_of_append hf.tokens_eq) rest rfl
      exact ⟨_, .function hf hitems⟩
    · cases s with
      | nil => exact ⟨_, .nil⟩
      | cons t s =>
        obtain ⟨items, hitems⟩ := ih s.length (by rw [List.length_cons]; omega) s rfl
        exact ⟨_, .skipped hahead hitems⟩

end Program

end BraceLang
