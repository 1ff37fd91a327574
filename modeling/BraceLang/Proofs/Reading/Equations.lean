import BraceLang.Proofs.Reading.Derivation

/-!
# `Proofs.Reading.Equations` — what the reader does at each place

`Code.read` asks one question after the other at the front of the tokens. Each equation here is about
one answer, so the reader is taken apart once and not in every proof about it.

## Contents
- `read_nothing`, `read_atEnd`, `read_opened`, `read_close`, `read_closed` and `read_skip`.
- `read_simple`.
- `read_header`, with `readBlocks` for what happens behind the block of a header.
-/

namespace BraceLang

namespace Code

variable {limit level : Nat} {goal outer : Goal} {s s₁ : List Token} {t : Token}

theorem read_nothing : read limit level .nothing s = .ok (.nothing s) := by
  rw [read]

theorem read_atEnd : read limit level goal [] = .ok (.nothing []) := by
  cases goal <;> simp only [read]

theorem read_opened (hgoal : goal ≠ .nothing) (ht : t.word = .mark "\x7b") :
    read limit level goal (t :: s) = (read limit level goal.opened s).map (.skip t) := by
  rw [read, if_pos (Token.isPunct_iff.mpr ht)]
  exact hgoal

/-- Where no opening brace stands, a closing one is looked for. -/
theorem read_close (hgoal : goal.closed? = none) (ht : t.word = .mark "\x7d") :
    read limit level goal (t :: s) = .ok (.close t s) := by
  have hclose := Token.isPunct_iff.mpr ht
  have hne : goal ≠ .nothing := by
    rintro rfl
    exact absurd hgoal (by decide)
  rw [read, if_neg (Token.not_isPunct hclose (by decide)), if_pos hclose]
  · split
    · rfl
    · next h => exact absurd (hgoal.symm.trans h) (by simp)
  · exact hne

theorem read_closed (hgoal : goal ≠ .nothing) (houter : goal.closed? = some outer)
    (ht : t.word = .mark "\x7d") :
    read limit level goal (t :: s) = (read limit level outer s).map (.skip t) := by
  have hclose := Token.isPunct_iff.mpr ht
  rw [read, if_neg (Token.not_isPunct hclose (by decide)), if_pos hclose]
  · split
    · next h => exact absurd (houter.symm.trans h) (by simp)
    · next h =>
      obtain rfl := Option.some.inj (houter.symm.trans h)
      rfl
  · exact hgoal

theorem read_skip (hgoal : goal ≠ .nothing) (ht : ¬ t.word.IsBrace)
    (hsimple : ¬ Simple.Ahead (t :: s)) (hheader : ∀ kind, ¬ Header.Ahead kind (t :: s)) :
    read limit level goal (t :: s) = (read limit level goal s).map (.skip t) := by
  rw [← Token.isBrace_iff, Token.isBrace, Bool.or_eq_true] at ht
  obtain ⟨hopen, hclose⟩ := not_or.mp ht
  rw [read, if_neg hopen, if_neg hclose]
  · split
    · next h =>
      have hnone := Simple.read?_eq_none_iff.mpr hsimple
      exact absurd (hnone.symm.trans h) (by simp)
    · split
      · rfl
      · next h =>
        have hnone := Header.readAny?_eq_none_iff.mpr hheader
        exact absurd (hnone.symm.trans h) (by simp)
  · exact hgoal

/-- A statement without a block does not begin with a brace. -/
theorem not_isBrace_of_simple {x : Simple} (hx : x.Proper) (hs : x.tokens ++ s₁ = t :: s) :
    ¬ t.isPunct "\x7b" = true ∧ ¬ t.isPunct "\x7d" = true := by
  have hfirst : x.first = t := by
    have hhead := congrArg List.head? hs
    rw [List.head?_append, x.head?_tokens] at hhead
    exact Option.some.inj hhead
  have hkind : x.first.word.kind ≠ .punctuation := by
    rcases hx.first with htype | hname | hreturn
    · rw [htype.1]
      decide
    · rw [show x.first.word.kind = .identifier from hname]
      decide
    · rw [hreturn]
      decide
  rw [hfirst] at hkind
  rw [Token.isPunct_iff, Token.isPunct_iff]
  exact ⟨fun h => hkind (congrArg Word.kind h), fun h => hkind (congrArg Word.kind h)⟩

theorem read_simple {x : Simple} (hgoal : goal ≠ .nothing) (hx : x.Proper)
    (hs : x.tokens ++ s₁ = s) :
    read limit level goal s = (read limit level goal.next s₁).map (.simple x hs) := by
  cases s with
  | nil => exact absurd (x.length_lt_of_append hs) (Nat.not_lt_zero _)
  | cons t s =>
    obtain ⟨hopen, hclose⟩ := not_isBrace_of_simple hx hs
    have hread := Simple.read?_eq_some_iff.mpr ⟨hx, hs⟩
    rw [read, if_neg hopen, if_neg hclose]
    · split
      · next h =>
        obtain ⟨rfl, rfl⟩ := Prod.mk.inj (Option.some.inj (hread.symm.trans h))
        rfl
      · next h => exact absurd (hread.symm.trans h) (by simp)
    · exact hgoal

/-- Behind a block, no token of the start of an `else` is lost. -/
theorem Reading.elseHead_append {body : Reading s₁} {e : ElseHead} {s₂ : List Token}
    (h : ElseHead.read? body.rest = some (e, s₂)) : e.tokens ++ s₂ = body.rest :=
  ElseHead.read?_append h

/-- How the reader goes on behind a header. -/
def readBlocks (limit level : Nat) (goal : Goal) (kind : HeaderKind) (h : Header)
    (hs : h.tokens ++ s₁ = s) (body : Reading s₁) : Except NestingTooDeep (Reading s) :=
  match kind with
  | .loop kind => (read limit level goal.next body.rest).map (.loop kind h hs body)
  | .conditional =>
    match helse : ElseHead.read? body.rest with
    | none => (read limit level goal.next body.rest).map (.ifThen h hs body)
    | some (e, s₂) =>
      (enter limit level e.keyword).bind fun inner =>
        (read limit inner e.goal s₂).bind fun other =>
          (read limit level goal.next other.rest).map
            (.ifThenElse h hs body e (Reading.elseHead_append helse) other)

theorem readBlocks_ifThen {h : Header} {hs : h.tokens ++ s₁ = s} {body : Reading s₁}
    (helse : ElseHead.read? body.rest = none) :
    readBlocks limit level goal .conditional h hs body =
      (read limit level goal.next body.rest).map (.ifThen h hs body) := by
  rw [readBlocks]
  split
  · rfl
  · next hread => exact absurd (helse.symm.trans hread) (by simp)

theorem readBlocks_ifThenElse {h : Header} {hs : h.tokens ++ s₁ = s} {body : Reading s₁}
    {e : ElseHead} {s₂ : List Token} (helse : ElseHead.read? body.rest = some (e, s₂)) :
    readBlocks limit level goal .conditional h hs body =
      (enter limit level e.keyword).bind fun inner =>
        (read limit inner e.goal s₂).bind fun other =>
          (read limit level goal.next other.rest).map
            (.ifThenElse h hs body e (Reading.elseHead_append helse) other) := by
  rw [readBlocks]
  split
  · next hread => exact absurd (helse.symm.trans hread) (by simp)
  · next hread =>
    obtain ⟨rfl, rfl⟩ := Prod.mk.inj (Option.some.inj (helse.symm.trans hread))
    rfl

/-- Behind a header the block is entered and read, and then what follows it. -/
theorem read_header {kind : HeaderKind} {h : Header} (hgoal : goal ≠ .nothing)
    (hh : h.Proper kind) (hs : h.tokens ++ s₁ = s) :
    read limit level goal s =
      (enter limit level h.brace).bind fun inner =>
        (read limit inner (.block 0) s₁).bind (readBlocks limit level goal kind h hs) := by
  cases s with
  | nil => exact absurd (h.length_lt_of_append hs) (Nat.not_lt_zero _)
  | cons t s =>
    have hfirst : h.keyword = t := (List.cons.inj hs).1
    have hword : t.word = .reserved kind.keyword := hfirst ▸ hh.keyword
    have hopen : ¬ t.isPunct "\x7b" = true := by
      rw [Token.isPunct_iff, hword]
      exact Word.reserved_ne_mark _ _
    have hclose : ¬ t.isPunct "\x7d" = true := by
      rw [Token.isPunct_iff, hword]
      exact Word.reserved_ne_mark _ _
    have hsimple := Simple.read?_eq_none_iff.mpr (Header.Ahead.not_simple ⟨h, s₁, hh, hs⟩)
    have hheader := Header.readAny?_eq_some_iff.mpr ⟨hh, hs⟩
    rw [read, if_neg hopen, if_neg hclose]
    · split
      · next hread => exact absurd (hsimple.symm.trans hread) (by simp)
      · split
        · next hread => exact absurd (hheader.symm.trans hread) (by simp)
        · next hread =>
          obtain ⟨rfl, hrest⟩ := Prod.mk.inj (Option.some.inj (hheader.symm.trans hread))
          obtain ⟨rfl, rfl⟩ := Prod.mk.inj hrest
          -- Where `read` matches on an outcome, `bind` passes it on.
          cases enter limit level h.brace with
          | error e => rfl
          | ok inner =>
            simp only [Except.bind]
            cases read limit inner (.block 0) s₁ with
            | error e => rfl
            | ok body =>
              show _ = readBlocks limit level goal kind h hs body
              cases kind with
              | loop kind => rfl
              | conditional =>
                dsimp only
                split
                · next helse => exact (readBlocks_ifThen helse).symm
                · next e s₂ helse =>
                  rw [readBlocks_ifThenElse helse]
                  cases enter limit level e.keyword with
                  | error e => rfl
                  | ok inner =>
                    simp only [Except.bind]
                    cases read limit inner e.goal s₂ <;> rfl
    · exact hgoal

end Code

end BraceLang
