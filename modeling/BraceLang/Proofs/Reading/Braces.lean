import BraceLang.Proofs.Reading.Nesting

/-!
# `Proofs.Reading.Braces` — the braces in what is read

A block is read up to the first brace that closes more than has been opened behind its own brace,
whatever the tokens are. The reader keeps no account of this for the whole source: bare braces are
counted by the goal, and those of a statement are consumed with it. Both are the same count, since no
statement without a block, no condition and no start of an `else` holds a brace inside.

## Contents
- `openBraces` and `closeBraces`, and `BraceRun`, a run that goes from one level of open braces to
  another without going below 0.
- What the parts of code hold: `Simple.Proper.no_brace`, `Header.Proper.braceRun` and so on.
- `EndsBlock`, a run that ends where its block does, and **`Code.Reads.endsBlock`**.
-/

namespace BraceLang

/-- The number of braces in the run that open. -/
def openBraces (run : List Token) : Nat := run.countP (·.isPunct "\x7b")

/-- The number of braces in the run that close. -/
def closeBraces (run : List Token) : Nat := run.countP (·.isPunct "\x7d")

/-- Where `level` braces are open, the run closes none but these and its own, and `last` braces are
    open behind it. -/
structure BraceRun (level last : Nat) (run : List Token) : Prop where
  stays : ∀ front, front <+: run → closeBraces front ≤ level + openBraces front
  ends : last + closeBraces run = level + openBraces run

section Counting

variable {run more front : List Token} {t : Token} {level mid last : Nat}

theorem openBraces_append (run more : List Token) :
    openBraces (run ++ more) = openBraces run + openBraces more :=
  List.countP_append

theorem closeBraces_append (run more : List Token) :
    closeBraces (run ++ more) = closeBraces run + closeBraces more :=
  List.countP_append

theorem openBraces_of_no_brace (h : ∀ t ∈ run, ¬ t.isBrace = true) : openBraces run = 0 := by
  refine List.countP_eq_zero.mpr fun t ht hopen => h t ht ?_
  rw [Token.isBrace, hopen, Bool.true_or]

theorem closeBraces_of_no_brace (h : ∀ t ∈ run, ¬ t.isBrace = true) : closeBraces run = 0 := by
  refine List.countP_eq_zero.mpr fun t ht hclose => h t ht ?_
  rw [Token.isBrace, hclose, Bool.or_true]

theorem openBraces_opening (h : t.isPunct "\x7b" = true) : openBraces [t] = 1 := by
  rw [openBraces, List.countP_singleton, if_pos h]

theorem closeBraces_opening (h : t.isPunct "\x7b" = true) : closeBraces [t] = 0 := by
  rw [closeBraces, List.countP_singleton, if_neg (Token.not_isPunct h (by decide))]

theorem openBraces_closing (h : t.isPunct "\x7d" = true) : openBraces [t] = 0 := by
  rw [openBraces, List.countP_singleton, if_neg (Token.not_isPunct h (by decide))]

theorem closeBraces_closing (h : t.isPunct "\x7d" = true) : closeBraces [t] = 1 := by
  rw [closeBraces, List.countP_singleton, if_pos h]

/-- What stands at the front of two runs is a front of the first, or the first with a front of the
    second. -/
theorem prefix_append_cases (h : front <+: run ++ more) :
    front <+: run ∨ ∃ u, u <+: more ∧ front = run ++ u := by
  obtain ⟨rest, hrest⟩ := h
  rcases List.append_eq_append_iff.mp hrest with ⟨u, hu, -⟩ | ⟨u, hu, hmore⟩
  · exact Or.inl ⟨u, hu.symm⟩
  · exact Or.inr ⟨u, ⟨rest, hmore.symm⟩, hu⟩

namespace BraceRun

theorem nil : BraceRun level level [] := by
  refine ⟨fun front hfront => ?_, rfl⟩
  rw [List.prefix_nil.mp hfront]
  exact Nat.zero_le _

theorem append (h : BraceRun level mid run) (hmore : BraceRun mid last more) :
    BraceRun level last (run ++ more) := by
  have hends := h.ends
  constructor
  · intro front hfront
    rcases prefix_append_cases hfront with hin | ⟨u, hu, rfl⟩
    · exact h.stays front hin
    · have := hmore.stays u hu
      rw [openBraces_append, closeBraces_append]
      omega
  · have := hmore.ends
    rw [openBraces_append, closeBraces_append]
    omega

/-- A run without braces changes nothing. -/
theorem plain (h : ∀ t ∈ run, ¬ t.isBrace = true) : BraceRun level level run := by
  constructor
  · intro front hfront
    rw [closeBraces_of_no_brace fun t ht => h t (hfront.subset ht)]
    exact Nat.zero_le _
  · rw [openBraces_of_no_brace h, closeBraces_of_no_brace h]

theorem opening (h : t.isPunct "\x7b" = true) : BraceRun level (level + 1) [t] := by
  refine ⟨fun front hfront => ?_, by rw [openBraces_opening h, closeBraces_opening h]⟩
  have hle := hfront.sublist.countP_le (p := (·.isPunct "\x7d"))
  have hnone := closeBraces_opening h
  rw [closeBraces] at *
  omega

theorem closing (h : t.isPunct "\x7d" = true) : BraceRun (level + 1) level [t] := by
  refine ⟨fun front hfront => ?_, by rw [openBraces_closing h, closeBraces_closing h]⟩
  have hle := hfront.sublist.countP_le (p := (·.isPunct "\x7d"))
  have hone := closeBraces_closing h
  rw [closeBraces] at *
  omega

/-- Further open braces stay open. -/
theorem raise (h : BraceRun level last run) (more : Nat) : BraceRun (level + more) (last + more) run := by
  constructor
  · intro front hfront
    have := h.stays front hfront
    omega
  · have := h.ends
    omega

end BraceRun

end Counting

/-! ## The parts of code -/

namespace Word

variable {w : Word} {text : String}

theorem not_isBrace_of_kind (h : w.kind ≠ .punctuation) : ¬ w.IsBrace := by
  rintro (rfl | rfl) <;> exact h rfl

theorem not_isBrace_mark (hopen : text ≠ "\x7b") (hclose : text ≠ "\x7d") :
    ¬ (mark text).IsBrace := by
  rintro (h | h)
  · exact hopen (congrArg Word.text h)
  · exact hclose (congrArg Word.text h)

theorem IsTypeName.not_isBrace (h : w.IsTypeName) : ¬ w.IsBrace :=
  not_isBrace_of_kind (by rw [h.1]; decide)

theorem IsName.not_isBrace (h : w.IsName) : ¬ w.IsBrace :=
  not_isBrace_of_kind (by rw [show w.kind = _ from h]; decide)

theorem IsAssignment.not_isBrace (h : w.IsAssignment) : ¬ w.IsBrace :=
  not_isBrace_of_kind (by rw [h.1]; decide)

theorem IsArgument.not_isBrace (h : w.IsArgument) : ¬ w.IsBrace := by
  refine not_isBrace_of_kind fun hkind => ?_
  rw [IsArgument, hkind] at h
  exact Bool.false_ne_true h

theorem not_isBrace_reserved (text : String) : ¬ (reserved text).IsBrace :=
  not_isBrace_of_kind fun h => absurd (show Token.Kind.keyword = .punctuation from h) (by decide)

end Word

/-- No word of an argument list is a brace. -/
theorem IsArgumentList.no_brace {run : List Word} (h : IsArgumentList run) :
    ∀ w ∈ run, ¬ w.IsBrace := by
  induction h with
  | single ha => exact List.forall_mem_singleton.mpr ha.not_isBrace
  | more ha _ ih =>
    have hcomma : ¬ (Word.mark ",").IsBrace := Word.not_isBrace_mark (by decide) (by decide)
    exact List.forall_mem_cons.mpr ⟨ha.not_isBrace, List.forall_mem_cons.mpr ⟨hcomma, ih⟩⟩

/-- No word of the brackets of an array is a brace. -/
theorem IsSuffix.no_brace {run : List Word} (h : IsSuffix run) : ∀ w ∈ run, ¬ w.IsBrace := by
  rcases h with rfl | ⟨inner, rfl, hinner⟩
  · exact fun w hw => absurd hw List.not_mem_nil
  · have hopening : ¬ (Word.mark "[").IsBrace := Word.not_isBrace_mark (by decide) (by decide)
    have hclosing : ¬ (Word.mark "]").IsBrace := Word.not_isBrace_mark (by decide) (by decide)
    refine List.forall_mem_cons.mpr ⟨hopening, List.forall_mem_append.mpr ⟨?_, ?_⟩⟩
    · exact fun w hw => Word.not_isBrace_of_kind (hinner w hw)
    · exact List.forall_mem_singleton.mpr hclosing

/-- No token of a statement without a block is a brace. -/
theorem Simple.Proper.no_brace {x : Simple} (hx : x.Proper) : ∀ t ∈ x.tokens, ¬ t.word.IsBrace := by
  have hmark : ∀ {t : Token} {text : String}, t.word = .mark text → text ≠ "\x7b" →
      text ≠ "\x7d" → ¬ t.word.IsBrace := fun ht hopen hclose => by
    rw [ht]
    exact Word.not_isBrace_mark hopen hclose
  have hrun : ∀ {run : List Token}, (∀ w ∈ words run, ¬ w.IsBrace) → ∀ t ∈ run, ¬ t.word.IsBrace :=
    fun h _ ht => h _ (List.mem_map_of_mem ht)
  cases x with
  | declaration type name suffix initializer semicolon =>
    obtain ⟨htype, hname, hsuffix, hinitializer, hsemi⟩ := hx
    have hvalue : ∀ t ∈ (initializer.map Initializer.tokens).getD [], ¬ t.word.IsBrace := by
      cases initializer with
      | none => exact fun t ht => absurd ht List.not_mem_nil
      | some i =>
        have hi := hinitializer i rfl
        refine List.forall_mem_cons.mpr ⟨?_, hrun hi.value.no_brace⟩
        exact Word.not_isBrace_of_kind (by rw [hi.sign]; decide)
    simp only [tokens, List.forall_mem_cons, List.forall_mem_append, List.not_mem_nil,
      false_implies, implies_true, and_true]
    exact ⟨htype.not_isBrace, hname.not_isBrace, hrun hsuffix.no_brace, hvalue,
      hmark hsemi (by decide) (by decide)⟩
  | call name opening arguments closing semicolon =>
    obtain ⟨hname, hopening, harguments, hclosing, hsemi⟩ := hx
    have hlist : ∀ t ∈ arguments, ¬ t.word.IsBrace := by
      rcases harguments with rfl | hlist
      · exact fun t ht => absurd ht List.not_mem_nil
      · exact hrun hlist.no_brace
    simp only [tokens, List.forall_mem_cons, List.forall_mem_append, List.not_mem_nil,
      false_implies, implies_true, and_true]
    exact ⟨hname.not_isBrace, hmark hopening (by decide) (by decide), hlist,
      hmark hclosing (by decide) (by decide), hmark hsemi (by decide) (by decide)⟩
  | ret keyword value semicolon =>
    obtain ⟨hkeyword, hvalue, hsemi⟩ := hx
    have hvalue : ∀ t ∈ value, ¬ t.word.IsBrace := by
      rcases hvalue with rfl | hvalue
      · exact fun t ht => absurd ht List.not_mem_nil
      · exact hrun hvalue.no_brace
    simp only [tokens, List.forall_mem_cons, List.forall_mem_append, List.not_mem_nil,
      false_implies, implies_true, and_true]
    exact ⟨by rw [hkeyword]; exact Word.not_isBrace_reserved _, hvalue,
      hmark hsemi (by decide) (by decide)⟩
  | assignment target operator value semicolon =>
    obtain ⟨htarget, hoperator, hvalue, hsemi⟩ := hx
    simp only [tokens, List.forall_mem_cons, List.forall_mem_append, List.not_mem_nil,
      false_implies, implies_true, and_true]
    exact ⟨htarget.not_isBrace, hoperator.not_isBrace, hrun hvalue.no_brace,
      hmark hsemi (by decide) (by decide)⟩

/-- The number of bare braces that are open where the goal is set. -/
def Code.Goal.level : Goal → Nat
  | .block bare => bare
  | _ => 0

/-- The number of braces around what the goal asks for. -/
def Code.Goal.braces : Goal → Nat
  | .block _ => 1
  | _ => 0

@[simp] theorem Code.Goal.level_next (goal : Goal) : goal.next.level = goal.level := by
  cases goal <;> rfl

@[simp] theorem Code.Goal.braces_next (goal : Goal) : goal.next.braces = goal.braces := by
  cases goal <;> rfl

@[simp] theorem ElseHead.level_goal (e : ElseHead) : e.goal.level = 0 := by
  unfold goal
  split <;> rfl

section Parts

variable {level mid last : Nat} {s rest body : List Token} {closing : Option Token}

theorem Simple.Proper.braceRun {x : Simple} (hx : x.Proper) : BraceRun level level x.tokens :=
  BraceRun.plain fun t ht => Token.not_isBrace_iff.mpr (hx.no_brace t ht)

/-- No token of a header before its brace is a brace. -/
theorem Header.Proper.no_brace {kind : HeaderKind} {h : Header} (hh : h.Proper kind) :
    ∀ t ∈ h.keyword :: h.opening :: (h.condition ++ [h.closing]), ¬ t.word.IsBrace := by
  simp only [List.forall_mem_cons, List.forall_mem_append, List.not_mem_nil, false_implies,
    implies_true, and_true]
  refine ⟨?_, ?_, fun t ht => hh.condition.no_brace _ (List.mem_map_of_mem ht), ?_⟩
  · rw [hh.keyword]
    exact Word.not_isBrace_reserved _
  · intro h
    rw [hh.opening] at h
    exact Word.not_isBrace_mark (by decide) (by decide) h
  · intro h
    rw [hh.closing] at h
    exact Word.not_isBrace_mark (by decide) (by decide) h

/-- A header opens one brace. -/
theorem Header.Proper.braceRun {kind : HeaderKind} {h : Header} (hh : h.Proper kind) :
    BraceRun level (level + 1) h.tokens := by
  have hparts : h.tokens = (h.keyword :: h.opening :: (h.condition ++ [h.closing])) ++ [h.brace] := by
    rw [tokens, List.cons_append, List.cons_append, List.append_assoc]
    rfl
  rw [hparts]
  refine (BraceRun.plain fun t ht => Token.not_isBrace_iff.mpr (hh.no_brace t ht)).append ?_
  exact BraceRun.opening (Token.isPunct_iff.mpr hh.brace)

/-- A header does not begin with a brace. -/
theorem Header.Ahead.not_isBrace {kind : HeaderKind} {t : Token}
    (h : Header.Ahead kind (t :: s)) : ¬ t.word.IsBrace := by
  obtain ⟨h, rest, hproper, htokens⟩ := h
  obtain ⟨rfl, -⟩ := List.cons.inj htokens
  rw [hproper.keyword]
  exact Word.not_isBrace_reserved _

/-- The start of an `else` opens one brace if it has one. -/
theorem ElseHead.Proper.braceRun {e : ElseHead} (he : e.Proper s) :
    BraceRun level (level + e.goal.braces) e.tokens := by
  have hkeyword : BraceRun level level [e.keyword] := by
    refine BraceRun.plain (List.forall_mem_singleton.mpr (Token.not_isBrace_iff.mpr ?_))
    rw [he.keyword]
    exact Word.not_isBrace_reserved _
  obtain ⟨keyword, brace⟩ := e
  cases brace with
  | none => exact hkeyword
  | some b => exact hkeyword.append (BraceRun.opening (Token.isPunct_iff.mpr (he.brace b rfl)))

end Parts

/-! ## What is read -/

namespace Code

/-- The code goes from the level of its goal to the level `last`, and then its block ends: at a brace
    that closes it, or with the tokens; or the goal was no block and is reached on the same level. -/
structure ClosesAt (goal : Goal) (c : Code) (closing : Option Token) (rest : List Token) (last : Nat) :
    Prop where
  braceRun : BraceRun goal.level last c.tokens
  closed : ∀ t ∈ closing, t.isPunct "\x7d" = true ∧ last = 0 ∧ goal.braces = 1
  reached : closing = none → rest = [] ∨ last = goal.level ∧ goal.braces = 0

variable {goal inner : Goal} {s rest middle run : List Token} {c c' body : Code}
  {closing bodyClosing : Option Token} {level last : Nat}

/-- A goal that is set inside of a statement, with the brace that closes it, leads back to the level
    of the statement, unless the tokens end in it. -/
theorem ClosesAt.back (h : ClosesAt inner body bodyClosing middle last) (hinner : inner.level = 0) :
    BraceRun (level + inner.braces) level (body.tokens ++ bodyClosing.toList) ∨
      middle = [] ∧ ∃ below, BraceRun (level + inner.braces) below (body.tokens ++ bodyClosing.toList) := by
  have hbody := h.braceRun.raise (level + inner.braces)
  rw [hinner, Nat.zero_add] at hbody
  cases bodyClosing with
  | none =>
    rw [Option.toList_none, List.append_nil]
    rcases h.reached rfl with hmiddle | ⟨hlast, hbraces⟩
    · exact Or.inr ⟨hmiddle, _, hbody⟩
    · rw [hlast, hinner, hbraces, Nat.zero_add] at hbody
      rw [hbraces]
      exact Or.inl hbody
  | some t =>
    obtain ⟨ht, rfl, hbraces⟩ := h.closed t rfl
    rw [hbraces, Nat.zero_add] at hbody
    rw [hbraces]
    exact Or.inl (hbody.append (BraceRun.closing ht))

/-- Tokens that change nothing may stand before the code. -/
theorem ClosesAt.skip (hrun : BraceRun goal.level inner.level run) (h : ClosesAt inner c closing rest last)
    (hbraces : inner.braces = goal.braces) (hlevel : goal.braces = 0 → inner.level = goal.level)
    (htokens : c'.tokens = run ++ c.tokens) : ClosesAt goal c' closing rest last := by
  refine ⟨htokens ▸ hrun.append h.braceRun, hbraces ▸ h.closed, fun hnone => ?_⟩
  rcases h.reached hnone with hrest | ⟨hlast, hnot⟩
  · exact Or.inl hrest
  · rw [hbraces] at hnot
    exact Or.inr ⟨hlast.trans (hlevel hnot), hnot⟩

/-- A statement with blocks, the last of which is set behind the tokens `run`, and the code behind
    it. -/
theorem ClosesAt.statement (hrun : BraceRun goal.level (goal.level + inner.braces) run)
    (hinner : inner.level = 0) (hbody : ∃ last, ClosesAt inner body bodyClosing middle last)
    (hrest : Reads goal.next middle c closing rest) (h : ∃ last, ClosesAt goal.next c closing rest last)
    (htokens : c'.tokens = run ++ (body.tokens ++ (bodyClosing.toList ++ c.tokens))) :
    ∃ last, ClosesAt goal c' closing rest last := by
  obtain ⟨last, hbody⟩ := hbody
  obtain ⟨final, h⟩ := h
  rw [← List.append_assoc body.tokens, ← List.append_assoc] at htokens
  have hend : BraceRun (goal.level + inner.braces) goal.level (body.tokens ++ bodyClosing.toList) ∨
      middle = [] ∧ ∃ below,
        BraceRun (goal.level + inner.braces) below (body.tokens ++ bodyClosing.toList) :=
    hbody.back hinner
  rcases hend with hback | ⟨rfl, below, hbelow⟩
  · refine ⟨final, ClosesAt.skip ?_ h goal.braces_next (fun _ => goal.level_next) htokens⟩
    rw [Goal.level_next]
    exact hrun.append hback
  · -- the tokens end in the block, so there is no code behind it
    have hnil := hrest.tokens_eq
    rw [List.append_eq_nil_iff, List.append_eq_nil_iff, Option.toList_eq_nil_iff] at hnil
    obtain ⟨hc, rfl, rfl⟩ := hnil
    rw [hc, List.append_nil] at htokens
    refine ⟨below, ?_, fun t ht => absurd ht (by simp), fun _ => Or.inl rfl⟩
    rw [htokens]
    exact hrun.append hbelow

/-- **Code ends where its block does.** A goal that asks for a statement has one ahead. -/
theorem Reads.ends (h : Reads goal s c closing rest)
    (hahead : goal = .statement → ∃ kind, Header.Ahead kind s) :
    ∃ last, ClosesAt goal c closing rest last := by
  induction h with
  | nothing => exact ⟨0, BraceRun.nil, by simp, fun _ => Or.inr ⟨rfl, rfl⟩⟩
  | @atEnd goal => exact ⟨goal.level, BraceRun.nil, by simp, fun _ => Or.inl rfl⟩
  | @close goal t s hgoal ht =>
    have hblock : goal = .block 0 := by
      rcases goal with (_ | _) | _ | _
      · rfl
      all_goals exact absurd hgoal (by simp [Goal.closed?])
    subst hblock
    refine ⟨0, BraceRun.nil, fun u hu => ?_, by simp⟩
    obtain rfl := Option.mem_some.mp hu
    exact ⟨Token.isPunct_iff.mpr ht, rfl, rfl⟩
  | @opened goal t s rest c closing hgoal ht hrest ih =>
    rcases goal with bare | _ | _
    · obtain ⟨last, h⟩ := ih (by simp [Goal.opened])
      exact ⟨last, h.skip (BraceRun.opening (Token.isPunct_iff.mpr ht)) rfl (by simp [Goal.braces]) rfl⟩
    · obtain ⟨kind, hkind⟩ := hahead rfl
      exact absurd (Or.inl ht) hkind.not_isBrace
    · exact absurd rfl hgoal
  | @closed goal outer t s rest c closing hgoal houter ht hrest ih =>
    rcases goal with (_ | bare) | _ | _
    · exact absurd houter (by simp [Goal.closed?])
    · obtain rfl := Option.some.inj houter
      obtain ⟨last, h⟩ := ih (by simp)
      exact ⟨last, h.skip (BraceRun.closing (Token.isPunct_iff.mpr ht)) rfl (by simp [Goal.braces]) rfl⟩
    · obtain ⟨kind, hkind⟩ := hahead rfl
      exact absurd (Or.inr ht) hkind.not_isBrace
    · exact absurd rfl hgoal
  | @skip goal t s rest c closing hgoal ht hsimple hheader hrest ih =>
    have hstatement : goal ≠ .statement := by
      rintro rfl
      obtain ⟨kind, hkind⟩ := hahead rfl
      exact hheader kind hkind
    obtain ⟨last, h⟩ := ih (fun hgoal => absurd hgoal hstatement)
    have hrun : BraceRun goal.level goal.level [t] :=
      BraceRun.plain (List.forall_mem_singleton.mpr (Token.not_isBrace_iff.mpr ht))
    exact ⟨last, h.skip hrun rfl (fun _ => rfl) rfl⟩
  | @simple goal x s rest c closing hgoal hx hrest ih =>
    obtain ⟨last, h⟩ := ih (by cases goal <;> simp [Goal.next])
    refine ⟨last, h.skip ?_ goal.braces_next (fun _ => goal.level_next) rfl⟩
    rw [Goal.level_next]
    exact hx.braceRun
  | @loop goal kind h s middle rest body c bodyClosing closing hgoal hh hbody hrest ihb ih =>
    exact ClosesAt.statement hh.braceRun rfl (ihb (by simp)) hrest
      (ih (by cases goal <;> simp [Goal.next])) rfl
  | @ifThen goal h s middle rest body c bodyClosing closing hgoal hh hbody helse hrest ihb ih =>
    exact ClosesAt.statement hh.braceRun rfl (ihb (by simp)) hrest
      (ih (by cases goal <;> simp [Goal.next])) rfl
  | @ifThenElse goal h e s s' middle rest body other c bodyClosing otherClosing closing hgoal hh hbody
      he hother hrest ihb iho ih =>
    -- the first block ends at its brace, since an `else` follows it
    obtain ⟨last, hfirst⟩ := ihb (by simp)
    have hback : BraceRun (goal.level + 1) goal.level (body.tokens ++ bodyClosing.toList) := by
      rcases hfirst.back rfl with hback | ⟨hnil, -⟩
      · exact hback
      · exact absurd hnil (by simp [ElseHead.tokens])
    have hrun := (hh.braceRun.append hback).append he.braceRun
    have hinner : e.goal = .statement → ∃ kind, Header.Ahead kind s' := by
      intro hstatement
      refine ⟨.conditional, he.header (Option.not_isSome_iff_eq_none.mp fun hbrace => ?_)⟩
      rw [ElseHead.goal, if_pos hbrace] at hstatement
      exact Goal.noConfusion hstatement
    refine ClosesAt.statement hrun e.level_goal (iho hinner) hrest
      (ih (by cases goal <;> simp [Goal.next])) ?_
    simp only [tokens, List.append_assoc]

end Code

/-- The run `inner` stands between the opening brace of a block and the tokens `behind` the block: no
    smaller part at its front closes more braces than it opens, but the run does, unless nothing stands
    behind it. -/
structure EndsBlock (inner behind : List Token) : Prop where
  stays : ∀ front, front <+: inner → front ≠ inner → closeBraces front ≤ openBraces front
  ends : closeBraces inner = openBraces inner + 1 ∨
    behind = [] ∧ closeBraces inner ≤ openBraces inner

/-- **A block ends at the first brace that closes more than was opened behind its own brace**, or with
    the tokens. -/
theorem Code.Reads.endsBlock {s rest : List Token} {c : Code} {closing : Option Token}
    (h : Reads (.block 0) s c closing rest) : EndsBlock (c.tokens ++ closing.toList) rest := by
  obtain ⟨last, hrun, hclosed, hreached⟩ := h.ends (fun hgoal => Goal.noConfusion hgoal)
  have hstays : ∀ front, front <+: c.tokens → closeBraces front ≤ openBraces front := by
    intro front hfront
    have := hrun.stays front hfront
    rwa [Goal.level, Nat.zero_add] at this
  have hends := hrun.ends
  rw [Goal.level, Nat.zero_add] at hends
  cases closing with
  | none =>
    rw [Option.toList_none, List.append_nil]
    refine ⟨fun front hfront _ => hstays front hfront, Or.inr ⟨?_, by omega⟩⟩
    rcases hreached rfl with hrest | ⟨-, hbraces⟩
    · exact hrest
    · exact absurd hbraces Nat.one_ne_zero
  | some t =>
    obtain ⟨ht, rfl, -⟩ := hclosed t rfl
    constructor
    · intro front hfront hne
      refine hstays front ?_
      rcases List.prefix_concat_iff.mp hfront with hall | hin
      · exact absurd hall hne
      · exact hin
    · rw [openBraces_append, closeBraces_append, Option.toList_some, openBraces_closing ht,
        closeBraces_closing ht]
      omega

end BraceLang
