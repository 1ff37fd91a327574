import BraceLang.Proofs.Reading.Gaps
import BraceLang.Proofs.Reading.Pauses
import BraceLang.Proofs.Tree.Bare

/-!
# `Proofs.Reading.Noise` — noise between statements

A token of the kind `error` belongs to no statement, so in a gap, where a block goes on to its next
statement, such a token is skipped. In front of the gap stands a semicolon or a brace, so in what is read
before it everything begins where it has begun without the noise.

The noise is not always read where its gap is: behind the one statement that an `else` asks for it is left
to the code behind that statement. So each lemma about a part says what is left of the tokens, which is
what was left before or that with the noise.

## Contents
- `Code.ReadsLike`, code that is read like other code, one lemma for each statement.
- `Code.Reads.pass`, noise behind some code, and **`Code.Reads.absorb`**, noise in its gaps.
- `Function.Reads.pass`, `Function.Reads.absorb`, `Program.Reads.absorb` and **`Program.read_noise`**.
-/

namespace BraceLang

variable {e t : Token} {u v s rest : List Token}

/-! ## Gaps -/

theorem Concluded.pauses {run : List Token} (h : Concluded run) : Pauses run := by
  intro t ht
  obtain ⟨u, hu, hword⟩ := h
  obtain rfl := Option.some.inj (hu.symm.trans ht)
  exact hword.symm.imp_right .inr

/-- A gap stands in the text, behind a semicolon or a brace if not at its end. -/
theorem Label.HasGap.pauses {tokens : List Token} {l : Label} (h : l.HasGap tokens (some u)) :
    ∃ v, u ++ v = tokens ∧ (Pauses u ∨ v = []) := by
  have hbrace {run : List Token} {brace : Token} (h : brace.word = .mark "\x7b") :
      Pauses (run ++ [brace]) := by
    intro t ht
    rw [List.getLast?_concat] at ht
    obtain rfl := Option.some.inj ht
    exact .inr (.inl h)
  generalize hg : some u = g at h
  cases h with
  | @statement front part behind _ _ _ htokens _ _ _ hend =>
    obtain rfl := Option.some.inj hg
    refine ⟨behind, (List.append_assoc _ _ _).trans htokens, ?_⟩
    by_cases hbehind : behind = []
    · exact .inr hbehind
    · exact .inl ((hend hbehind).behind front).pauses
  | @block front behind brace _ _ hword htokens =>
    obtain rfl := Option.some.inj hg
    exact ⟨behind, (List.append_assoc _ _ _).trans htokens, .inl (hbrace hword)⟩
  | @branch front behind keyword brace _ _ _ hword htokens =>
    obtain rfl := Option.some.inj hg
    refine ⟨behind, (List.append_assoc _ _ _).trans htokens, .inl ?_⟩
    have hpauses := @hbrace (front ++ [keyword]) brace hword
    rwa [List.append_assoc] at hpauses
  | chain => exact absurd hg (Option.some_ne_none u)

namespace Gap

variable {header branch part : List Token} {brace : Option Token} {inner others behind : List Gap}

theorem some_mem_map_behind {gaps : List Gap} {run : List Token} :
    some u ∈ gaps.map (Gap.behind run) ↔ ∃ front, some front ∈ gaps ∧ run ++ front = u := by
  simp [Gap.behind, Option.map_eq_some_iff]

/-- A gap of something with an own gap is that one or one in what comes behind. -/
theorem mem_own {part : List Token} {behind : List Gap}
    (h : some u ∈ some part :: behind.map (Gap.behind part)) :
    ∃ front, u = part ++ front ∧ (front = [] ∨ some front ∈ behind) := by
  rcases List.mem_cons.mp h with heq | hbehind
  · exact ⟨[], (Option.some.inj heq).trans (List.append_nil _).symm, .inl rfl⟩
  · obtain ⟨front, hin, rfl⟩ := some_mem_map_behind.mp hbehind
    exact ⟨front, rfl, .inr hin⟩

/-- A gap in a statement with one block is in the block or behind the statement. -/
theorem mem_oneBlock (h : some u ∈ some part :: some header ::
      (inner.map (Gap.behind header) ++ behind.map (Gap.behind part))) :
    (∃ front, u = header ++ front ∧ (front = [] ∨ some front ∈ inner)) ∨
      ∃ front, u = part ++ front ∧ (front = [] ∨ some front ∈ behind) := by
  simp only [List.mem_cons, List.mem_append, Option.some.injEq, some_mem_map_behind] at h
  rcases h with rfl | rfl | ⟨front, hin, rfl⟩ | ⟨front, hin, rfl⟩
  · exact .inr ⟨[], (List.append_nil _).symm, .inl rfl⟩
  · exact .inl ⟨[], (List.append_nil _).symm, .inl rfl⟩
  · exact .inl ⟨front, rfl, .inr hin⟩
  · exact .inr ⟨front, rfl, .inr hin⟩

/-- A gap in a statement with two blocks is in one of them or behind the statement. -/
theorem mem_twoBlocks (h : some u ∈ some part :: some header :: (inner.map (Gap.behind header) ++
      brace.map (fun _ => branch) :: (others.map (Gap.behind branch) ++ behind.map (Gap.behind part)))) :
    (∃ front, u = header ++ front ∧ (front = [] ∨ some front ∈ inner)) ∨
      (∃ front, u = branch ++ front ∧ (front = [] ∧ brace ≠ none ∨ some front ∈ others)) ∨
        ∃ front, u = part ++ front ∧ (front = [] ∨ some front ∈ behind) := by
  simp only [List.mem_cons, List.mem_append, Option.some.injEq, some_mem_map_behind,
    eq_comm (a := some u), Option.map_eq_some_iff] at h
  rcases h with rfl | rfl | ⟨front, hin, rfl⟩ | ⟨b, rfl, rfl⟩ | ⟨front, hin, rfl⟩ | ⟨front, hin, rfl⟩
  · exact .inr (.inr ⟨[], (List.append_nil _).symm, .inl rfl⟩)
  · exact .inl ⟨[], (List.append_nil _).symm, .inl rfl⟩
  · exact .inl ⟨front, rfl, .inr hin⟩
  · exact .inr (.inl ⟨[], (List.append_nil _).symm, .inl ⟨rfl, nofun⟩⟩)
  · exact .inr (.inl ⟨front, rfl, .inr hin⟩)
  · exact .inr (.inr ⟨front, rfl, .inr hin⟩)

end Gap

/-! ## Code -/

namespace Code

variable {goal : Goal} {s' middle middle' left : List Token} {c c' body body' other other' : Code}
  {closing bodyClosing otherClosing : Option Token} {kind : LoopKind} {h : Header} {head : ElseHead}

/-! The labels of statements with blocks do not depend on their blocks but for their places. -/

theorem bare_loop (hbody : body'.outline.bare = body.outline.bare)
    (hc : c'.outline.bare = c.outline.bare) :
    (loop kind h body' bodyClosing c').outline.bare = (loop kind h body bodyClosing c).outline.bare := by
  simp only [outline, Forest.single, Outline.bare_node, hbody, hc]
  rfl

theorem bare_ifThen (hbody : body'.outline.bare = body.outline.bare)
    (hc : c'.outline.bare = c.outline.bare) :
    (ifThen h body' bodyClosing c').outline.bare = (ifThen h body bodyClosing c).outline.bare := by
  simp only [outline, Forest.single, Outline.bare_node, hbody, hc]
  rfl

theorem bare_ifThenElse (hbody : body'.outline.bare = body.outline.bare)
    (hother : other'.outline.bare = other.outline.bare) (hc : c'.outline.bare = c.outline.bare) :
    (ifThenElse h body' bodyClosing head other' otherClosing c').outline.bare =
      (ifThenElse h body bodyClosing head other otherClosing c).outline.bare := by
  simp only [outline, Forest.single, Outline.bare_node, hbody, hother, hc]
  rfl

/-- Reading the tokens `s` gives the code `c` but for the places of its nodes and for tokens that belong to
    nothing. What is left is `rest`, or possibly `left`. -/
def ReadsLike (goal : Goal) (s : List Token) (c : Code) (closing : Option Token)
    (rest left : List Token) : Prop :=
  ∃ c' rest', Reads goal s c' closing rest' ∧ c'.outline.bare = c.outline.bare ∧
    (rest' = rest ∨ rest' = left)

theorem Reads.readsLike (h : Reads goal s c closing rest) : ReadsLike goal s c closing rest left :=
  ⟨c, rest, h, rfl, .inl rfl⟩

namespace ReadsLike

theorem skip (hrest : ReadsLike goal s c closing rest left) {outer : Goal}
    (hskip : ∀ c' rest', Reads goal s c' closing rest' → Reads outer (t :: s) (.skip t c') closing rest') :
    ReadsLike outer (t :: s) (.skip t c) closing rest left := by
  obtain ⟨c', rest', hc', hbare, hleft⟩ := hrest
  exact ⟨_, rest', hskip c' rest' hc', hbare, hleft⟩

theorem simple {x : Simple} (hgoal : goal ≠ .nothing) (hx : x.Proper)
    (hrest : ReadsLike goal.next s c closing rest left) :
    ReadsLike goal (x.tokens ++ s) (.simple x c) closing rest left := by
  obtain ⟨c', rest', hc', hbare, hleft⟩ := hrest
  refine ⟨_, rest', .simple hgoal hx hc', ?_, hleft⟩
  rw [outline, Outline.bare_node, hbare]
  rfl

/-! Behind a block that is read like another one comes what came behind that one, or what is left instead. -/

theorem loop (hgoal : goal ≠ .nothing) (hh : h.Proper (.loop kind))
    (hbody : ReadsLike (.block 0) s body bodyClosing middle middle')
    (hrest : Reads goal.next middle c closing rest)
    (hrest' : ReadsLike goal.next middle' c closing rest left) :
    ReadsLike goal (h.tokens ++ s) (.loop kind h body bodyClosing c) closing rest left := by
  obtain ⟨body', between, hbody', hbare, rfl | rfl⟩ := hbody
  · exact ⟨_, rest, .loop hgoal hh hbody' hrest, bare_loop hbare rfl, .inl rfl⟩
  · obtain ⟨c', rest', hc', hbare', hleft⟩ := hrest'
    exact ⟨_, rest', .loop hgoal hh hbody' hc', bare_loop hbare hbare', hleft⟩

theorem ifThen (hgoal : goal ≠ .nothing) (hh : h.Proper .conditional)
    (hbody : ReadsLike (.block 0) s body bodyClosing middle middle')
    (helse : ¬ ElseHead.Ahead middle) (helse' : ¬ ElseHead.Ahead middle')
    (hrest : Reads goal.next middle c closing rest)
    (hrest' : ReadsLike goal.next middle' c closing rest left) :
    ReadsLike goal (h.tokens ++ s) (.ifThen h body bodyClosing c) closing rest left := by
  obtain ⟨body', between, hbody', hbare, rfl | rfl⟩ := hbody
  · exact ⟨_, rest, .ifThen hgoal hh hbody' helse hrest, bare_ifThen hbare rfl, .inl rfl⟩
  · obtain ⟨c', rest', hc', hbare', hleft⟩ := hrest'
    exact ⟨_, rest', .ifThen hgoal hh hbody' helse' hc', bare_ifThen hbare hbare', hleft⟩

theorem ifThenElse {inner inner' : List Token} (hgoal : goal ≠ .nothing) (hh : h.Proper .conditional)
    (hbody : ReadsLike (.block 0) s body bodyClosing (head.tokens ++ inner) (head.tokens ++ inner'))
    (hhead : head.Proper inner) (hhead' : head.Proper inner')
    (hother : Reads head.goal inner other otherClosing middle)
    (hother' : ReadsLike head.goal inner' other otherClosing middle middle')
    (hrest : Reads goal.next middle c closing rest)
    (hrest' : ReadsLike goal.next middle' c closing rest left) :
    ReadsLike goal (h.tokens ++ s) (.ifThenElse h body bodyClosing head other otherClosing c) closing
      rest left := by
  obtain ⟨body', between, hbody', hbare, rfl | rfl⟩ := hbody
  · exact ⟨_, rest, .ifThenElse hgoal hh hbody' hhead hother hrest, bare_ifThenElse hbare rfl rfl, .inl rfl⟩
  obtain ⟨other', between', ho', hbare', rfl | rfl⟩ := hother'
  · exact ⟨_, rest, .ifThenElse hgoal hh hbody' hhead' ho' hrest, bare_ifThenElse hbare hbare' rfl, .inl rfl⟩
  · obtain ⟨c', rest', hc', hbare'', hleft⟩ := hrest'
    exact ⟨_, rest', .ifThenElse hgoal hh hbody' hhead' ho' hc', bare_ifThenElse hbare hbare' hbare'', hleft⟩

end ReadsLike

/-- Noise at the front of code is skipped if anything is read at all. -/
theorem Reads.readsLike_cons (h : Reads goal s c closing rest) (he : e.kind = .error)
    (hleft : goal.braces = 0 → left = e :: rest) : ReadsLike goal (e :: s) c closing rest left := by
  by_cases hgoal : goal = .nothing
  · subst hgoal
    obtain ⟨rfl, rfl, rfl⟩ := h.of_nothing
    exact ⟨.done, _, .nothing, rfl, .inr (hleft rfl).symm⟩
  · exact ⟨.skip e c, rest, .skip hgoal (Word.not_isBrace_of_kind (Word.ne_punctuation he))
      (fun hahead => hahead.first_ne he) (fun kind hahead => hahead.first_ne he) h, rfl, .inl rfl⟩

/-- An `else` with another `if` is one as long as the header of the `if` is there: with all of the code of
    the `else`, or with that up to a gap. -/
theorem Reads.proper_append (h : Reads head.goal s c closing rest) (hhead : head.Proper s)
    {front : List Token} (hfront : front = c.tokens ∨ some front ∈ c.gaps) (more : List Token) :
    head.Proper (front ++ more) := by
  refine ⟨hhead.keyword, hhead.brace, fun hnone => ?_⟩
  have hahead := hhead.header hnone
  have hgoal : head.goal = .statement := by rw [ElseHead.goal, hnone]; rfl
  rw [hgoal] at h
  suffices ∃ h : Header, h.Proper .conditional ∧ ∃ inner, front = h.tokens ++ inner by
    obtain ⟨h, hh, inner, rfl⟩ := this
    exact ⟨h, inner ++ more, hh, (List.append_assoc _ _ _).symm⟩
  cases h with
  | atEnd =>
    obtain ⟨h, rest, -, htokens⟩ := hahead
    exact absurd htokens (by simp [Header.tokens])
  | close hgoal => exact absurd hgoal (by simp [Goal.closed?])
  | opened _ ht => exact absurd (.inl ht) hahead.not_isBrace
  | closed _ _ ht => exact absurd (.inr ht) hahead.not_isBrace
  | skip _ _ _ hheader => exact absurd hahead (hheader .conditional)
  | simple _ hx => exact absurd ⟨_, _, hx, rfl⟩ hahead.not_simple
  | loop _ hh =>
    -- a header is of one kind only
    obtain ⟨g, tail, hg, htokens⟩ := hahead
    have hread := Header.readAny?_eq_some_iff.mpr ⟨hg, htokens⟩
    rw [Header.readAny?_eq_some_iff.mpr ⟨hh, rfl⟩] at hread
    exact HeaderKind.noConfusion (Prod.mk.inj (Option.some.inj hread)).1
  | @ifThen _ h _ _ _ _ _ _ _ _ hh =>
    refine ⟨h, hh, ?_⟩
    rcases hfront with rfl | hgap
    · exact ⟨_, rfl⟩
    · rcases Gap.mem_oneBlock hgap with ⟨inner, rfl, -⟩ | ⟨inner, rfl, -⟩
      · exact ⟨inner, rfl⟩
      · exact ⟨_, List.append_assoc _ _ _⟩
  | @ifThenElse _ h _ _ _ _ _ _ _ _ _ _ _ _ hh =>
    refine ⟨h, hh, ?_⟩
    rcases hfront with rfl | hgap
    · exact ⟨_, rfl⟩
    · rcases Gap.mem_twoBlocks hgap with ⟨inner, rfl, -⟩ | ⟨inner, rfl, -⟩ | ⟨inner, rfl, -⟩
      · exact ⟨inner, rfl⟩
      · exact ⟨_, List.append_assoc _ _ _⟩
      · exact ⟨_, by rw [List.append_assoc, List.append_assoc]⟩

theorem Reads.append_eq (h : Reads goal s c closing rest) (hrest : u ++ v = rest) :
    c.tokens ++ (closing.toList ++ u) ++ v = s := by
  simp only [← h.tokens_eq, ← hrest, List.append_assoc]

/-- **Noise behind some code is left, or belongs to nothing in it.** It stands behind what is left up to
    it, in a gap. -/
theorem Reads.pass (h : Reads goal s c closing rest) (he : e.kind = .error) (hrest : u ++ v = rest)
    (hpause : Pauses (c.tokens ++ (closing.toList ++ u)) ∨ v = []) :
    ReadsLike goal (c.tokens ++ (closing.toList ++ u) ++ e :: v) c closing rest (u ++ e :: v) := by
  -- what is left behind a block begins with the rest of the code, so `u` grows on the way into blocks
  induction h generalizing u v with
  | nothing => exact ⟨.done, _, .nothing, rfl, .inr rfl⟩
  | atEnd =>
    obtain ⟨rfl, rfl⟩ := List.append_eq_nil_iff.mp hrest
    exact Reads.atEnd.readsLike_cons he fun _ => rfl
  | close hgoal ht => exact ⟨.done, _, .close hgoal ht, rfl, .inr rfl⟩
  | @opened _ t _ _ _ _ hgoal ht _ ih =>
    exact (ih hrest (hpause.imp_left (@Pauses.of_append _ [t]))).skip fun _ _ hc => .opened hgoal ht hc
  | @closed _ _ t _ _ _ _ hgoal houter ht _ ih =>
    exact (ih hrest (hpause.imp_left (@Pauses.of_append _ [t]))).skip
      fun _ _ hc => .closed hgoal houter ht hc
  | @skip _ t s rest c closing hgoal ht hsimple hheader h ih =>
    have htokens : (t :: (c.tokens ++ (closing.toList ++ u))) ++ v = t :: s :=
      congrArg (t :: ·) (h.append_eq hrest)
    refine (ih hrest (hpause.imp_left (@Pauses.of_append _ [t]))).skip fun _ _ hc =>
      .skip hgoal ht (fun hahead => ?_) (fun kind hahead => ?_) hc
    · exact hsimple (htokens ▸ Simple.Ahead.without hahead he hpause)
    · exact hheader kind (htokens ▸ Header.Ahead.without hahead he hpause)
  | @simple _ x _ _ _ _ hgoal hx _ ih =>
    rw [tokens, List.append_assoc] at hpause
    have hall := ReadsLike.simple hgoal hx (ih hrest (hpause.imp_left Pauses.of_append))
    simpa only [tokens, List.append_assoc] using hall
  | loop hgoal hh _ hc ihb ih =>
    simp only [tokens, List.append_assoc] at hpause
    have hinner := hpause.imp_left Pauses.of_append
    have hbehind := hinner.imp_left fun hp => hp.of_append.of_append
    have hall := ReadsLike.loop hgoal hh (ihb (hc.append_eq hrest) hinner) hc (ih hrest hbehind)
    simpa only [tokens, List.append_assoc] using hall
  | ifThen hgoal hh _ helse hc ihb ih =>
    simp only [tokens, List.append_assoc] at hpause
    have hinner := hpause.imp_left Pauses.of_append
    have hbehind := hinner.imp_left fun hp => hp.of_append.of_append
    have hmiddle := hc.append_eq hrest
    have hall := ReadsLike.ifThen hgoal hh (ihb hmiddle hinner) helse
      (fun hahead => helse (hmiddle ▸ hahead.without he hbehind)) hc (ih hrest hbehind)
    simpa only [tokens, List.append_assoc] using hall
  | @ifThenElse _ _ head _ _ _ _ _ _ _ _ _ _ hgoal hh _ hhead hother hc ihb iho ih =>
    simp only [tokens, List.append_assoc] at hpause
    have hinner := hpause.imp_left Pauses.of_append
    have hbranch := hinner.imp_left fun hp => hp.of_append.of_append.of_append
    have hbehind := hbranch.imp_left fun hp => hp.of_append.of_append
    have hmiddle := hc.append_eq hrest
    have hbody' := ihb ((List.append_assoc head.tokens _ _).trans
      (congrArg (head.tokens ++ ·) (hother.append_eq hmiddle))) hinner
    rw [List.append_assoc head.tokens] at hbody'
    have hall := ReadsLike.ifThenElse hgoal hh hbody' hhead
      (by rw [List.append_assoc]; exact hother.proper_append hhead (.inl rfl) _) hother
      (iho hmiddle hbranch) hc (ih hrest hbehind)
    simpa only [tokens, List.append_assoc] using hall

theorem Goal.braces_opened (goal : Goal) : goal.opened.braces = goal.braces := by
  cases goal <;> rfl

theorem Goal.braces_closed {outer : Goal} (h : goal.closed? = some outer) : outer.braces = goal.braces := by
  cases goal with
  | block bare =>
    cases bare with
    | zero => exact absurd h (by simp [closed?])
    | succ bare =>
      obtain rfl := Option.some.inj h
      rfl
  | statement | nothing =>
    obtain rfl := Option.some.inj h
    rfl

/-- At the front of code noise is skipped, so it has to be followed only from there on. -/
theorem Reads.readsLike_of_front (h : Reads goal s c closing rest) (he : e.kind = .error)
    (hleft : goal.braces = 0 → left = e :: rest) (hs : u ++ v = s)
    (hfront : u = [] ∨ ReadsLike goal (u ++ e :: v) c closing rest left) :
    ReadsLike goal (u ++ e :: v) c closing rest left := by
  rcases hfront with rfl | hin
  · obtain rfl : v = s := hs
    exact h.readsLike_cons he hleft
  · exact hin

/-- Noise in a gap of a statement with one block, once it is known what it comes to in the block and behind
    the statement. -/
theorem Reads.absorb_oneBlock (hbody : Reads (.block 0) s body bodyClosing middle)
    (hc : Reads goal middle c closing rest) (he : e.kind = .error)
    (hgap : some u ∈ some (h.tokens ++ (body.tokens ++ bodyClosing.toList)) :: some h.tokens ::
      (body.gaps.map (Gap.behind h.tokens) ++
        c.gaps.map (Gap.behind (h.tokens ++ (body.tokens ++ bodyClosing.toList)))))
    (hs : u ++ v = h.tokens ++ s) (hpause : Pauses u ∨ v = [])
    (hleft : goal.braces = 0 → left = e :: rest)
    (hinner : ∀ front, some front ∈ body.gaps → front ++ v = s → Pauses front ∨ v = [] →
      ReadsLike (.block 0) (front ++ e :: v) body bodyClosing middle middle)
    (hbehind : ∀ front, some front ∈ c.gaps → front ++ v = middle → Pauses front ∨ v = [] →
      ReadsLike goal (front ++ e :: v) c closing rest left) :
    ∃ s' middle', h.tokens ++ s' = u ++ e :: v ∧ ReadsLike (.block 0) s' body bodyClosing middle middle' ∧
      ReadsLike goal middle' c closing rest left ∧ (ElseHead.Ahead middle' → ElseHead.Ahead middle) := by
  rcases Gap.mem_oneBlock hgap with ⟨front, rfl, hin⟩ | ⟨front, rfl, hin⟩
  · rw [List.append_assoc, List.append_cancel_left_eq] at hs
    refine ⟨front ++ e :: v, middle, (List.append_assoc _ _ _).symm, ?_, hc.readsLike, id⟩
    exact hbody.readsLike_of_front he nofun hs
      (hin.imp_right fun hin => hinner front hin hs (hpause.imp_left Pauses.of_append))
  · rw [← hbody.tokens_eq, List.append_assoc, List.append_assoc, List.append_assoc,
      List.append_cancel_left_eq, List.append_cancel_left_eq, List.append_cancel_left_eq] at hs
    have hpause' := hpause.imp_left Pauses.of_append
    rw [List.append_assoc, List.append_assoc] at hpause
    refine ⟨body.tokens ++ (bodyClosing.toList ++ front) ++ e :: v, front ++ e :: v, by simp,
      hbody.pass he hs (hpause.imp_left Pauses.of_append), ?_, ?_⟩
    · exact hc.readsLike_of_front he hleft hs (hin.imp_right fun hin => hbehind front hin hs hpause')
    · exact fun hahead => hs ▸ hahead.without he hpause'

/-- Noise in a gap of a statement with two blocks, once it is known what it comes to in each of them and
    behind the statement. -/
theorem Reads.absorb_twoBlocks {inner : List Token}
    (hbody : Reads (.block 0) s body bodyClosing (head.tokens ++ inner)) (hhead : head.Proper inner)
    (hother : Reads head.goal inner other otherClosing middle) (hc : Reads goal middle c closing rest)
    (he : e.kind = .error)
    (hgap : some u ∈ (Code.ifThenElse h body bodyClosing head other otherClosing c).gaps)
    (hs : u ++ v = h.tokens ++ s) (hpause : Pauses u ∨ v = [])
    (hleft : goal.braces = 0 → left = e :: rest)
    (hinner : ∀ front, some front ∈ body.gaps → front ++ v = s → Pauses front ∨ v = [] →
      ReadsLike (.block 0) (front ++ e :: v) body bodyClosing (head.tokens ++ inner) (head.tokens ++ inner))
    (helse : ∀ front, some front ∈ other.gaps → front ++ v = inner → Pauses front ∨ v = [] →
      ReadsLike head.goal (front ++ e :: v) other otherClosing middle (e :: middle))
    (hbehind : ∀ front, some front ∈ c.gaps → front ++ v = middle → Pauses front ∨ v = [] →
      ReadsLike goal (front ++ e :: v) c closing rest left) :
    ∃ s' inner' middle', h.tokens ++ s' = u ++ e :: v ∧
      ReadsLike (.block 0) s' body bodyClosing (head.tokens ++ inner) (head.tokens ++ inner') ∧
      head.Proper inner' ∧ ReadsLike head.goal inner' other otherClosing middle middle' ∧
      ReadsLike goal middle' c closing rest left := by
  rcases Gap.mem_twoBlocks hgap with ⟨front, rfl, hin⟩ | ⟨front, rfl, hin⟩ | ⟨front, rfl, hin⟩
  · -- in the first block
    rw [List.append_assoc, List.append_cancel_left_eq] at hs
    refine ⟨front ++ e :: v, inner, middle, (List.append_assoc _ _ _).symm, ?_, hhead, hother.readsLike,
      hc.readsLike⟩
    exact hbody.readsLike_of_front he nofun hs
      (hin.imp_right fun hin => hinner front hin hs (hpause.imp_left Pauses.of_append))
  · -- in the `else`
    simp only [← hbody.tokens_eq, List.append_assoc, List.append_cancel_left_eq] at hs
    have hpause' := hpause.imp_left Pauses.of_append
    simp only [List.append_assoc] at hpause
    have hbody' := hbody.pass (u := head.tokens ++ front) (v := v) he
      (by rw [List.append_assoc, hs]) (hpause.imp_left Pauses.of_append)
    rw [List.append_assoc head.tokens] at hbody'
    refine ⟨_, front ++ e :: v, e :: middle, by simp only [List.append_assoc], hbody', ?_, ?_,
      hc.readsLike_cons he hleft⟩
    · rcases hin with ⟨rfl, hbrace⟩ | hin
      · exact ⟨hhead.keyword, hhead.brace, fun hnone => absurd hnone hbrace⟩
      · exact hother.proper_append hhead (.inr hin) _
    · exact hother.readsLike_of_front he (fun _ => rfl) hs
        (hin.imp And.left fun hin => helse front hin hs hpause')
  · -- behind the statement
    simp only [← hbody.tokens_eq, ← hother.tokens_eq, List.append_assoc,
      List.append_cancel_left_eq] at hs
    have hpause' := hpause.imp_left Pauses.of_append
    simp only [List.append_assoc] at hpause
    have hinside := hpause.imp_left Pauses.of_append
    have hbranch := hinside.imp_left fun hp => hp.of_append.of_append.of_append
    have hbody' := hbody.pass (u := head.tokens ++ (other.tokens ++ (otherClosing.toList ++ front)))
      (v := v) he (by simp only [← hother.tokens_eq, ← hs, List.append_assoc]) hinside
    rw [List.append_assoc head.tokens] at hbody'
    refine ⟨_, _, front ++ e :: v, by simp only [List.append_assoc], hbody', ?_, hother.pass he hs hbranch,
      hc.readsLike_of_front he hleft hs (hin.imp_right fun hin => hbehind front hin hs hpause')⟩
    rw [List.append_assoc]
    exact hother.proper_append hhead (.inl rfl) _

/-- **Noise in a gap of some code belongs to nothing in it**, unless it stands behind the one statement that
    was asked for: then it is left. -/
theorem Reads.absorb (h : Reads goal s c closing rest) (he : e.kind = .error) (hgap : some u ∈ c.gaps)
    (hs : u ++ v = s) (hpause : Pauses u ∨ v = []) (hleft : goal.braces = 0 → left = e :: rest) :
    ReadsLike goal (u ++ e :: v) c closing rest left := by
  induction h generalizing u v left with
  | nothing | atEnd | close => exact absurd hgap List.not_mem_nil
  | @opened goal t _ _ _ _ hgoal ht _ ih =>
    obtain ⟨front, hin, rfl⟩ := Gap.some_mem_map_behind.mp hgap
    exact (ih hin (List.cons.inj hs).2 (hpause.imp_left (@Pauses.of_append _ [t]))
      (goal.braces_opened ▸ hleft)).skip fun _ _ hc => .opened hgoal ht hc
  | @closed goal outer t _ _ _ _ hgoal houter ht _ ih =>
    obtain ⟨front, hin, rfl⟩ := Gap.some_mem_map_behind.mp hgap
    exact (ih hin (List.cons.inj hs).2 (hpause.imp_left (@Pauses.of_append _ [t]))
      (Goal.braces_closed houter ▸ hleft)).skip fun _ _ hc => .closed hgoal houter ht hc
  | @skip _ t s rest c closing hgoal ht hsimple hheader h ih =>
    obtain ⟨front, hin, rfl⟩ := Gap.some_mem_map_behind.mp hgap
    refine (ih hin (List.cons.inj hs).2 (hpause.imp_left (@Pauses.of_append _ [t])) hleft).skip
      fun _ _ hc => .skip hgoal ht (fun hahead => ?_) (fun kind hahead => ?_) hc
    · exact hsimple (hs ▸ Simple.Ahead.without hahead he hpause)
    · exact hheader kind (hs ▸ Header.Ahead.without hahead he hpause)
  | simple hgoal hx hc ih =>
    obtain ⟨front, rfl, hin⟩ := Gap.mem_own hgap
    rw [List.append_assoc, List.append_cancel_left_eq] at hs
    rw [List.append_assoc]
    rw [← Goal.braces_next] at hleft
    exact .simple hgoal hx (hc.readsLike_of_front he hleft hs (hin.imp_right fun hin =>
      ih hin hs (hpause.imp_left Pauses.of_append) hleft))
  | loop hgoal hh hbody hc ihb ih =>
    rw [← Goal.braces_next] at hleft
    obtain ⟨s', middle', htokens, hbody', hrest', -⟩ := hbody.absorb_oneBlock hc he hgap hs hpause hleft
      (fun front hin hs hpause => ihb hin hs hpause nofun) fun front hin hs hpause => ih hin hs hpause hleft
    rw [← htokens]
    exact .loop hgoal hh hbody' hc hrest'
  | ifThen hgoal hh hbody helse hc ihb ih =>
    rw [← Goal.braces_next] at hleft
    obtain ⟨s', middle', htokens, hbody', hrest', helse'⟩ := hbody.absorb_oneBlock hc he hgap hs hpause hleft
      (fun front hin hs hpause => ihb hin hs hpause nofun) fun front hin hs hpause => ih hin hs hpause hleft
    rw [← htokens]
    exact .ifThen hgoal hh hbody' helse (fun hahead => helse (helse' hahead)) hc hrest'
  | ifThenElse hgoal hh hbody hhead hother hc ihb iho ih =>
    rw [← Goal.braces_next] at hleft
    obtain ⟨s', inner', middle', htokens, hbody', hhead', hother', hrest'⟩ :=
      hbody.absorb_twoBlocks hhead hother hc he hgap hs hpause hleft
        (fun front hin hs hpause => ihb hin hs hpause nofun)
        (fun front hin hs hpause => iho hin hs hpause fun _ => rfl)
        fun front hin hs hpause => ih hin hs hpause hleft
    rw [← htokens]
    exact .ifThenElse hgoal hh hbody' hhead hhead' hother hother' hc hrest'

end Code

/-! ## Functions and programs -/

namespace ParameterList

variable {depth : Nat}

/-- Nothing is left behind a parameter list that is not closed. -/
theorem readItems_open (h : (readItems depth s).2.1 = none) : (readItems depth s).2.2 = [] := by
  fun_induction readItems depth s with
  | case1 | case7 => rfl
  | case3 => exact absurd h (Option.some_ne_none _)
  | case2 _ _ _ _ _ _ _ hread ih | case4 _ _ _ _ _ _ _ _ hread ih
  | case5 _ _ _ _ _ _ _ _ _ _ hread ih | case6 _ _ _ _ _ _ _ _ _ _ hread ih =>
    rw [hread] at ih
    exact ih h

end ParameterList

theorem Block.bare_outline {brace : Token} {c c' : Code} {closing : Option Token}
    (h : c'.outline.bare = c.outline.bare) :
    (Block.outline ⟨brace, c', closing⟩).bare = (Block.outline ⟨brace, c, closing⟩).bare := by
  simp only [Block.outline, Forest.single, Outline.bare_node, h]
  rfl

namespace Function

variable {f : Function}

/-- Reading a function that does not end within its parameters: what stands behind them can be exchanged. -/
theorem Reads.exists_tail (h : Reads s f rest) (hrest : f.body.isSome = true ∨ rest ≠ []) :
    ∃ tail, f.type :: f.name :: (f.parameters.tokens ++ tail) = s ∧
      ReadsTail tail f.body f.semicolon rest ∧ ∀ tail' body semicolon rest',
        ReadsTail tail' body semicolon rest' →
          Reads (f.type :: f.name :: (f.parameters.tokens ++ tail'))
            ⟨f.type, f.name, f.parameters, body, semicolon⟩ rest' := by
  have htokens := h.tokens_eq
  obtain ⟨hstart, htail⟩ := h
  rename_i type name opening s body semicolon
  have hitems := ParameterList.readItems_tokens 0 s
  cases hclosing : (ParameterList.readItems 0 s).2.1 with
  | none =>
    rw [ParameterList.readItems_open hclosing] at htail
    cases htail with
    | nothing => exact absurd rfl (hrest.resolve_left Bool.false_ne_true)
  | some closing =>
    have hparameters (more : List Token) : ParameterList.tokens ⟨opening,
        (ParameterList.readItems 0 s).1, some closing⟩ ++ more = opening ::
          ((ParameterList.readItems 0 s).1.flatMap ParameterItem.tokens ++ closing :: more) := by
      simp [ParameterList.tokens]
    rw [hclosing] at hitems
    refine ⟨_, ?_, htail, fun tail' body' semicolon' rest' htail' => ?_⟩
    · rw [hparameters]
      exact congrArg (type :: name :: opening :: ·) hitems
    · have hread := ParameterList.readItems_closed hclosing tail'
      rw [hparameters]
      have hfunction : Reads _ _ _ := .intro hstart (by rw [hread]; exact htail')
      rwa [hread] at hfunction

/-- The label of a function does not depend on its body but for its place. -/
theorem bare_outline_eq {body : Option Block} (semicolon : Option Token)
    (hbody : (body.map fun b => b.outline.bare) = f.body.map fun b => b.outline.bare) :
    (outline ⟨f.type, f.name, f.parameters, body, semicolon⟩).bare = f.outline.bare := by
  have hnode (g : Function) : g.outline.bare = .node (.plain .functionDeclaration (some g.name.text))
      (g.startOutline.bare ++ (g.body.map fun b => b.outline.bare).getD .nil) .nil := by
    rw [outline_eq, Forest.single, Outline.bare_node, Outline.bare_append, bodyOutline]
    cases g.body <;> rfl
  rw [hnode, hnode f, hbody]
  rfl

/-- Reading the tokens `s` gives the function but for the places of its nodes and for tokens that belong
    to nothing. What is left is `rest`, or possibly `left`. -/
def ReadsLike (s : List Token) (f : Function) (rest left : List Token) : Prop :=
  ∃ f' rest', Reads s f' rest' ∧ f'.outline.bare = f.outline.bare ∧ (rest' = rest ∨ rest' = left)

/-- Noise behind a function is left, or belongs to nothing in its body. -/
theorem ReadsTail.pass {body : Option Block} {semicolon : Option Token}
    (h : ReadsTail s body semicolon rest) (he : e.kind = .error) (hrest : u ++ v = rest)
    (hpause : Pauses ((body.map Block.tokens).getD [] ++ (semicolon.toList ++ u)) ∨ v = []) :
    ∃ body' rest', ReadsTail ((body.map Block.tokens).getD [] ++ (semicolon.toList ++ u) ++ e :: v) body'
      semicolon rest' ∧ ((body'.map fun b => b.outline.bare) = body.map fun b => b.outline.bare) ∧
        (rest' = rest ∨ rest' = u ++ e :: v) := by
  cases h with
  | @body t _ _ c closing ht hcode =>
    have htokens : (Block.tokens ⟨t, c, closing⟩) ++ u = t :: (c.tokens ++ (closing.toList ++ u)) := by
      simp [Block.tokens]
    simp only [Option.map_some, Option.getD_some, Option.toList_none, List.nil_append, htokens,
      List.cons_append] at hpause ⊢
    obtain ⟨c', rest', hc', hbare, hleft⟩ := hcode.pass he hrest (hpause.imp_left (@Pauses.of_append _ [t]))
    exact ⟨_, rest', .body ht hc', by rw [Option.map_some, Block.bare_outline hbare], hleft⟩
  | semicolon ht => exact ⟨none, _, .semicolon ht, rfl, .inr rfl⟩
  | nothing hs =>
    refine ⟨none, _, .nothing fun t ht => ?_, rfl, .inr rfl⟩
    simp only [Option.map_none, Option.getD_none, Option.toList_none, List.nil_append] at ht
    cases u with
    | nil =>
      obtain rfl := Option.some.inj ht
      exact ⟨Word.ne_mark_of_error he _, Word.ne_mark_of_error he _⟩
    | cons x u => exact hs t (by rw [← hrest]; exact ht)

/-- **Noise behind a function is left, or belongs to nothing in it.** -/
theorem Reads.pass (h : Reads s f rest) (he : e.kind = .error) (hrest : u ++ v = rest) (hne : rest ≠ [])
    (hpause : Pauses (f.tokens ++ u) ∨ v = []) :
    ReadsLike (f.tokens ++ u ++ e :: v) f rest (u ++ e :: v) := by
  obtain ⟨tail, -, htail, hread⟩ := h.exists_tail (.inr hne)
  have htokens : f.tokens ++ u = (f.type :: f.name :: f.parameters.tokens) ++
      ((f.body.map Block.tokens).getD [] ++ (f.semicolon.toList ++ u)) := by
    simp [tokens]
  rw [htokens] at hpause ⊢
  obtain ⟨body', rest', htail', hbare, hleft⟩ := htail.pass he hrest (hpause.imp_left Pauses.of_append)
  rw [List.append_assoc]
  exact ⟨_, rest', hread _ _ _ _ htail', bare_outline_eq f.semicolon hbare, hleft⟩

/-- **Noise in a gap of a function belongs to nothing in it.** -/
theorem Reads.absorb (h : Reads s f rest) (he : e.kind = .error) (hgap : some u ∈ f.gaps)
    (hs : u ++ v = s) (hpause : Pauses u ∨ v = []) : ReadsLike (u ++ e :: v) f rest rest := by
  rw [gaps] at hgap
  cases hb : f.body with
  | none =>
    rw [hb] at hgap
    exact absurd hgap List.not_mem_nil
  | some b =>
    rw [hb] at hgap
    obtain ⟨inner, hinner, hbrace, hcode⟩ := h.exists_block hb
    obtain ⟨front, rfl, hin⟩ := Gap.mem_own hgap
    rw [← hinner, List.append_assoc, List.append_cancel_left_eq] at hs
    have hblock {left : List Token} : (Code.Goal.block 0).braces = 0 → left = e :: rest :=
      fun h => absurd h Nat.one_ne_zero
    have hbody : Code.ReadsLike (.block 0) (front ++ e :: v) b.code b.closing rest rest :=
      hcode.readsLike_of_front he hblock hs
        (hin.imp_right fun hin => hcode.absorb he hin hs (hpause.imp_left Pauses.of_append) hblock)
    obtain ⟨c', rest', hc', hbare, hleft⟩ := hbody
    obtain ⟨-, -, -, hread⟩ := h.exists_tail (.inl (by rw [hb]; rfl))
    have hfunction := hread _ _ _ _ (.body hbrace hc')
    refine ⟨_, rest', by simpa using hfunction, bare_outline_eq none ?_, hleft⟩
    rw [hb, Option.map_some, Option.map_some, Block.bare_outline hbare]

end Function

namespace Program

variable {items items' : List ProgramItem} {f f' : Function}

theorem bare_function (hf : f'.outline.bare = f.outline.bare)
    (hitems : (functionsOutline items').bare = (functionsOutline items).bare) :
    (functionsOutline (.function f' :: items')).bare =
      (functionsOutline (.function f :: items)).bare := by
  show Outline.bare (f'.outline ++ functionsOutline items') =
    Outline.bare (f.outline ++ functionsOutline items)
  rw [Outline.bare_append, Outline.bare_append, hf, hitems]

theorem Reads.absorb (h : Reads s items) (he : e.kind = .error) (hgap : some u ∈ gapsOf items)
    (hs : u ++ v = s) (hpause : Pauses u ∨ v = []) : ∃ items', Reads (u ++ e :: v) items' ∧
      (functionsOutline items').bare = (functionsOutline items).bare := by
  induction h generalizing u v with
  | nil => exact absurd hgap List.not_mem_nil
  | @skipped t s items hnot _ ih =>
    obtain ⟨front, hin, rfl⟩ := Gap.some_mem_map_behind.mp hgap
    obtain ⟨items', hitems, hbare⟩ := ih hin (List.cons.inj hs).2
      (hpause.imp_left (@Pauses.of_append _ [t]))
    exact ⟨_, .skipped (fun hahead => hnot (hs ▸ Function.Ahead.without hahead he)) hitems, hbare⟩
  | @function s rest f items hf hitems ih =>
    rcases List.mem_append.mp hgap with hown | hbehind
    · obtain ⟨f', rest', hf', hbare, hrest⟩ := hf.absorb he hown hs hpause
      rw [or_self] at hrest
      subst hrest
      exact ⟨_, .function hf' hitems, bare_function hbare rfl⟩
    · obtain ⟨front, hin, rfl⟩ := Gap.some_mem_map_behind.mp hbehind
      rw [← hf.tokens_eq, List.append_assoc, List.append_cancel_left_eq] at hs
      have hne : rest ≠ [] := by
        rintro rfl
        cases hitems with
        | nil => exact absurd hin List.not_mem_nil
        | function hg => cases hg
      obtain ⟨f', rest', hf', hbare, rfl | rfl⟩ := hf.pass he hs hne hpause
      · exact ⟨_, .function hf' hitems, bare_function hbare rfl⟩
      · obtain ⟨items', hitems', hbare'⟩ := ih hin hs (hpause.imp_left Pauses.of_append)
        exact ⟨_, .function hf' hitems', bare_function hbare hbare'⟩

variable {tokens : List Token} {p : Program} {limit : Nat}

/-- **Noise between statements is invisible.** Wherever a statement or a block has a gap, one more token
    that says nothing is read under the same limit, to a tree with the same numbers, kinds, values and
    children. -/
theorem read_noise (h : read limit tokens = .ok p) :
    List.Forall₂ (fun n g => n.label.HasGap tokens g)
        (p.tree.nodes.toList.filter (·.label.kind.hasGap)) p.gaps ∧
      ∀ front, some front ∈ p.gaps → ∀ e : Token, e.kind = .error →
        ∃ p', read limit (front ++ e :: tokens.drop front.length) = .ok p' ∧
          p'.tree.bare = p.tree.bare := by
  have hgaps := forall₂_gaps h
  refine ⟨hgaps, fun front hfront e he => ?_⟩
  obtain ⟨n, -, hgap⟩ := forall₂_exists_left hgaps _ hfront
  obtain ⟨behind, rfl, hpause⟩ := hgap.pauses
  rw [List.drop_left]
  have hreads := reads_of_read h
  obtain ⟨items', hitems, hbare⟩ := hreads.absorb he hfront rfl hpause
  have houtline : (mk items').outline.bare = p.outline.bare := by
    show Forest.node _ (functionsOutline items').bare .nil = .node _ (functionsOutline p.items).bare .nil
    rw [hbare]
    rfl
  refine ⟨mk items', hitems.read_of_le ?_, ?_⟩
  · rw [← Outline.depth_bare, houtline, Outline.depth_bare]
    exact hreads.isOk_read_iff.mp (by rw [h]; rfl)
  · show (Tree.ofOutline (mk items').outline).bare = (Tree.ofOutline p.outline).bare
    rw [Tree.bare_ofOutline, Tree.bare_ofOutline, houtline]

/-- Statements of several kinds, in and behind one another, in a function that is not closed. -/
def nestedStatements : String :=
  "int f() \x7b if (a) \x7b x = (1; 2); \x7d else if (b) \x7b f(); \x7d else \x7b \x7d while (c) \x7b \x7d"

theorem read_noise_nested :
    ∃ p, read 4 (tokenize nestedStatements).tokens = .ok p ∧
      List.Forall₂ (fun n g => n.label.HasGap (tokenize nestedStatements).tokens g)
        (p.tree.nodes.toList.filter (·.label.kind.hasGap)) p.gaps ∧
      ∀ front, some front ∈ p.gaps → ∀ e : Token, e.kind = .error →
        ∃ p', read 4 (front ++ e :: (tokenize nestedStatements).tokens.drop front.length) = .ok p' ∧
          p'.tree.bare = p.tree.bare := by
  have hread : (read 4 (tokenize nestedStatements).tokens).toBool = true := by decide +kernel
  cases hp : read 4 (tokenize nestedStatements).tokens with
  | ok p => exact ⟨p, rfl, read_noise hp⟩
  | error failure => rw [hp] at hread; exact absurd hread Bool.false_ne_true

end Program

end BraceLang
