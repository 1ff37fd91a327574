import BraceLang.Proofs.Token.Balance
import BraceLang.Token.Cursor
import Mathlib.Data.List.Infix

/-!
# `Proofs.Token.Lookahead` — the tables of a cursor are exact

A cursor answers from two tables. Here both are compared with what they stand for, on any row of tokens.

The first pass keeps a stack of open parentheses. The one with the place `k` in the stack has `k` others
inside of it that are open as well, so the scan that looks for its partner from there on counts from the
depth `k`. That is all the stack has to say, and a brace empties it because no scan goes past a brace.

The second pass jumps over a pair. Inside of the pair the scan for the end only counts parentheses, and it
comes to the depth 0 again just behind the partner. Without a partner it never does, and runs up to the next
brace.

## Contents
- `PairsWith`, two parentheses with a balanced run between them: `PairsWith.apart_or_nested` and
  `PairsWith.injective`.
- `Pairing.getElem?_run_of_opened` and `Pairing.getElem?_run_of_not_mem`, and from these
  `getElem?_closers`.
- **`Cursor.matchingParens_exact`**.
- `expressionExtent_of_paren` and `expressionExtent_of_unclosed`; `Ends.Knows`, kept by `Knows.record`.
- **`Cursor.expressionEnds_exact`**.
-/

namespace BraceLang

/-! ## One token at the front of a scan -/

section FirstToken

variable {depth : Nat} {t : Token} {s : List Token}

theorem parenExtent?_brace (h : t.isBrace = true) : parenExtent? depth (t :: s) = none := by
  rw [parenExtent?.eq_def]
  exact if_pos h

theorem parenExtent?_opening (h : t.isPunct "(" = true) :
    parenExtent? depth (t :: s) = (parenExtent? (depth + 1) s).map (· + 1) := by
  rw [parenExtent?.eq_def]
  dsimp only
  rw [if_neg (Token.not_isBrace h (by decide) (by decide)), if_pos h]

theorem parenExtent?_closing_zero (h : t.isPunct ")" = true) :
    parenExtent? 0 (t :: s) = some 0 := by
  rw [parenExtent?.eq_def]
  dsimp only
  rw [if_neg (Token.not_isBrace h (by decide) (by decide)), if_neg (Token.not_isPunct h (by decide)),
    if_pos h]

theorem parenExtent?_closing_succ (h : t.isPunct ")" = true) :
    parenExtent? (depth + 1) (t :: s) = (parenExtent? depth s).map (· + 1) := by
  rw [parenExtent?.eq_def]
  dsimp only
  rw [if_neg (Token.not_isBrace h (by decide) (by decide)), if_neg (Token.not_isPunct h (by decide)),
    if_pos h]

theorem parenExtent?_other (hb : ¬ t.isBrace = true) (ho : ¬ t.isPunct "(" = true)
    (hc : ¬ t.isPunct ")" = true) :
    parenExtent? depth (t :: s) = (parenExtent? depth s).map (· + 1) := by
  rw [parenExtent?.eq_def]
  dsimp only
  rw [if_neg hb, if_neg ho, if_neg hc]

theorem expressionExtent_brace (h : t.isBrace = true) : expressionExtent depth (t :: s) = 0 := by
  rw [expressionExtent.eq_def]
  exact if_pos h

theorem expressionExtent_opening (h : t.isPunct "(" = true) :
    expressionExtent depth (t :: s) = expressionExtent (depth + 1) s + 1 := by
  rw [expressionExtent.eq_def]
  dsimp only
  rw [if_neg (Token.not_isBrace h (by decide) (by decide)), if_pos h]

theorem expressionExtent_closing_zero (h : t.isPunct ")" = true) :
    expressionExtent 0 (t :: s) = 0 := by
  rw [expressionExtent.eq_def]
  dsimp only
  rw [if_neg (Token.not_isBrace h (by decide) (by decide)), if_neg (Token.not_isPunct h (by decide)),
    if_pos h]

theorem expressionExtent_closing_succ (h : t.isPunct ")" = true) :
    expressionExtent (depth + 1) (t :: s) = expressionExtent depth s + 1 := by
  rw [expressionExtent.eq_def]
  dsimp only
  rw [if_neg (Token.not_isBrace h (by decide) (by decide)), if_neg (Token.not_isPunct h (by decide)),
    if_pos h]

theorem expressionExtent_separator_zero (h : (t.isPunct ";" || t.isPunct ",") = true) :
    expressionExtent 0 (t :: s) = 0 := by
  have hnot {text : String} (hsemi : ";" ≠ text) (hcomma : "," ≠ text) : ¬ t.isPunct text = true := by
    rcases Bool.or_eq_true_iff.mp h with hs | hs
    · exact Token.not_isPunct hs hsemi
    · exact Token.not_isPunct hs hcomma
  have hbrace : ¬ t.isBrace = true := by
    rw [Token.isBrace, Bool.or_eq_true]
    exact not_or.mpr ⟨hnot (by decide) (by decide), hnot (by decide) (by decide)⟩
  rw [expressionExtent.eq_def]
  dsimp only
  rw [if_neg hbrace, if_neg (hnot (by decide) (by decide)), if_neg (hnot (by decide) (by decide)), h]
  rfl

theorem expressionExtent_other (hb : ¬ t.isBrace = true) (ho : ¬ t.isPunct "(" = true)
    (hc : ¬ t.isPunct ")" = true) (hs : (t.isPunct ";" || t.isPunct ",") = true → 0 < depth) :
    expressionExtent depth (t :: s) = expressionExtent depth s + 1 := by
  have hgo : ¬ ((t.isPunct ";" || t.isPunct ",") && depth == 0) = true := by
    rw [Bool.and_eq_true, beq_iff_eq]
    rintro ⟨hsep, hdepth⟩
    exact absurd (hs hsep) (by omega)
  rw [expressionExtent.eq_def]
  dsimp only
  rw [if_neg hb, if_neg ho, if_neg hc, if_neg hgo]

end FirstToken

/-! ## Pairs of parentheses -/

/-- The tokens with the indices `i` and `j` are the two parentheses of a pair: between them there is no
    brace, and all parentheses have their partners there. -/
structure PairsWith (tokens : List Token) (i j : Nat) : Prop where
  lt : i < j
  opening : ∃ t, tokens[i]? = some t ∧ t.isPunct "(" = true
  closing : ∃ t, tokens[j]? = some t ∧ t.isPunct ")" = true
  between : Balanced (words ((tokens.take j).drop (i + 1)))

section Pairs

variable {tokens s : List Token} {depth n i j i' j' : Nat}

/-- The scan for a closing parenthesis finds what closes everything that is open, and nothing else. -/
theorem parenExtent?_eq_some_iff : parenExtent? depth s = some n ↔
    Closes depth (words (s.take n)) ∧ ∃ t, s[n]? = some t ∧ t.isPunct ")" = true := by
  constructor
  · intro h
    exact ⟨closes_of_parenExtent? h, parenExtent?_spec h⟩
  · rintro ⟨hrun, t, ht, hclosing⟩
    obtain ⟨hlt, rfl⟩ := List.getElem?_eq_some_iff.mp ht
    have hs : s.take n ++ s[n] :: s.drop (n + 1) = s := by
      rw [← List.drop_eq_getElem_cons hlt, List.take_append_drop]
    have hextent : parenExtent? depth (s.take n ++ s[n] :: s.drop (n + 1)) = some (s.take n).length :=
      parenExtent?_append hrun hclosing
    rwa [hs, List.length_take, Nat.min_eq_left (Nat.le_of_lt hlt)] at hextent

/-- The partner of a parenthesis is what the scan behind it finds. -/
theorem pairsWith_iff : PairsWith tokens i j ↔ (∃ t, tokens[i]? = some t ∧ t.isPunct "(" = true) ∧
    (parenExtent? 0 (tokens.drop (i + 1))).map (i + 1 + ·) = some j := by
  rw [Option.map_eq_some_iff]
  constructor
  · rintro ⟨hlt, hopening, hclosing, hbetween⟩
    obtain ⟨n, rfl⟩ := Nat.exists_eq_add_of_le hlt
    refine ⟨hopening, n, parenExtent?_eq_some_iff.mpr ⟨?_, ?_⟩, rfl⟩
    · rw [List.drop_take, Nat.add_sub_cancel_left] at hbetween
      exact balanced_iff_closes.mp hbetween
    · rwa [List.getElem?_drop]
  · rintro ⟨hopening, n, hextent, rfl⟩
    obtain ⟨hrun, hclosing⟩ := parenExtent?_eq_some_iff.mp hextent
    rw [List.getElem?_drop] at hclosing
    refine ⟨by omega, hopening, hclosing, ?_⟩
    rw [List.drop_take, Nat.add_sub_cancel_left]
    exact balanced_iff_closes.mpr hrun

theorem openings_append (run more : List Word) :
    openings (run ++ more) = openings run + openings more := List.count_append

theorem closings_append (run more : List Word) :
    closings (run ++ more) = closings run + closings more := List.count_append

/-- A pair that begins inside of another one ends there. -/
theorem PairsWith.nested (h : PairsWith tokens i j) (h' : PairsWith tokens i' j') (hi : i < i')
    (hi' : i' < j) : j' < j := by
  -- Behind the inner `(` the outer pair closes more than it opens, and no front of the inner one does.
  refine Nat.lt_of_not_le fun hle => ?_
  obtain ⟨t, ht, hopening⟩ := h'.opening
  obtain ⟨front, hfront⟩ : ∃ front, (tokens.take j).drop (i + 1) =
      front ++ t :: (tokens.take j).drop (i' + 1) := by
    refine ⟨((tokens.take j).drop (i + 1)).take (i' - (i + 1)), ?_⟩
    have hbehind : ((tokens.take j).drop (i + 1)).drop (i' - (i + 1)) =
        t :: (tokens.take j).drop (i' + 1) := by
      rw [List.drop_drop, Nat.add_sub_cancel' hi, List.drop_eq_getElem?_toList_append,
        List.getElem?_take_of_lt hi', ht]
      rfl
    rw [← hbehind, List.take_append_drop]
  obtain ⟨more, hmore⟩ := (List.take_prefix_take_left (l := tokens) hle).drop (i' + 1)
  generalize (tokens.take j).drop (i' + 1) = behind at *
  have houter : Balanced (words front ++ t.word :: words behind) := by
    rw [words, words, ← List.map_cons, ← List.map_append, ← hfront]
    exact h.between
  have hinner : Balanced (words behind ++ words more) := by
    rw [words, words, ← List.map_append, hmore]
    exact h'.between
  have hbefore := houter.closings_le _ _ rfl
  have htotal := houter.closings_eq
  have hbehind := hinner.closings_le _ _ rfl
  rw [closings_append, openings_append, closings_cons, openings_cons, openings_word, closings_word,
    if_pos hopening, if_neg (Token.not_isPunct hopening (by decide))] at htotal
  omega

/-- Two pairs are apart, or one is inside of the other. -/
theorem PairsWith.apart_or_nested (h : PairsWith tokens i j) (h' : PairsWith tokens i' j')
    (hi : i < i') : j < i' ∨ j' < j := by
  rcases Nat.lt_trichotomy j i' with hlt | rfl | hlt
  · exact .inl hlt
  · -- no token opens one pair and closes another
    obtain ⟨t, ht, hclosing⟩ := h.closing
    obtain ⟨u, hu, hopening⟩ := h'.opening
    obtain rfl := Option.some.inj (ht.symm.trans hu)
    exact absurd hopening (Token.not_isPunct hclosing (by decide))
  · exact .inr (h.nested h' hi hlt)

/-- No parenthesis closes two pairs. -/
theorem PairsWith.injective (h : PairsWith tokens i j) (h' : PairsWith tokens i' j) : i = i' := by
  have hlt := h.lt
  have hlt' := h'.lt
  rcases Nat.lt_trichotomy i i' with hi | rfl | hi
  · rcases h.apart_or_nested h' hi with hapart | hnested <;> omega
  · rfl
  · rcases h'.apart_or_nested h hi with hapart | hnested <;> omega

end Pairs

/-! ## The first pass -/

namespace Lookahead

variable {index i k start : Nat} {t : Token} {opened : List Nat}

/-- The parentheses in a stack stand in front of the index, the innermost last. -/
structure Stacked (index : Nat) (opened : List Nat) : Prop where
  before : ∀ i ∈ opened, i < index
  decreasing : opened.Pairwise (· > ·)

namespace Stacked

theorem nil : Stacked index [] :=
  ⟨fun _ hi => absurd hi List.not_mem_nil, List.Pairwise.nil⟩

theorem next (h : Stacked index opened) : Stacked (index + 1) opened :=
  ⟨fun i hi => Nat.lt_succ_of_lt (h.before i hi), h.decreasing⟩

theorem push (h : Stacked index opened) : Stacked (index + 1) (index :: opened) :=
  ⟨List.forall_mem_cons.mpr ⟨Nat.lt_succ_self _, h.next.before⟩,
    List.pairwise_cons.mpr ⟨h.before, h.decreasing⟩⟩

theorem pop (h : Stacked index (start :: opened)) : Stacked index opened :=
  ⟨fun i hi => h.before i (List.mem_cons_of_mem _ hi), h.decreasing.tail⟩

theorem lt_of_cons (h : Stacked index (start :: opened)) (hi : i ∈ opened) : i < start :=
  (List.pairwise_cons.mp h.decreasing).1 i hi

end Stacked

namespace Pairing

variable {p : Pairing} {s : List Token}

/-! What a step does, one lemma for each form of token. -/

theorem step_opening (h : t.isPunct "(" = true) : p.step index t = ⟨index :: p.opened, p.closers⟩ :=
  if_pos h

theorem step_closing (h : t.isPunct ")" = true) : p.step index t =
    match p.opened with
    | [] => p
    | start :: opened => ⟨opened, p.closers.setIfInBounds start (some index)⟩ :=
  (if_neg (Token.not_isPunct h (by decide))).trans (if_pos h)

theorem step_brace (h : t.isBrace = true) : p.step index t = ⟨[], p.closers⟩ := by
  rw [step, if_neg fun ho => Token.not_isBrace ho (by decide) (by decide) h,
    if_neg fun hc => Token.not_isBrace hc (by decide) (by decide) h, if_pos h]

theorem step_other (hb : ¬ t.isBrace = true) (ho : ¬ t.isPunct "(" = true)
    (hc : ¬ t.isPunct ")" = true) : p.step index t = p := by
  rw [step, if_neg ho, if_neg hc, if_neg hb]

/-- A step keeps the stack in order, and puts nothing but a `(` on it. -/
theorem stacked_step (h : Stacked index p.opened) (t : Token) :
    Stacked (index + 1) (p.step index t).opened ∧
      (¬ t.isPunct "(" = true → index ∉ (p.step index t).opened) := by
  have hnot (opened : List Nat) (h : Stacked index opened) : index ∉ opened :=
    fun hmem => Nat.lt_irrefl _ (h.before index hmem)
  obtain ⟨opened, closers⟩ := p
  by_cases ho : t.isPunct "(" = true
  · rw [step_opening ho]
    exact ⟨h.push, fun hno => absurd ho hno⟩
  by_cases hc : t.isPunct ")" = true
  · rw [step_closing hc]
    cases opened with
    | nil => exact ⟨.nil, fun _ => List.not_mem_nil⟩
    | cons start opened => exact ⟨h.pop.next, fun _ => hnot _ h.pop⟩
  by_cases hb : t.isBrace = true
  · rw [step_brace hb]
    exact ⟨.nil, fun _ => List.not_mem_nil⟩
  · rw [step_other hb ho hc]
    exact ⟨h.next, fun _ => hnot _ h⟩

/-- A step changes no entry but that of the innermost parenthesis. -/
theorem getElem?_step (hi : p.opened.head? ≠ some i) :
    (p.step index t).closers[i]? = p.closers[i]? := by
  obtain ⟨opened, closers⟩ := p
  unfold step
  split
  · rfl
  split
  · cases opened with
    | nil => rfl
    | cons start opened =>
      exact Array.getElem?_setIfInBounds_ne fun heq => hi (congrArg some heq)
  split
  · rfl
  · rfl

theorem not_mem_step (hi : i < index) (h : i ∉ p.opened) : i ∉ (p.step index t).opened := by
  obtain ⟨opened, closers⟩ := p
  unfold step
  split
  · exact List.not_mem_cons_of_ne_of_not_mem (Nat.ne_of_lt hi) h
  split
  · cases opened with
    | nil => exact h
    | cons start opened => exact List.not_mem_of_not_mem_cons h
  split
  · exact List.not_mem_nil
  · exact h

/-- A run leaves the entries in front of it that are not open. -/
theorem getElem?_run_of_not_mem (hi : i < index) (h : i ∉ p.opened) :
    (p.run index s).closers[i]? = p.closers[i]? := by
  induction s generalizing index p with
  | nil => rfl
  | cons t s ih =>
    have hhead : p.opened.head? ≠ some i := fun heq => h (List.mem_of_head? heq)
    rw [run, ih (Nat.lt_succ_of_lt hi) (not_mem_step hi h), getElem?_step hhead]

/-- A run leaves the entries of the tokens that it has not come to. -/
theorem stacked_run (h : Stacked index p.opened) (s : List Token) :
    Stacked (index + s.length) (p.run index s).opened ∧
      ∀ i, index + s.length ≤ i → (p.run index s).closers[i]? = p.closers[i]? := by
  induction s generalizing index p with
  | nil => exact ⟨h, fun _ _ => rfl⟩
  | cons t s ih =>
    obtain ⟨hstacked, hentries⟩ := ih (stacked_step h t).1
    rw [List.length_cons, show index + (s.length + 1) = index + 1 + s.length by omega]
    refine ⟨hstacked, ?_⟩
    intro i hi
    have hhead : p.opened.head? ≠ some i := by
      intro heq
      have hlt := h.before i (List.mem_of_head? heq)
      omega
    rw [run, hentries i hi, getElem?_step hhead]

theorem run_append (index : Nat) (p : Pairing) (front s : List Token) :
    p.run index (front ++ s) = (p.run index front).run (index + front.length) s := by
  induction front generalizing index p with
  | nil => rfl
  | cons t front ih =>
    rw [List.cons_append, run, ih, run, List.length_cons,
      show index + (front.length + 1) = index + 1 + front.length by omega]

/-- **A run finds the partner of an open parenthesis** as the scan does that goes on from the index, with as
    many parentheses open inside of it as stand above it in the stack. -/
theorem getElem?_run_of_opened (h : Stacked index p.opened) (hk : p.opened[k]? = some start)
    (hstart : p.closers[start]? = some none) :
    (p.run index s).closers[start]? = some ((parenExtent? k s).map (index + ·)) := by
  have hnext (extent : Option Nat) (index : Nat) :
      extent.map (index + 1 + ·) = (extent.map (· + 1)).map (index + ·) := by
    rw [Option.map_map]
    exact congrArg (Option.map · extent) (funext fun n => by simp; omega)
  have hmem := List.mem_of_getElem? hk
  induction s generalizing index p k with
  | nil => exact hstart
  | cons t s ih =>
    have hstacked := (stacked_step h t).1
    rw [run]
    by_cases ho : t.isPunct "(" = true
    · rw [step_opening ho] at hstacked ⊢
      rw [ih hstacked (by rwa [List.getElem?_cons_succ]) hstart (List.mem_cons_of_mem _ hmem),
        parenExtent?_opening ho, hnext]
    by_cases hc : t.isPunct ")" = true
    · rw [step_closing hc] at hstacked ⊢
      obtain ⟨opened, closers⟩ := p
      cases opened with
      | nil => exact absurd hk (Option.some_ne_none _).symm
      | cons first opened =>
        cases k with
        | zero =>
          -- the partner is written, and stays
          obtain rfl := Option.some.inj hk
          have hnot : first ∉ opened := fun hmem => Nat.lt_irrefl _ (h.lt_of_cons hmem)
          have hlt := (Array.getElem?_eq_some_iff.mp hstart).1
          rw [getElem?_run_of_not_mem (h.next.before _ hmem) hnot,
            Array.getElem?_setIfInBounds_self_of_lt hlt, parenExtent?_closing_zero hc]
          rfl
        | succ k =>
          rw [List.getElem?_cons_succ] at hk
          have hmem' := List.mem_of_getElem? hk
          have hne : first ≠ start := Nat.ne_of_gt (h.lt_of_cons hmem')
          rw [ih hstacked hk (by rwa [Array.getElem?_setIfInBounds_ne hne]) hmem',
            parenExtent?_closing_succ hc, hnext]
    by_cases hb : t.isBrace = true
    · rw [step_brace hb, getElem?_run_of_not_mem (h.next.before _ hmem) List.not_mem_nil, hstart,
        parenExtent?_brace hb]
      rfl
    · rw [step_other hb ho hc] at hstacked ⊢
      rw [ih hstacked hk hstart hmem, parenExtent?_other hb ho hc, hnext]

end Pairing

/-- **The table of closing parentheses is what the scan behind each `(` finds.** -/
theorem getElem?_closers (tokens : List Token) (i : Nat) :
    (closers tokens)[i]? = tokens[i]?.map fun t =>
      if t.isPunct "(" then (parenExtent? 0 (tokens.drop (i + 1))).map (i + 1 + ·) else none := by
  cases ht : tokens[i]? with
  | none =>
    have hle := List.getElem?_eq_none_iff.mp ht
    exact Array.getElem?_eq_none (by rwa [size_closers])
  | some t =>
    obtain ⟨hlt, rfl⟩ := List.getElem?_eq_some_iff.mp ht
    obtain ⟨h, hentries⟩ := Pairing.stacked_run (p := .atStart tokens.length) .nil (tokens.take i)
    have hlength : 0 + (tokens.take i).length = i := by
      rw [List.length_take]
      omega
    have hrun := Pairing.run_append 0 (.atStart tokens.length) (tokens.take i) (tokens.drop i)
    have hentry := hentries i (Nat.le_of_eq hlength)
    rw [hlength] at h hrun
    have hstart : (Pairing.atStart tokens.length).closers[i]? = some none := by
      rw [Pairing.atStart, Array.getElem?_replicate, if_pos hlt]
    rw [hstart] at hentry
    rw [List.take_append_drop, List.drop_eq_getElem_cons hlt, Pairing.run] at hrun
    rw [closers, hrun, Option.map_some]
    generalize (Pairing.run 0 (.atStart tokens.length) (tokens.take i)) = p at *
    obtain ⟨hstacked, hnot⟩ := Pairing.stacked_step h tokens[i]
    by_cases ho : tokens[i].isPunct "(" = true
    · rw [Pairing.step_opening ho] at hstacked ⊢
      rw [if_pos ho]
      exact Pairing.getElem?_run_of_opened hstacked rfl hentry
    · have hhead : p.opened.head? ≠ some i :=
        fun heq => Nat.lt_irrefl _ (h.before i (List.mem_of_head? heq))
      rw [Pairing.getElem?_run_of_not_mem (Nat.lt_succ_self i) (hnot ho), Pairing.getElem?_step hhead,
        hentry, if_neg ho]

end Lookahead

namespace Cursor

theorem matchingParen?_eq_some_iff (c : Cursor) (i j : Nat) :
    c.matchingParen? i = some j ↔ PairsWith c.tokens.toList i j := by
  rw [matchingParen?, c.closers_eq, Lookahead.getElem?_closers, pairsWith_iff]
  cases c.tokens.toList[i]? with
  | none => simp
  | some t => by_cases ho : t.isPunct "(" = true <;> simp [ho]

/-- **A cursor finds exactly the pairs of parentheses.** The partner of a parenthesis is the one up to which
    all others have their partners, without a brace before it; nothing else has a partner. So two pairs
    are apart or one is inside of the other, and no parenthesis closes two pairs. -/
theorem matchingParens_exact (c : Cursor) :
    (∀ i j, c.matchingParen? i = some j ↔ PairsWith c.tokens.toList i j) ∧
    (∀ i, c.matchingParen? i = none ↔ ∀ j, ¬ PairsWith c.tokens.toList i j) ∧
    (∀ i, c.tokens.size ≤ i → c.matchingParen? i = none) ∧
    (∀ i j i' j', c.matchingParen? i = some j → c.matchingParen? i' = some j' → i < i' →
      j < i' ∨ j' < j) ∧
    ∀ i i' j, c.matchingParen? i = some j → c.matchingParen? i' = some j → i = i' := by
  have hiff := c.matchingParen?_eq_some_iff
  have hnone (i : Nat) : c.matchingParen? i = none ↔ ∀ j, ¬ PairsWith c.tokens.toList i j := by
    rw [Option.eq_none_iff_forall_ne_some]
    exact forall_congr' fun j => not_congr (hiff i j)
  refine ⟨hiff, hnone, ?_, ?_, ?_⟩
  · intro i hi
    refine (hnone i).mpr fun j hpair => ?_
    obtain ⟨t, ht, -⟩ := hpair.opening
    rw [← Array.length_toList] at hi
    exact absurd (List.getElem?_eq_some_iff.mp ht).1 (Nat.not_lt_of_le hi)
  · intro i j i' j' h h' hi
    exact ((hiff i j).mp h).apart_or_nested ((hiff i' j').mp h') hi
  · intro i i' j h h'
    exact ((hiff i j).mp h).injective ((hiff i' j).mp h')

end Cursor

/-! ## The second pass -/

section Extents

variable {depth n : Nat} {s : List Token}

/-- Inside of a pair the scan for the end of an expression only counts parentheses, and behind the pair it
    begins anew. -/
theorem expressionExtent_of_paren (h : parenExtent? depth s = some n) :
    expressionExtent (depth + 1) s = n + 1 + expressionExtent 0 (s.drop (n + 1)) := by
  fun_induction parenExtent? depth s generalizing n with
  | case1 => exact absurd h (Option.some_ne_none _).symm
  | case2 => exact absurd h (Option.some_ne_none _).symm
  | case3 depth t s hb ho ih =>
    obtain ⟨m, hm, rfl⟩ := Option.map_eq_some_iff.mp h
    rw [expressionExtent_opening ho, ih hm, List.drop_succ_cons]
    omega
  | case4 t s hb ho hc =>
    obtain rfl := Option.some.inj h
    rw [expressionExtent_closing_succ hc, List.drop_succ_cons, List.drop_zero]
    omega
  | case5 t s hb ho hc depth ih =>
    obtain ⟨m, hm, rfl⟩ := Option.map_eq_some_iff.mp h
    rw [expressionExtent_closing_succ hc, ih hm, List.drop_succ_cons]
    omega
  | case6 depth t s hb ho hc ih =>
    obtain ⟨m, hm, rfl⟩ := Option.map_eq_some_iff.mp h
    rw [expressionExtent_other hb ho hc fun _ => Nat.succ_pos _, ih hm, List.drop_succ_cons]
    omega

/-- Where a pair is not closed, an expression that opens it goes up to the next brace. -/
theorem expressionExtent_of_unclosed (h : parenExtent? depth s = none) :
    expressionExtent (depth + 1) s = s.findIdx Token.isBrace := by
  fun_induction parenExtent? depth s with
  | case1 => rfl
  | case2 depth t s hb => rw [expressionExtent_brace hb, List.findIdx_cons, hb]; rfl
  | case3 depth t s hb ho ih =>
    rw [expressionExtent_opening ho, ih (Option.map_eq_none_iff.mp h), List.findIdx_cons,
      Bool.eq_false_iff.mpr hb]
    rfl
  | case4 => exact absurd h (Option.some_ne_none _)
  | case5 t s hb ho hc depth ih =>
    rw [expressionExtent_closing_succ hc, ih (Option.map_eq_none_iff.mp h), List.findIdx_cons,
      Bool.eq_false_iff.mpr hb]
    rfl
  | case6 depth t s hb ho hc ih =>
    rw [expressionExtent_other hb ho hc fun _ => Nat.succ_pos _, ih (Option.map_eq_none_iff.mp h),
      List.findIdx_cons, Bool.eq_false_iff.mpr hb]
    rfl

end Extents

namespace Lookahead.Ends

variable {tokens s : List Token} {known recorded : Ends} {index stop : Nat} {t : Token}

/-- What is known about the tokens from an index on is right: the ends are those that the scan finds, and
    the brace is the next one. -/
structure Knows (tokens : List Token) (index : Nat) (known : Ends) : Prop where
  size : known.table.size = tokens.length + 1
  ends : ∀ i, index ≤ i → i ≤ tokens.length →
    known.table[i]? = some (i + expressionExtent 0 (tokens.drop i))
  brace : known.brace = index + (tokens.drop index).findIdx Token.isBrace

theorem knows_atEnd (tokens : List Token) : Knows tokens tokens.length (atEnd tokens.length) := by
  constructor
  · exact Array.size_replicate
  · intro i hi hle
    obtain rfl := Nat.le_antisymm hle hi
    rw [atEnd, Array.getElem?_replicate, if_pos (Nat.lt_succ_self _), List.drop_length]
    rfl
  · rw [List.drop_length]
    rfl

/-- **The end that is read off the tables is the one that the scan finds.** -/
theorem Knows.endAt?_eq (h : Knows tokens (index + 1) known) (ht : tokens[index]? = some t) :
    endAt? (closers tokens) known index t =
      some (index + expressionExtent 0 (tokens.drop index)) := by
  have hclosers := getElem?_closers tokens index
  obtain ⟨hlt, rfl⟩ := List.getElem?_eq_some_iff.mp ht
  rw [List.drop_eq_getElem_cons hlt]
  generalize tokens[index] = t at *
  rw [ht, Option.map_some] at hclosers
  by_cases hb : t.isBrace = true
  · rw [endAt?, if_pos hb, expressionExtent_brace hb]
    rfl
  rw [endAt?, if_neg hb]
  by_cases hc : t.isPunct ")" = true
  · rw [hc, expressionExtent_closing_zero hc]
    rfl
  by_cases hs : (t.isPunct ";" || t.isPunct ",") = true
  · rw [Bool.or_assoc, hs, Bool.or_true, expressionExtent_separator_zero hs]
    rfl
  rw [Bool.or_assoc, Bool.eq_false_iff.mpr hc, Bool.eq_false_iff.mpr hs, Bool.or_false,
    if_neg Bool.false_ne_true]
  by_cases ho : t.isPunct "(" = true
  · rw [if_pos ho] at hclosers ⊢
    rw [hclosers, expressionExtent_opening ho]
    cases hextent : parenExtent? 0 (tokens.drop (index + 1)) with
    | none =>
      rw [expressionExtent_of_unclosed hextent, h.brace]
      exact congrArg some (by omega)
    | some n =>
      -- the partner is a token, and the table reaches one entry further
      obtain ⟨u, hu, -⟩ := parenExtent?_spec hextent
      rw [List.getElem?_drop] at hu
      have hclose := (List.getElem?_eq_some_iff.mp hu).1
      rw [expressionExtent_of_paren hextent, List.drop_drop]
      refine (h.ends (index + 1 + n + 1) (by omega) hclose).trans (congrArg some ?_)
      rw [Nat.add_assoc (index + 1) n 1]
      omega
  · rw [if_neg ho, h.ends (index + 1) (Nat.le_refl _) hlt,
      expressionExtent_other hb ho hc fun hsep => absurd hsep hs]
    exact congrArg some (by omega)

theorem Knows.record (h : Knows tokens (index + 1) known) (ht : tokens[index]? = some t)
    (hrecord : known.record? index t (index + expressionExtent 0 (tokens.drop index)) = some recorded) :
    Knows tokens index recorded := by
  obtain ⟨hlt, hdrop⟩ := List.getElem?_eq_some_iff.mp ht
  obtain ⟨hbound, rfl⟩ := Ends.record?_eq_some_iff.mp hrecord
  constructor
  · exact (Array.size_set hbound).trans h.size
  · intro i hi hle
    rw [Array.getElem?_set]
    split
    · next heq => rw [heq]
    · exact h.ends i (by omega) hle
  · have hbrace := h.brace
    rw [List.drop_eq_getElem_cons hlt, hdrop, List.findIdx_cons]
    dsimp only
    by_cases hb : t.isBrace = true
    · rw [if_pos hb, hb]
      rfl
    · rw [if_neg hb, hbrace, Bool.eq_false_iff.mpr hb]
      exact Nat.add_right_comm _ _ _

/-- What the pass knows when it has seen the tokens at the end of a row is right. -/
theorem knows_of_extend? (hs : tokens.drop index = s) (hindex : index + s.length = tokens.length)
    (h : extend? (closers tokens) (atEnd tokens.length) index s = some known) :
    Knows tokens index known := by
  induction s generalizing index known with
  | nil =>
    obtain rfl : index = tokens.length := hindex
    obtain rfl := Option.some.inj h
    exact knows_atEnd tokens
  | cons t s ih =>
    have ht : tokens[index]? = some t := by
      rw [← List.head?_drop, hs]
      rfl
    have hbehind : tokens.drop (index + 1) = s := by
      rw [← List.tail_drop, hs]
      rfl
    rw [List.length_cons] at hindex
    obtain ⟨before, hbefore, stop, hstop, hrecord⟩ := extend?_cons_eq_some_iff.mp h
    have hknows := ih hbehind (by omega) hbefore
    obtain rfl := Option.some.inj (hstop.symm.trans (hknows.endAt?_eq ht))
    exact hknows.record ht hrecord

end Lookahead.Ends

namespace Cursor

theorem expressionEnd_eq (c : Cursor) (start : Nat) : c.expressionEnd start =
    min start c.tokens.size + expressionExtent 0 (c.tokens.toList.drop start) := by
  have hends := c.ends_eq
  rw [c.closers_eq, Lookahead.ends?] at hends
  obtain ⟨known, hextend, htable⟩ := Option.map_eq_some_iff.mp hends
  have hknows := Lookahead.Ends.knows_of_extend? rfl (Nat.zero_add _) hextend
  rw [expressionEnd, ← htable, ← Array.length_toList]
  by_cases hstart : start ≤ c.tokens.toList.length
  · rw [hknows.ends start (Nat.zero_le _) hstart, Nat.min_eq_left hstart]
    rfl
  · have hsize := hknows.size
    rw [Array.getElem?_eq_none (by omega), List.drop_eq_nil_of_le (by omega),
      Nat.min_eq_right (by omega)]
    rfl

/-- **The ends of expressions that a cursor answers are those of a plain scan.** The pass that fills their
    table never reads or writes outside of a table, for any row of tokens. Afterwards a cursor anywhere in
    the row gives for each index, also beyond the end, the index at which a forward scan from there comes to
    the end of an expression. -/
theorem expressionEnds_exact (tokens : List Token) :
    (∃ ends, Lookahead.ends? (Lookahead.closers tokens) tokens = some ends ∧
      ends.size = tokens.length + 1) ∧
    ∀ position start, ((ofTokens tokens).moveTo position).expressionEnd start =
      min start tokens.length + expressionExtent 0 (tokens.drop start) := by
  constructor
  · obtain ⟨known, hextend, htable⟩ := Option.map_eq_some_iff.mp (ofTokens tokens).ends_eq
    have hknows := Lookahead.Ends.knows_of_extend? rfl (Nat.zero_add _) hextend
    exact ⟨_, (ofTokens tokens).ends_eq, htable ▸ hknows.size⟩
  · exact fun position => ((ofTokens tokens).moveTo position).expressionEnd_eq

end Cursor

end BraceLang
