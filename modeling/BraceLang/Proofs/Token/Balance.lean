import BraceLang.Token.Extent

/-!
# `Proofs.Token.Balance` — what the scans for the end of a run find

The scans of `Token.Extent` count the parentheses that are open. Here the runs that they delimit are
described by counting in each part of the run, without a scan: a run is **balanced** if no part at
its front closes more parentheses than it opens, and the whole run closes as many as it opens.

## Contents
- `Word`, a token without its place, and `openings` and `closings` of a row of words.
- `Encloses`, `Closes` and `Undivided`, relative to parentheses that were opened before the run, and
  from them `Balanced` and `IsExpression`.
- What the first word of a run does to each of them.
- `closes_of_parenExtent?` and `parenExtent?_append`, `closes_of_expressionExtent` and
  `expressionExtent_append`: the scans find these runs and no others.
-/

namespace BraceLang

/-- What a token says, without the place where it stands. -/
structure Word where
  kind : Token.Kind
  text : String
  deriving DecidableEq, Repr

namespace Word

/-- The punctuation `text`. -/
def mark (text : String) : Word := ⟨.punctuation, text⟩

/-- Whether the word opens or closes a block. -/
def IsBrace (w : Word) : Prop := w = mark "\x7b" ∨ w = mark "\x7d"

/-- Whether the word ends an expression in which no parenthesis is open. -/
def IsSeparator (w : Word) : Prop := w = mark ";" ∨ w = mark ","

end Word

/-- What the token says. -/
def Token.word (t : Token) : Word := ⟨t.kind, t.text⟩

/-- What the tokens of a run say. -/
def words (run : List Token) : List Word := run.map Token.word

namespace Token

variable {t : Token} {text other : String}

theorem isPunct_iff : t.isPunct text = true ↔ t.word = .mark text := by
  simp [isPunct, hasText, word, Word.mark]

theorem not_isPunct_iff : ¬ t.isPunct text = true ↔ t.word ≠ .mark text := not_congr isPunct_iff

theorem isBrace_iff : t.isBrace = true ↔ t.word.IsBrace := by
  rw [isBrace, Bool.or_eq_true, isPunct_iff, isPunct_iff, Word.IsBrace]

theorem not_isBrace_iff : ¬ t.isBrace = true ↔ ¬ t.word.IsBrace := not_congr isBrace_iff

/-- A token is only one punctuation. -/
theorem not_isPunct (h : t.isPunct text = true) (hne : text ≠ other) : ¬ t.isPunct other = true := by
  intro ho
  rw [isPunct_iff] at h ho
  exact hne (congrArg Word.text (h.symm.trans ho))

theorem not_isBrace (h : t.isPunct text = true) (hopen : text ≠ "\x7b") (hclose : text ≠ "\x7d") :
    ¬ t.isBrace = true := by
  rw [isBrace, Bool.or_eq_true]
  exact not_or.mpr ⟨not_isPunct h hopen, not_isPunct h hclose⟩

end Token

/-! ## Counting parentheses -/

/-- The number of opening parentheses. -/
def openings (run : List Word) : Nat := run.count (.mark "(")

/-- The number of closing parentheses. -/
def closings (run : List Word) : Nat := run.count (.mark ")")

/-- The run holds no brace and closes no parentheses but its own and `depth` further ones. -/
structure Encloses (depth : Nat) (run : List Word) : Prop where
  no_brace : ∀ w ∈ run, ¬ w.IsBrace
  closings_le : ∀ u v, run = u ++ v → closings u ≤ depth + openings u

/-- The run closes all of its own parentheses and all of the `depth` further ones. -/
structure Closes (depth : Nat) (run : List Word) : Prop extends Encloses depth run where
  closings_eq : closings run = depth + openings run

/-- No `;` or `,` stands in the run where all parentheses are closed, its own and `depth` further
    ones. -/
def Undivided (depth : Nat) (run : List Word) : Prop :=
  ∀ u w v, run = u ++ w :: v → w.IsSeparator → closings u < depth + openings u

/-- The run holds no brace, no part at its front closes more parentheses than it opens, and all
    parentheses are closed at its end. -/
structure Balanced (run : List Word) : Prop where
  no_brace : ∀ w ∈ run, ¬ w.IsBrace
  closings_le : ∀ u v, run = u ++ v → closings u ≤ openings u
  closings_eq : closings run = openings run

/-- The run is an expression: it is not empty, it is balanced, and `;` and `,` only stand inside its
    parentheses. -/
structure IsExpression (run : List Word) : Prop extends Balanced run where
  ne_nil : run ≠ []
  inside : ∀ u w v, run = u ++ w :: v → w.IsSeparator → closings u < openings u

theorem balanced_iff_closes {run : List Word} : Balanced run ↔ Closes 0 run := by
  constructor
  · rintro ⟨hbrace, hle, heq⟩
    exact ⟨⟨hbrace, fun u v huv => Nat.le_trans (hle u v huv) (Nat.le_add_left _ _)⟩,
      by rw [heq, Nat.zero_add]⟩
  · rintro ⟨⟨hbrace, hle⟩, heq⟩
    refine ⟨hbrace, fun u v huv => ?_, by rw [heq, Nat.zero_add]⟩
    have := hle u v huv
    rwa [Nat.zero_add] at this

theorem isExpression_iff {run : List Word} :
    IsExpression run ↔ run ≠ [] ∧ Closes 0 run ∧ Undivided 0 run := by
  rw [← balanced_iff_closes, Undivided]
  simp only [Nat.zero_add]
  exact ⟨fun h => ⟨h.ne_nil, h.toBalanced, h.inside⟩, fun ⟨hne, hb, hin⟩ => ⟨hb, hne, hin⟩⟩

/-! ## The first word of a run -/

section FirstWord

variable {depth deeper : Nat} {w : Word} {run : List Word} {t : Token}

/-- The word changes the number of open parentheses from `depth` to `deeper`. -/
def Word.Changes (w : Word) (depth deeper : Nat) : Prop :=
  deeper + closings [w] = depth + openings [w]

theorem openings_word : openings [t.word] = if t.isPunct "(" then 1 else 0 := by
  rw [openings, List.count_singleton]
  by_cases h : t.isPunct "(" = true
  · rw [if_pos h, Token.isPunct_iff.mp h]
    rfl
  · rw [if_neg h, if_neg]
    rw [beq_iff_eq, ← Token.isPunct_iff]
    exact h

theorem closings_word : closings [t.word] = if t.isPunct ")" then 1 else 0 := by
  rw [closings, List.count_singleton]
  by_cases h : t.isPunct ")" = true
  · rw [if_pos h, Token.isPunct_iff.mp h]
    rfl
  · rw [if_neg h, if_neg]
    rw [beq_iff_eq, ← Token.isPunct_iff]
    exact h

theorem Token.changes_opening (h : t.isPunct "(" = true) : t.word.Changes depth (depth + 1) := by
  rw [Word.Changes, openings_word, closings_word, if_pos h, if_neg (not_isPunct h (by decide))]

theorem Token.changes_closing (h : t.isPunct ")" = true) : t.word.Changes (depth + 1) depth := by
  rw [Word.Changes, openings_word, closings_word, if_pos h, if_neg (not_isPunct h (by decide))]

theorem Token.changes_other (ho : ¬ t.isPunct "(" = true) (hc : ¬ t.isPunct ")" = true) :
    t.word.Changes depth depth := by
  rw [Word.Changes, openings_word, closings_word, if_neg ho, if_neg hc]

theorem openings_cons (w : Word) (run : List Word) :
    openings (w :: run) = openings [w] + openings run := by
  show openings ([w] ++ run) = _
  exact List.count_append

theorem closings_cons (w : Word) (run : List Word) :
    closings (w :: run) = closings [w] + closings run := by
  show closings ([w] ++ run) = _
  exact List.count_append

theorem encloses_nil : Encloses depth [] := by
  refine ⟨fun w hw => absurd hw List.not_mem_nil, ?_⟩
  intro u v huv
  obtain ⟨rfl, rfl⟩ := List.append_eq_nil_iff.mp huv.symm
  exact Nat.zero_le _

theorem encloses_cons (hc : w.Changes depth deeper) (hw : ¬ w.IsBrace) :
    Encloses depth (w :: run) ↔ Encloses deeper run := by
  unfold Word.Changes at hc
  constructor
  · intro h
    refine ⟨fun x hx => h.no_brace x (List.mem_cons_of_mem _ hx), ?_⟩
    intro u v huv
    have hle := h.closings_le (w :: u) v (by rw [huv, List.cons_append])
    rw [closings_cons, openings_cons] at hle
    omega
  · intro h
    refine ⟨?_, ?_⟩
    · intro x hx
      rcases List.mem_cons.mp hx with rfl | hmem
      · exact hw
      · exact h.no_brace x hmem
    · intro u v huv
      cases u with
      | nil => exact Nat.zero_le _
      | cons x u =>
        obtain ⟨rfl, hrun⟩ := List.cons.inj huv
        have hle := h.closings_le u v hrun
        rw [closings_cons, openings_cons]
        omega

theorem closes_nil : Closes depth [] ↔ depth = 0 := by
  constructor
  · intro h
    have heq := h.closings_eq
    simp only [closings, openings, List.count_nil] at heq
    omega
  · rintro rfl
    exact ⟨encloses_nil, rfl⟩

theorem closes_cons (hc : w.Changes depth deeper) (hw : ¬ w.IsBrace) :
    Closes depth (w :: run) ↔ Closes deeper run := by
  have hcount : closings (w :: run) = depth + openings (w :: run) ↔
      closings run = deeper + openings run := by
    unfold Word.Changes at hc
    rw [closings_cons, openings_cons]
    omega
  constructor
  · intro h
    exact ⟨(encloses_cons hc hw).mp h.toEncloses, hcount.mp h.closings_eq⟩
  · intro h
    exact ⟨(encloses_cons hc hw).mpr h.toEncloses, hcount.mpr h.closings_eq⟩

/-- A `)` at the front closes one of the parentheses that are open. -/
theorem Closes.depth_of_closing (h : Closes depth (t.word :: run)) (ht : t.isPunct ")" = true) :
    ∃ deeper, depth = deeper + 1 := by
  have hle := h.closings_le [t.word] run rfl
  rw [closings_word, openings_word, if_pos ht, if_neg (Token.not_isPunct ht (by decide))] at hle
  exact ⟨depth - 1, by omega⟩

theorem undivided_nil : Undivided depth [] := by
  intro u w v huv
  exact absurd huv.symm (by simp)

theorem undivided_cons (hc : w.Changes depth deeper) :
    Undivided depth (w :: run) ↔ (w.IsSeparator → 0 < depth) ∧ Undivided deeper run := by
  unfold Word.Changes at hc
  constructor
  · intro h
    refine ⟨fun hw => h [] w run rfl hw, ?_⟩
    intro u x v huv hx
    have hlt := h (w :: u) x v (by rw [huv, List.cons_append]) hx
    rw [closings_cons, openings_cons] at hlt
    omega
  · rintro ⟨hfirst, hrest⟩ u x v huv hx
    cases u with
    | nil =>
      obtain ⟨rfl, -⟩ := List.cons.inj huv
      exact hfirst hx
    | cons y u =>
      obtain ⟨rfl, hrun⟩ := List.cons.inj huv
      have hlt := hrest u x v hrun hx
      rw [closings_cons, openings_cons]
      omega

end FirstWord

/-! ## The scans -/

section Scans

variable {depth n : Nat} {s run rest : List Token} {closing semicolon : Token}

/-- The run before a closing parenthesis closes everything that was open. -/
theorem closes_of_parenExtent? (h : parenExtent? depth s = some n) :
    Closes depth (words (s.take n)) := by
  -- The cases are the end, a brace, `(`, the `)` that was looked for, another `)`, and other
  -- tokens.
  fun_induction parenExtent? depth s generalizing n with
  | case1 => exact absurd h (by simp)
  | case2 => exact absurd h (by simp)
  | case3 depth t s hb ho ih =>
    obtain ⟨m, hm, rfl⟩ := Option.map_eq_some_iff.mp h
    exact (closes_cons (t.changes_opening ho) (Token.not_isBrace_iff.mp hb)).mpr (ih hm)
  | case4 t s hb ho hc =>
    obtain rfl := Option.some.inj h
    exact closes_nil.mpr rfl
  | case5 t s hb ho hc depth ih =>
    obtain ⟨m, hm, rfl⟩ := Option.map_eq_some_iff.mp h
    exact (closes_cons (t.changes_closing hc) (Token.not_isBrace_iff.mp hb)).mpr (ih hm)
  | case6 depth t s hb ho hc ih =>
    obtain ⟨m, hm, rfl⟩ := Option.map_eq_some_iff.mp h
    exact (closes_cons (t.changes_other ho hc) (Token.not_isBrace_iff.mp hb)).mpr (ih hm)

/-- A run that closes everything that was open is found if a closing parenthesis stands behind
    it. -/
theorem parenExtent?_append (hrun : Closes depth (words run)) (hclosing : closing.isPunct ")" = true) :
    parenExtent? depth (run ++ closing :: rest) = some run.length := by
  induction run generalizing depth with
  | nil =>
    obtain rfl := closes_nil.mp hrun
    rw [List.nil_append, parenExtent?, if_neg (Token.not_isBrace hclosing (by decide) (by decide)),
      if_neg (Token.not_isPunct hclosing (by decide)), if_pos hclosing]
    rfl
  | cons t run ih =>
    have hb : ¬ t.isBrace = true :=
      Token.not_isBrace_iff.mpr (hrun.no_brace _ List.mem_cons_self)
    have hb' := Token.not_isBrace_iff.mp hb
    rw [List.cons_append, parenExtent?.eq_def, List.length_cons]
    dsimp only
    rw [if_neg hb]
    by_cases ho : t.isPunct "(" = true
    · rw [if_pos ho, ih ((closes_cons (t.changes_opening ho) hb').mp hrun), Option.map_some]
    · rw [if_neg ho]
      by_cases hc : t.isPunct ")" = true
      · obtain ⟨deeper, rfl⟩ := hrun.depth_of_closing hc
        rw [if_pos hc]
        show Option.map _ (parenExtent? deeper _) = _
        rw [ih ((closes_cons (t.changes_closing hc) hb').mp hrun), Option.map_some]
      · rw [if_neg hc, ih ((closes_cons (t.changes_other ho hc) hb').mp hrun), Option.map_some]

theorem Token.isSeparator_iff {t : Token} :
    t.word.IsSeparator ↔ (t.isPunct ";" || t.isPunct ",") = true := by
  rw [Word.IsSeparator, Bool.or_eq_true, isPunct_iff, isPunct_iff]

/-- An expression that ends at a semicolon closes everything that was open. -/
theorem closes_of_expressionExtent (h : s[expressionExtent depth s]? = some semicolon)
    (hsemi : semicolon.isPunct ";" = true) :
    Closes depth (words (s.take (expressionExtent depth s))) ∧
      Undivided depth (words (s.take (expressionExtent depth s))) := by
  -- The same cases, and one for a separator outside of all parentheses.
  fun_induction expressionExtent depth s with
  | case1 => exact absurd h (by simp)
  | case2 depth t s hb =>
    obtain rfl := Option.some.inj h
    exact absurd hb (Token.not_isBrace hsemi (by decide) (by decide))
  | case3 depth t s hb ho ih =>
    obtain ⟨hcl, hun⟩ := ih h
    have hne : ¬ t.word.IsSeparator := by
      rw [Token.isSeparator_iff, Bool.or_eq_true]
      exact not_or.mpr ⟨Token.not_isPunct ho (by decide), Token.not_isPunct ho (by decide)⟩
    exact ⟨(closes_cons (t.changes_opening ho) (Token.not_isBrace_iff.mp hb)).mpr hcl,
      (undivided_cons (t.changes_opening ho)).mpr ⟨fun hs => absurd hs hne, hun⟩⟩
  | case4 t s hb ho hc =>
    obtain rfl := Option.some.inj h
    exact absurd hc (Token.not_isPunct hsemi (by decide))
  | case5 t s hb ho hc depth ih =>
    obtain ⟨hcl, hun⟩ := ih h
    exact ⟨(closes_cons (t.changes_closing hc) (Token.not_isBrace_iff.mp hb)).mpr hcl,
      (undivided_cons (t.changes_closing hc)).mpr ⟨fun _ => Nat.succ_pos _, hun⟩⟩
  | case6 depth t s hb ho hc hstop =>
    rw [Bool.and_eq_true, beq_iff_eq] at hstop
    obtain ⟨-, rfl⟩ := hstop
    exact ⟨closes_nil.mpr rfl, undivided_nil⟩
  | case7 depth t s hb ho hc hgo ih =>
    obtain ⟨hcl, hun⟩ := ih h
    have hpos : t.word.IsSeparator → 0 < depth := by
      intro hs
      rw [Token.isSeparator_iff] at hs
      rw [hs, Bool.true_and, beq_iff_eq] at hgo
      omega
    exact ⟨(closes_cons (t.changes_other ho hc) (Token.not_isBrace_iff.mp hb)).mpr hcl,
      (undivided_cons (t.changes_other ho hc)).mpr ⟨hpos, hun⟩⟩

/-- A run that closes everything that was open is a whole expression if a semicolon stands behind
    it. -/
theorem expressionExtent_append (hrun : Closes depth (words run))
    (hun : Undivided depth (words run)) (hsemi : semicolon.isPunct ";" = true) :
    expressionExtent depth (run ++ semicolon :: rest) = run.length := by
  induction run generalizing depth with
  | nil =>
    obtain rfl := closes_nil.mp hrun
    rw [List.nil_append, expressionExtent,
      if_neg (Token.not_isBrace hsemi (by decide) (by decide)),
      if_neg (Token.not_isPunct hsemi (by decide)), if_neg (Token.not_isPunct hsemi (by decide)),
      hsemi]
    rfl
  | cons t run ih =>
    have hb : ¬ t.isBrace = true :=
      Token.not_isBrace_iff.mpr (hrun.no_brace _ List.mem_cons_self)
    have hb' := Token.not_isBrace_iff.mp hb
    rw [List.cons_append, expressionExtent.eq_def, List.length_cons]
    dsimp only
    rw [if_neg hb]
    by_cases ho : t.isPunct "(" = true
    · rw [if_pos ho, ih ((closes_cons (t.changes_opening ho) hb').mp hrun)
        ((undivided_cons (t.changes_opening ho)).mp hun).2]
    · rw [if_neg ho]
      by_cases hc : t.isPunct ")" = true
      · obtain ⟨deeper, rfl⟩ := hrun.depth_of_closing hc
        rw [if_pos hc]
        show expressionExtent deeper _ + 1 = _
        rw [ih ((closes_cons (t.changes_closing hc) hb').mp hrun)
          ((undivided_cons (t.changes_closing hc)).mp hun).2]
      · obtain ⟨hpos, hrest⟩ := (undivided_cons (t.changes_other ho hc)).mp hun
        have hgo : ¬ ((t.isPunct ";" || t.isPunct ",") && depth == 0) = true := by
          rw [Bool.and_eq_true, ← Token.isSeparator_iff, beq_iff_eq]
          rintro ⟨hs, rfl⟩
          exact absurd (hpos hs) (Nat.lt_irrefl 0)
        rw [if_neg hc, if_neg hgo, ih ((closes_cons (t.changes_other ho hc) hb').mp hrun) hrest]

end Scans

end BraceLang
