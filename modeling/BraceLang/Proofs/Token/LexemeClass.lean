import BraceLang.Token.Lexeme
import Mathlib.Data.List.TakeWhile

/-!
# `Proofs.Token.LexemeClass` — the classes of lexemes as sets of texts

`Class.reach` measures how far a class goes into a text. Here each class is a set of texts, given by
its form and without a scan, and `reach` is shown to be the length of the longest prefix in the set.
For most classes that is plain; a number has optional parts, and there the scan must not take the
point or the letter of a part that has no digits.

## Contents
- `Class.Contains`, with `IsDigits`, `IsFraction`, `IsExponent` and `operators`.
- `Contains.unique`: no text belongs to two classes; `Contains.of_mem_blank` and
  `Contains.of_getLast?_blank`: which ones can hold a blank, and which can end with one.
- `Reaches`, the length of the longest prefix in a set, and one lemma for each form of text.
- **`reaches_reach`**, the same for all classes.
-/

namespace BraceLang.Lexeme

/-! ## The classes -/

/-- One or more digits. -/
def IsDigits (text : List Char) : Prop := text ≠ [] ∧ ∀ c ∈ text, c.isDigit = true

/-- A point with digits behind it. -/
def IsFraction (text : List Char) : Prop := ∃ digits, text = '.' :: digits ∧ IsDigits digits

/-- The letter `e`, small or capital, then a sign where there is one, and digits. -/
def IsExponent (text : List Char) : Prop :=
  ∃ e sign digits, text = e :: (sign ++ digits) ∧ (e = 'e' ∨ e = 'E') ∧
    (sign = [] ∨ sign = ['+'] ∨ sign = ['-']) ∧ IsDigits digits

/-- The operators. -/
def operators : List String :=
  ["==", "!=", "<=", ">=", "&&", "||", "++", "--", "+=", "-=", "*=", "/=", "%=", "->", "<<", ">>",
   "+", "-", "*", "/", "%", "=", "<", ">", "!", "&", "|", "^", "~", "?", ":", "."]

namespace Class

/-- The texts that belong to a class. None of them is empty. -/
def Contains : Class → List Char → Prop
  | .whitespace, text => text ≠ [] ∧ ∀ c ∈ text, isBlank c = true
  | .comment, text => ∃ body, text = '/' :: '/' :: body ∧ '\n' ∉ body
  | .identifier, text =>
    ∃ c body, text = c :: body ∧ isNameStart c = true ∧ ∀ d ∈ body, isNamePart d = true
  | .string, text => ∃ q body, text = q :: (body ++ [q]) ∧ (q = '"' ∨ q = '\'') ∧ q ∉ body
  | .number, text =>
    ∃ digits fraction exponent, text = digits ++ (fraction ++ exponent) ∧ IsDigits digits ∧
      (fraction = [] ∨ IsFraction fraction) ∧ (exponent = [] ∨ IsExponent exponent)
  | .operator, text => ∃ op ∈ operators, text = op.toList
  | .punctuation, text => ∃ c ∈ marks, text = [c]

end Class

/-! ## No text belongs to two classes -/

/-- The class of the texts that begin with a character. A comment begins as an operator does. -/
def classOfStart (c : Char) : Class :=
  if isBlank c then .whitespace
  else if isNameStart c then .identifier
  else if c == '"' || c == '\'' then .string
  else if c.isDigit then .number
  else if marks.contains c then .punctuation
  else .operator

theorem isBlank_iff {c : Char} :
    isBlank c = true ↔ c = ' ' ∨ c = '\t' ∨ c = '\r' ∨ c = '\n' ∨ c = '\x0c' := by
  simp only [isBlank, Bool.or_eq_true, beq_iff_eq, or_assoc]

theorem not_isBlank_of_isNamePart {c : Char} (h : isNamePart c = true) : ¬ isBlank c = true := by
  rw [isBlank_iff]
  rintro (rfl | rfl | rfl | rfl | rfl) <;> exact absurd h (by decide)

/-- A letter, an underscore or a digit is nothing else. -/
theorem classOfStart_of_isNamePart {c : Char} (h : isNamePart c = true) :
    classOfStart c = if isNameStart c then .identifier else .number := by
  have hquote : ¬ (c == '"' || c == '\'') = true := by
    rw [Bool.or_eq_true, beq_iff_eq, beq_iff_eq]
    rintro (rfl | rfl) <;> exact absurd h (by decide)
  rw [classOfStart, if_neg (not_isBlank_of_isNamePart h)]
  by_cases hname : isNameStart c = true
  · rw [if_pos hname, if_pos hname]
  · -- what continues a name and does not begin one is a digit
    have hdigit : c.isDigit = true := by
      simp only [isNamePart, isNameStart, Char.isAlphanum, Bool.or_eq_true, not_or] at h hname
      rcases h with (h | h) | h
      · exact absurd h hname.1
      · exact h
      · exact absurd h hname.2
    rw [if_neg hname, if_neg hname, if_neg hquote, if_pos hdigit]

theorem isNamePart_of_isDigit {c : Char} (h : c.isDigit = true) : isNamePart c = true := by
  rw [isNamePart, Char.isAlphanum, h, Bool.or_true, Bool.true_or]

theorem isNamePart_of_isNameStart {c : Char} (h : isNameStart c = true) : isNamePart c = true := by
  rw [isNameStart, Bool.or_eq_true] at h
  rw [isNamePart, Char.isAlphanum, Bool.or_eq_true, Bool.or_eq_true]
  exact h.imp_left Or.inl

theorem not_isNameStart_of_isDigit {c : Char} (h : c.isDigit = true) :
    ¬ isNameStart c = true := by
  have hstart : isNameStart c = ((decide (c.val ≥ 'A'.val ∧ c.val ≤ 'Z'.val) ||
      (decide (c.val ≥ 'a'.val) && decide (c.val ≤ 'z'.val))) || c == '_') := rfl
  rw [hstart]
  rw [Char.isDigit] at h
  simp only [Bool.and_eq_true, Bool.or_eq_true, decide_eq_true_eq, beq_iff_eq] at h ⊢
  rintro ((h' | h') | rfl)
  · have h₁ := UInt32.le_iff_toNat_le.mp h.2
    have h₂ := UInt32.le_iff_toNat_le.mp h'.1
    exact absurd (Nat.le_trans h₂ h₁) (by decide)
  · have h₁ := UInt32.le_iff_toNat_le.mp h.2
    have h₂ := UInt32.le_iff_toNat_le.mp h'.1
    exact absurd (Nat.le_trans h₂ h₁) (by decide)
  · exact absurd h.2 (by decide)

/-- The texts of a class begin as the class says, except that a comment begins as an operator. -/
theorem Class.Contains.map_head? {cls : Class} {text : List Char} (h : cls.Contains text) :
    text.head?.map classOfStart = some (if cls = .comment then .operator else cls) := by
  cases cls with
  | whitespace =>
    obtain ⟨hne, hall⟩ := h
    obtain ⟨c, rest, rfl⟩ := List.exists_cons_of_ne_nil hne
    exact congrArg some (if_pos (hall c List.mem_cons_self))
  | comment =>
    obtain ⟨body, rfl, -⟩ := h
    rw [List.head?_cons, Option.map_some]
    decide
  | identifier =>
    obtain ⟨c, body, rfl, hc, -⟩ := h
    rw [List.head?_cons, Option.map_some, classOfStart_of_isNamePart (isNamePart_of_isNameStart hc),
      if_pos hc]
    rfl
  | string =>
    obtain ⟨q, body, rfl, hq, -⟩ := h
    rw [List.head?_cons, Option.map_some]
    rcases hq with rfl | rfl <;> decide
  | number =>
    obtain ⟨digits, fraction, exponent, rfl, ⟨hne, hall⟩, -, -⟩ := h
    obtain ⟨c, digits, rfl⟩ := List.exists_cons_of_ne_nil hne
    have hc : c.isDigit = true := hall c List.mem_cons_self
    rw [List.cons_append, List.head?_cons, Option.map_some,
      classOfStart_of_isNamePart (isNamePart_of_isDigit hc), if_neg (not_isNameStart_of_isDigit hc)]
    rfl
  | operator =>
    obtain ⟨op, hop, rfl⟩ := h
    have hstart : ∀ op ∈ operators, op.toList.head?.map classOfStart = some .operator := by decide
    exact hstart op hop
  | punctuation =>
    obtain ⟨c, hc, rfl⟩ := h
    have hstart : (marks.all fun c => classOfStart c == .punctuation) = true := by decide
    exact congrArg some (eq_of_beq (List.all_eq_true.mp hstart c hc))

/-- No operator begins with two slashes. -/
theorem not_contains_operator_of_comment {text : List Char} (h : Class.comment.Contains text) :
    ¬ Class.operator.Contains text := by
  obtain ⟨body, rfl, -⟩ := h
  rintro ⟨op, hop, heq⟩
  have hno : ∀ op ∈ operators, op.toList.take 2 ≠ ['/', '/'] := by decide
  exact hno op hop (by rw [← heq]; rfl)

/-- **No text belongs to two classes.** -/
theorem Class.Contains.unique {cls other : Class} {text : List Char} (h : cls.Contains text)
    (hother : other.Contains text) : cls = other := by
  have hstart := Option.some.inj (h.map_head?.symm.trans hother.map_head?)
  by_cases h₁ : cls = .comment
  · by_cases h₂ : other = .comment
    · rw [h₁, h₂]
    · rw [if_pos h₁, if_neg h₂] at hstart
      subst h₁ hstart
      exact absurd hother (not_contains_operator_of_comment h)
  · by_cases h₂ : other = .comment
    · rw [if_neg h₁, if_pos h₂] at hstart
      subst h₂ hstart
      exact absurd h (not_contains_operator_of_comment hother)
    · rwa [if_neg h₁, if_neg h₂] at hstart

theorem IsDigits.not_isBlank {digits : List Char} {c : Char} (h : IsDigits digits) (hc : c ∈ digits) :
    ¬ isBlank c = true :=
  not_isBlank_of_isNamePart (isNamePart_of_isDigit (h.2 c hc))

/-- A number holds no blank. -/
theorem not_isBlank_of_mem_number {text : List Char} {c : Char} (h : Class.number.Contains text)
    (hc : c ∈ text) : ¬ isBlank c = true := by
  obtain ⟨digits, fraction, exponent, rfl, hdigits, hfraction, hexponent⟩ := h
  rw [List.mem_append, List.mem_append] at hc
  rcases hc with hc | hc | hc
  · exact hdigits.not_isBlank hc
  · rcases hfraction with rfl | ⟨more, rfl, hmore⟩
    · exact absurd hc List.not_mem_nil
    · rcases List.mem_cons.mp hc with rfl | hc
      · decide
      · exact hmore.not_isBlank hc
  · rcases hexponent with rfl | ⟨e, sign, more, rfl, he, hsign, hmore⟩
    · exact absurd hc List.not_mem_nil
    · rw [List.mem_cons, List.mem_append] at hc
      rcases hc with rfl | hc | hc
      · rcases he with rfl | rfl <;> decide
      · rcases hsign with rfl | rfl | rfl
        · exact absurd hc List.not_mem_nil
        · rw [List.mem_singleton.mp hc]
          decide
        · rw [List.mem_singleton.mp hc]
          decide
      · exact hmore.not_isBlank hc

/-- Only a run of blanks, a comment and a quoted text can hold a blank. -/
theorem Class.Contains.of_mem_blank {cls : Class} {text : List Char} {c : Char}
    (h : cls.Contains text) (hmem : c ∈ text) (hc : isBlank c = true) :
    cls = .whitespace ∨ cls = .comment ∨ cls = .string := by
  cases cls with
  | whitespace => exact Or.inl rfl
  | comment => exact Or.inr (Or.inl rfl)
  | string => exact Or.inr (Or.inr rfl)
  | identifier =>
    obtain ⟨d, body, rfl, hd, hbody⟩ := h
    have hpart : isNamePart c = true := by
      rcases List.mem_cons.mp hmem with rfl | hmem
      · exact isNamePart_of_isNameStart hd
      · exact hbody c hmem
    exact absurd hc (not_isBlank_of_isNamePart hpart)
  | number => exact absurd hc (not_isBlank_of_mem_number h hmem)
  | operator =>
    obtain ⟨op, hop, rfl⟩ := h
    have hnone : ∀ op ∈ operators, op.toList.any isBlank = false := by decide
    exact absurd hc (List.any_eq_false.mp (hnone op hop) c hmem)
  | punctuation =>
    obtain ⟨d, hd, rfl⟩ := h
    obtain rfl := List.mem_singleton.mp hmem
    have hnone : marks.any isBlank = false := by decide
    exact absurd hc (List.any_eq_false.mp hnone c hd)

/-- Only a run of blanks and a comment can end with a blank. -/
theorem Class.Contains.of_getLast?_blank {cls : Class} {text : List Char} {c : Char}
    (h : cls.Contains text) (hlast : text.getLast? = some c) (hc : isBlank c = true) :
    cls = .whitespace ∨ cls = .comment := by
  rcases h.of_mem_blank (List.mem_of_getLast? hlast) hc with hcls | hcls | rfl
  · exact Or.inl hcls
  · exact Or.inr hcls
  · -- a quoted text ends with its quote
    obtain ⟨q, body, rfl, hq, -⟩ := h
    rw [← List.cons_append, List.getLast?_concat] at hlast
    obtain rfl := Option.some.inj hlast
    rcases hq with rfl | rfl <;> exact absurd hc (by decide)

/-! ## Runs of characters -/

section Runs

variable {p : Char → Bool} {s text rest : List Char} {d : Char}

theorem take_runLength (p : Char → Bool) (s : List Char) :
    s.take (runLength p s) = s.takeWhile p :=
  (List.prefix_iff_eq_take.mp (List.takeWhile_prefix p)).symm

theorem runLength_le (p : Char → Bool) (s : List Char) : runLength p s ≤ s.length :=
  (List.takeWhile_prefix p).length_le

theorem of_mem_take_runLength {c : Char} (h : c ∈ s.take (runLength p s)) : p c = true := by
  rw [take_runLength] at h
  exact List.mem_takeWhile_imp h

/-- A prefix of such characters is no longer than the run. -/
theorem length_le_runLength (h : text <+: s) (hall : ∀ c ∈ text, p c = true) :
    text.length ≤ runLength p s := by
  obtain ⟨rest, rfl⟩ := h
  rw [runLength, List.takeWhile_append_of_pos hall, List.length_append]
  exact Nat.le_add_right _ _

/-- A run ends where another character stands. -/
theorem runLength_append_cons (hall : ∀ c ∈ text, p c = true) (hd : p d = false) :
    runLength p (text ++ d :: rest) = text.length := by
  rw [runLength, List.takeWhile_append_of_pos hall, List.takeWhile_cons_of_neg (by simp [hd]),
    List.append_nil]

/-- Behind a run that does not go to the end another character stands. -/
theorem exists_getElem?_runLength (h : runLength p s < s.length) :
    ∃ d, s[runLength p s]? = some d ∧ p d = false := by
  induction s with
  | nil => exact absurd h (Nat.not_lt_zero _)
  | cons c s ih =>
    by_cases hc : p c = true
    · rw [runLength, List.takeWhile_cons_of_pos hc, List.length_cons] at h ⊢
      rw [List.length_cons] at h
      rw [List.getElem?_cons_succ]
      exact ih (Nat.lt_of_succ_lt_succ h)
    · rw [runLength, List.takeWhile_cons_of_neg hc]
      exact ⟨c, rfl, Bool.eq_false_iff.mpr hc⟩

end Runs

/-! ## The longest prefix in a class -/

/-- The longest prefix of `s` that belongs to the set `P` has the length `n`, or `n` is 0 and no
    prefix but possibly the empty one belongs to it. -/
structure Reaches (P : List Char → Prop) (s : List Char) (n : Nat) : Prop where
  le_length : n ≤ s.length
  contains : 0 < n → P (s.take n)
  longest : ∀ text, text <+: s → P text → text.length ≤ n

section Reach

variable {c : Char} {s : List Char}

/-- Where no prefix belongs to the set, nothing is reached. -/
theorem Reaches.none {P : List Char → Prop} (h : ∀ text, text <+: s → ¬ P text) : Reaches P s 0 :=
  ⟨Nat.zero_le _, fun h0 => absurd h0 (Nat.lt_irrefl 0), fun text hs hP => absurd hP (h text hs)⟩

/-- What is reached belongs to the set, unless it is empty. -/
theorem Reaches.take_eq_nil_or {P : List Char → Prop} {n : Nat} (h : Reaches P s n) :
    s.take n = [] ∨ P (s.take n) := by
  rcases Nat.eq_zero_or_pos n with rfl | hpos
  · exact Or.inl rfl
  · exact Or.inr (h.contains hpos)

theorem reaches_run (p : Char → Bool) (s : List Char) :
    Reaches (fun text => text ≠ [] ∧ ∀ c ∈ text, p c = true) s (runLength p s) := by
  refine ⟨runLength_le p s, fun hpos => ⟨?_, fun c => of_mem_take_runLength⟩, ?_⟩
  · rw [← List.length_pos_iff, List.length_take_of_le (runLength_le p s)]
    exact hpos
  · rintro text hs ⟨-, hall⟩
    exact length_le_runLength hs hall

theorem reaches_comment (s : List Char) : Reaches Class.comment.Contains s (commentReach s) := by
  unfold commentReach
  split
  · next s =>
    have hle := runLength_le (· != '\n') s
    refine ⟨by simp only [List.length_cons]; omega,
      fun _ => ⟨s.take (runLength (· != '\n') s), ?_, ?_⟩, ?_⟩
    · rw [Nat.add_comm, List.take_succ_cons, List.take_succ_cons]
    · intro hmem
      exact absurd (of_mem_take_runLength hmem) (by decide)
    · rintro text hs ⟨body, rfl, hbody⟩
      have hbody' : ∀ c ∈ body, (c != '\n') = true := by
        intro c hc
        rw [bne_iff_ne]
        rintro rfl
        exact hbody hc
      have hprefix : body <+: s := by simpa [List.cons_prefix_cons] using hs
      have hlen := length_le_runLength hprefix hbody'
      simp only [List.length_cons]
      omega
  · next hno =>
    refine .none ?_
    rintro text ⟨rest, rfl⟩ ⟨body, rfl, -⟩
    exact hno _ rfl

theorem reaches_identifier (s : List Char) : Reaches Class.identifier.Contains s (nameReach s) := by
  unfold nameReach
  split
  · next c s =>
    split
    · next hc =>
      have hle := runLength_le isNamePart s
      refine ⟨by rw [List.length_cons]; omega,
        fun _ => ⟨c, s.take (runLength isNamePart s), ?_, hc, fun d => of_mem_take_runLength⟩, ?_⟩
      · rw [Nat.add_comm, List.take_succ_cons]
      · rintro text hs ⟨d, body, rfl, -, hbody⟩
        have hlen := length_le_runLength (List.cons_prefix_cons.mp hs).2 hbody
        rw [List.length_cons]
        omega
    · next hc =>
      refine .none ?_
      rintro text hs ⟨d, body, rfl, hd, -⟩
      obtain ⟨rfl, -⟩ := List.cons_prefix_cons.mp hs
      exact hc hd
  · refine .none ?_
    rintro text hs ⟨d, body, rfl, -, -⟩
    exact absurd (List.prefix_nil.mp hs) (List.cons_ne_nil _ _)

/-- A quoted text at the front closes at the first quote of its form. -/
theorem length_of_quoted {q : Char} {text : List Char} (hs : text <+: q :: s)
    (h : Class.string.Contains text) :
    (q = '"' ∨ q = '\'') ∧ runLength (· != q) s < s.length ∧
      text.length = runLength (· != q) s + 2 := by
  obtain ⟨r, body, rfl, hr, hbody⟩ := h
  obtain ⟨rfl, rest, rfl⟩ := List.cons_prefix_cons.mp hs
  have hbody' : ∀ c ∈ body, (c != r) = true := by
    intro c hc
    rw [bne_iff_ne]
    rintro rfl
    exact hbody hc
  have hrun : runLength (· != r) (body ++ [r] ++ rest) = body.length := by
    rw [List.append_assoc, List.singleton_append]
    exact runLength_append_cons hbody' (bne_self_eq_false r)
  rw [hrun]
  simp only [List.length_append, List.length_cons, List.length_nil]
  exact ⟨hr, by omega, trivial⟩

theorem reaches_string (s : List Char) : Reaches Class.string.Contains s (quotedReach s) := by
  unfold quotedReach
  split
  · next q s =>
    split
    · next hq =>
      rw [Bool.or_eq_true, beq_iff_eq, beq_iff_eq] at hq
      dsimp only
      split
      · next hlt =>
        obtain ⟨d, hs, hd⟩ := exists_getElem?_runLength hlt
        obtain rfl : d = q := by simpa using hd
        refine ⟨by rw [List.length_cons]; omega, fun _ => ⟨d, s.takeWhile (· != d), ?_, hq, ?_⟩, ?_⟩
        · rw [List.take_succ_cons, List.take_add_one, hs, take_runLength]
          rfl
        · intro hmem
          exact absurd (List.mem_takeWhile_imp hmem) (by simp)
        · intro text hs hmem
          exact Nat.le_of_eq (length_of_quoted hs hmem).2.2
      · next hlt => exact .none fun text hs hmem => hlt (length_of_quoted hs hmem).2.1
    · next hq =>
      refine .none fun text hs hmem => hq ?_
      rw [Bool.or_eq_true, beq_iff_eq, beq_iff_eq]
      exact (length_of_quoted hs hmem).1
  · refine .none ?_
    rintro text hs ⟨q, body, rfl, -, -⟩
    exact absurd (List.prefix_nil.mp hs) (List.cons_ne_nil _ _)

theorem reaches_fraction (s : List Char) : Reaches IsFraction s (fractionReach s) := by
  unfold fractionReach
  split
  · next s =>
    have hdigits := reaches_run Char.isDigit s
    dsimp only
    split
    · next h0 =>
      refine .none ?_
      rintro text hs ⟨digits, rfl, hd⟩
      have hlen := hdigits.longest digits (List.cons_prefix_cons.mp hs).2 hd
      rw [h0, Nat.le_zero, List.length_eq_zero_iff] at hlen
      exact hd.1 hlen
    · next h0 =>
      have hle := hdigits.le_length
      refine ⟨by rw [List.length_cons]; omega,
        fun _ => ⟨_, List.take_succ_cons, hdigits.contains (Nat.pos_of_ne_zero h0)⟩, ?_⟩
      rintro text hs ⟨digits, rfl, hd⟩
      have hlen := hdigits.longest digits (List.cons_prefix_cons.mp hs).2 hd
      rw [List.length_cons]
      omega
  · next hno =>
    refine .none ?_
    rintro text ⟨rest, rfl⟩ ⟨digits, rfl, -⟩
    exact hno _ rfl

/-- The length of the sign at the front of an exponent. -/
def signLength : List Char → Nat
  | c :: _ => if c == '+' || c == '-' then 1 else 0
  | [] => 0

/-- A sign with digits behind it, at the front of a text, is the sign that stands there. -/
theorem length_sign {sign digits : List Char}
    (hsign : sign = [] ∨ sign = ['+'] ∨ sign = ['-']) (hd : IsDigits digits)
    (hs : sign ++ digits <+: s) : sign.length = signLength s := by
  obtain ⟨rest, rfl⟩ := hs
  rcases hsign with rfl | rfl | rfl
  · obtain ⟨d, digits, rfl⟩ := List.exists_cons_of_ne_nil hd.1
    have hdigit := hd.2 d List.mem_cons_self
    show 0 = if _ then 1 else 0
    rw [if_neg]
    rw [Bool.or_eq_true, beq_iff_eq, beq_iff_eq]
    rintro (rfl | rfl) <;> exact absurd hdigit (by decide)
  · rfl
  · rfl

theorem take_signLength (s : List Char) :
    s.take (signLength s) = [] ∨ s.take (signLength s) = ['+'] ∨ s.take (signLength s) = ['-'] := by
  cases s with
  | nil => exact Or.inl rfl
  | cons c s =>
    rw [signLength]
    split
    · next hc =>
      rw [Bool.or_eq_true, beq_iff_eq, beq_iff_eq] at hc
      rcases hc with rfl | rfl
      · exact Or.inr (Or.inl rfl)
      · exact Or.inr (Or.inr rfl)
    · exact Or.inl rfl

theorem reaches_exponent (s : List Char) : Reaches IsExponent s (exponentReach s) := by
  unfold exponentReach
  split
  · next e s =>
    show Reaches IsExponent (e :: s) (if _ then
      if runLength Char.isDigit (s.drop (signLength s)) = 0 then 0
      else runLength Char.isDigit (s.drop (signLength s)) + signLength s + 1 else 0)
    have hdigits := reaches_run Char.isDigit (s.drop (signLength s))
    -- an exponent at the front has the sign that stands there, and digits behind that
    have hfront : ∀ text, text <+: e :: s → IsExponent text → (e = 'e' ∨ e = 'E') ∧
        runLength Char.isDigit (s.drop (signLength s)) ≠ 0 ∧
        text.length ≤ runLength Char.isDigit (s.drop (signLength s)) + signLength s + 1 := by
      rintro text hs ⟨f, sign, digits, rfl, hf, hsign, hd⟩
      obtain ⟨rfl, htail⟩ := List.cons_prefix_cons.mp hs
      have hlen := length_sign hsign hd htail
      obtain ⟨rest, rfl⟩ := htail
      have hdrop : (sign ++ digits ++ rest).drop (signLength (sign ++ digits ++ rest)) =
          digits ++ rest := by
        rw [← hlen, List.append_assoc, List.drop_left]
      rw [hdrop] at hdigits ⊢
      have hle := hdigits.longest digits (List.prefix_append _ _) hd
      have hpos := List.length_pos_iff.mpr hd.1
      rw [List.length_cons, List.length_append]
      exact ⟨hf, by omega, by omega⟩
    split
    · next he =>
      rw [Bool.or_eq_true, beq_iff_eq, beq_iff_eq] at he
      split
      · next h0 => exact .none fun text hs h => (hfront text hs h).2.1 h0
      · next h0 =>
        have hle : runLength Char.isDigit (s.drop (signLength s)) + signLength s + 1 ≤
            (e :: s).length := by
          have := hdigits.le_length
          rw [List.length_drop] at this
          rw [List.length_cons]
          omega
        refine ⟨hle, fun _ => ?_, fun text hs h => (hfront text hs h).2.2⟩
        refine ⟨e, s.take (signLength s), _, ?_, he, take_signLength s,
          hdigits.contains (Nat.pos_of_ne_zero h0)⟩
        rw [List.take_succ_cons, Nat.add_comm, List.take_add]
    · next he =>
      refine .none fun text hs h => he ?_
      rw [Bool.or_eq_true, beq_iff_eq, beq_iff_eq]
      exact (hfront text hs h).1
  · refine .none ?_
    rintro text hs ⟨e, sign, digits, rfl, -⟩
    exact absurd (List.prefix_nil.mp hs) (List.cons_ne_nil _ _)

/-- The first character of an exponent is no digit and no point. -/
theorem exists_letter_of_isExponent {text : List Char} (h : IsExponent text) :
    ∃ e more, text = e :: more ∧ e.isDigit = false ∧ e ≠ '.' := by
  obtain ⟨e, sign, digits, rfl, rfl | rfl, -⟩ := h
  · exact ⟨'e', _, rfl, by decide, by decide⟩
  · exact ⟨'E', _, rfl, by decide, by decide⟩

/-- What stands behind the digits of a number is no longer than the fraction and the exponent that
    are found there. -/
theorem length_fraction_exponent_le {fraction exponent : List Char}
    (hs : fraction ++ exponent <+: s) (hfraction : fraction = [] ∨ IsFraction fraction)
    (hexponent : exponent = [] ∨ IsExponent exponent) :
    fraction.length + exponent.length ≤
      fractionReach s + exponentReach (s.drop (fractionReach s)) := by
  rcases hexponent with rfl | hexponent
  · rw [List.append_nil] at hs
    rcases hfraction with rfl | hfraction
    · exact Nat.zero_le _
    · have hle := (reaches_fraction s).longest fraction hs hfraction
      rw [List.length_nil]
      omega
  · -- the letter of the exponent ends the fraction, or stands in its place
    have hreach : fractionReach s = fraction.length := by
      obtain ⟨e, more, rfl, he, hpoint⟩ := exists_letter_of_isExponent hexponent
      obtain ⟨rest, rfl⟩ := hs
      rcases hfraction with rfl | ⟨digits, rfl, hd⟩
      · rw [fractionReach.eq_def]
        split
        · next heq => exact absurd (List.cons.inj heq).1 hpoint
        · rfl
      · have hrun : runLength Char.isDigit (digits ++ (e :: more) ++ rest) = digits.length := by
          rw [List.append_assoc, List.cons_append]
          exact runLength_append_cons hd.2 he
        have hpos := List.length_pos_iff.mpr hd.1
        rw [List.cons_append, List.cons_append, fractionReach, hrun, List.length_cons]
        exact if_neg (by omega)
    have hbehind : exponent <+: s.drop (fractionReach s) := by
      obtain ⟨rest, rfl⟩ := hs
      rw [hreach, List.append_assoc, List.drop_left]
      exact List.prefix_append _ _
    have hle := (reaches_exponent _).longest exponent hbehind hexponent
    omega

/-- Behind the digits of a number stands no further digit. -/
theorem runLength_number {digits fraction exponent : List Char} (hdigits : IsDigits digits)
    (hs : digits ++ (fraction ++ exponent) <+: s) (hfraction : fraction = [] ∨ IsFraction fraction)
    (hexponent : exponent = [] ∨ IsExponent exponent) (hne : fraction ++ exponent ≠ []) :
    runLength Char.isDigit s = digits.length := by
  obtain ⟨rest, rfl⟩ := hs
  obtain ⟨c, more, hmore, hnot⟩ : ∃ c more, fraction ++ exponent = c :: more ∧
      c.isDigit = false := by
    rcases hfraction with rfl | ⟨_, rfl, -⟩
    · rcases hexponent with rfl | hexponent
      · exact absurd rfl hne
      · obtain ⟨e, more, rfl, hnot, -⟩ := exists_letter_of_isExponent hexponent
        exact ⟨e, more, rfl, hnot⟩
    · exact ⟨'.', _, rfl, by decide⟩
  rw [List.append_assoc, hmore, List.cons_append]
  exact runLength_append_cons hdigits.2 hnot

/-- A number at the front of a text is no longer than the digits, the fraction and the exponent that
    are found there. -/
theorem length_number_le {digits fraction exponent : List Char} (hdigits : IsDigits digits)
    (hs : digits ++ (fraction ++ exponent) <+: s) (hfraction : fraction = [] ∨ IsFraction fraction)
    (hexponent : exponent = [] ∨ IsExponent exponent) :
    digits.length + (fraction.length + exponent.length) ≤
      runLength Char.isDigit s + (fractionReach (s.drop (runLength Char.isDigit s)) +
        exponentReach (s.drop (runLength Char.isDigit s +
          fractionReach (s.drop (runLength Char.isDigit s))))) := by
  have hlen := (reaches_run Char.isDigit s).longest digits
    ((List.prefix_append _ _).trans hs) hdigits
  by_cases hnil : fraction ++ exponent = []
  · have hzero := congrArg List.length hnil
    rw [List.length_append, List.length_nil] at hzero
    omega
  · have hrun := runLength_number hdigits hs hfraction hexponent hnil
    have hbehind : fraction ++ exponent <+: s.drop (runLength Char.isDigit s) := by
      obtain ⟨rest, rfl⟩ := hs
      rw [hrun, List.append_assoc, List.drop_left]
      exact List.prefix_append _ _
    have hle := length_fraction_exponent_le hbehind hfraction hexponent
    rw [List.drop_drop] at hle
    omega

theorem reaches_number (s : List Char) : Reaches Class.number.Contains s (numberReach s) := by
  have hdigits := reaches_run Char.isDigit s
  have hfraction := reaches_fraction (s.drop (runLength Char.isDigit s))
  have hexponent := reaches_exponent (s.drop (runLength Char.isDigit s +
    fractionReach (s.drop (runLength Char.isDigit s))))
  unfold numberReach
  dsimp only
  split
  · next h0 =>
    refine .none ?_
    rintro text hs ⟨digits, fraction, exponent, rfl, hd, -⟩
    have hlen := hdigits.longest digits ((List.prefix_append _ _).trans hs) hd
    rw [h0, Nat.le_zero, List.length_eq_zero_iff] at hlen
    exact hd.1 hlen
  · next h0 =>
    refine ⟨?_, fun _ => ?_, ?_⟩
    · have hle := hdigits.le_length
      have hfle := hfraction.le_length
      have hele := hexponent.le_length
      rw [List.length_drop] at hfle hele
      omega
    · refine ⟨_, _, _, ?_, hdigits.contains (Nat.pos_of_ne_zero h0), hfraction.take_eq_nil_or,
        hexponent.take_eq_nil_or⟩
      rw [List.take_add, List.take_add, List.append_assoc]
    · rintro text hs ⟨digits, fraction, exponent, rfl, hd, hf, he⟩
      have hle := length_number_le hd hs hf he
      rw [List.length_append, List.length_append]
      omega

/-- An operator is one of the pairs or one of the single characters. -/
theorem toList_of_mem_operators {op : String} (h : op ∈ operators) :
    (∃ p ∈ operatorPairs, op.toList = [p.1, p.2]) ∨ ∃ c ∈ operatorSingles, op.toList = [c] := by
  have hforms : ∀ op ∈ operators, (∃ p ∈ operatorPairs, op.toList = [p.1, p.2]) ∨
      op.toList ∈ operatorSingles.map List.singleton := by decide
  refine (hforms op h).imp_right fun hsingle => ?_
  obtain ⟨c, hc, heq⟩ := List.mem_map.mp hsingle
  exact ⟨c, hc, heq.symm⟩

theorem contains_operator_of_mem_pairs {p : Char × Char} (h : p ∈ operatorPairs) :
    Class.operator.Contains [p.1, p.2] := by
  have hpairs : ∀ p ∈ operatorPairs, ∃ op ∈ operators, [p.1, p.2] = op.toList := by decide
  exact hpairs p h

theorem contains_operator_of_mem_singles (h : c ∈ operatorSingles) :
    Class.operator.Contains [c] := by
  have hsingles : ∀ text ∈ operatorSingles.map List.singleton,
      ∃ op ∈ operators, text = op.toList := by decide
  exact hsingles [c] (List.mem_map_of_mem h)

theorem reaches_operator (s : List Char) : Reaches Class.operator.Contains s (operatorReach s) := by
  unfold operatorReach
  split
  · next c s =>
    split
    · next hpair =>
      obtain ⟨d, hd, hmem⟩ := (Option.any_eq_true _ _).mp hpair
      obtain ⟨rest, rfl⟩ := List.head?_eq_some_iff.mp hd
      refine ⟨by simp, fun _ => contains_operator_of_mem_pairs (List.contains_iff_mem.mp hmem), ?_⟩
      rintro text hs ⟨op, hop, rfl⟩
      rcases toList_of_mem_operators hop with ⟨p, -, heq⟩ | ⟨a, -, heq⟩ <;> rw [heq] <;> simp
    · next hpair =>
      -- no operator of two characters stands here
      have hone : ∀ op ∈ operators, op.toList <+: c :: s →
          op.toList.length = 1 ∧ operatorSingles.contains c = true := by
        intro op hop hs
        rcases toList_of_mem_operators hop with ⟨⟨a, b⟩, hmem, heq⟩ | ⟨a, hmem, heq⟩ <;>
          rw [heq] at hs ⊢
        · obtain ⟨rfl, rest, rfl⟩ := List.cons_prefix_cons.mp hs
          refine absurd ?_ hpair
          exact (Option.any_eq_true _ _).mpr ⟨b, rfl, List.contains_iff_mem.mpr hmem⟩
        · obtain ⟨rfl, -⟩ := List.cons_prefix_cons.mp hs
          exact ⟨rfl, List.contains_iff_mem.mpr hmem⟩
      split
      · next hc =>
        refine ⟨by simp, fun _ => contains_operator_of_mem_singles (List.contains_iff_mem.mp hc), ?_⟩
        rintro text hs ⟨op, hop, rfl⟩
        exact Nat.le_of_eq (hone op hop hs).1
      · next hc =>
        refine .none ?_
        rintro text hs ⟨op, hop, rfl⟩
        exact hc (hone op hop hs).2
  · refine .none ?_
    rintro text hs ⟨op, hop, rfl⟩
    rcases toList_of_mem_operators hop with ⟨p, -, heq⟩ | ⟨c, -, heq⟩ <;> rw [heq] at hs <;>
      exact absurd (List.prefix_nil.mp hs) (List.cons_ne_nil _ _)

theorem reaches_punctuation (s : List Char) :
    Reaches Class.punctuation.Contains s (markReach s) := by
  unfold markReach
  split
  · next c s =>
    split
    · next hc =>
      refine ⟨by simp, fun _ => ⟨c, List.contains_iff_mem.mp hc, rfl⟩, ?_⟩
      rintro text hs ⟨d, -, rfl⟩
      exact Nat.le_refl _
    · next hc =>
      refine .none ?_
      rintro text hs ⟨d, hd, rfl⟩
      obtain ⟨rfl, -⟩ := List.cons_prefix_cons.mp hs
      exact hc (List.contains_iff_mem.mpr hd)
  · refine .none ?_
    rintro text hs ⟨d, -, rfl⟩
    exact absurd (List.prefix_nil.mp hs) (List.cons_ne_nil _ _)

/-- **The reach of a class is the length of its longest prefix.** -/
theorem reaches_reach (cls : Class) (s : List Char) : Reaches cls.Contains s (cls.reach s) := by
  cases cls with
  | whitespace => exact reaches_run isBlank s
  | comment => exact reaches_comment s
  | identifier => exact reaches_identifier s
  | string => exact reaches_string s
  | number => exact reaches_number s
  | operator => exact reaches_operator s
  | punctuation => exact reaches_punctuation s

end Reach

end BraceLang.Lexeme
