import BraceLang.Proofs.Token.Tiling

/-!
# `Proofs.Token.Context` — what a piece asks of the text behind it

The longest match looks as far ahead as a lexeme can go, and a quoted text can go over any number of lines.
So the piece at the front of a text could depend on all of the text. Here the two sides are taken apart: what
a piece is by itself, and that no lexeme goes on from it into the text behind it. The second is all that a
piece asks of that text, so the text may be replaced by any other that keeps it.

A blank ends every piece that becomes a token, with one exception. A quote is in error because its partner is
missing, and behind a blank the partner may follow.

## Contents
- `IsPiece` and `EndsBefore`, with **`decidedBy_append_iff`**.
- `pieces_append` and `pieces_induction`, a text piece by piece.
- `Scan.tokensAt`, with `tokensAt_append` and **`tokensAt_blanks`**.
- `IsPiece.endsBefore_blank` and `EndsBefore.lineFeed`: which pieces end before a blank.
-/

namespace BraceLang

open Lexeme

variable {text rest behind more blanks : List Char} {kind? : Option Token.Kind} {kind : Token.Kind}
  {c d q : Char}

/-! ## A piece and the text behind it -/

/-- What a piece is by itself: a lexeme, which has the kind of its class, or a character in error, which is
    no lexeme. -/
inductive IsPiece : List Char → Option Token.Kind → Prop
  | lexeme {cls : Lexeme.Class} {text : List Char} (h : cls.Contains text) :
    IsPiece text (Token.Kind.ofLexeme? cls text)
  | error {c : Char} (h : ∀ cls : Lexeme.Class, ¬ cls.Contains [c]) : IsPiece [c] (some .error)

/-- No lexeme that begins where `text` does goes beyond it into `rest`. -/
def EndsBefore (text rest : List Char) : Prop :=
  ∀ front, front <+: text ++ rest → ∀ cls : Lexeme.Class, cls.Contains front → front <+: text

/-- **The longest match asks no more of the text behind a piece than that the piece ends before it.** -/
theorem decidedBy_append_iff :
    DecidedBy (text ++ rest) text kind? ↔ IsPiece text kind? ∧ EndsBefore text rest := by
  constructor
  · intro h
    by_cases hfront : ∃ front, front <+: text ++ rest ∧ ∃ cls : Lexeme.Class, cls.Contains front
    · obtain ⟨hlongest, hkind⟩ := h.lexeme hfront
      obtain ⟨cls, hcls⟩ := hlongest.lexeme
      rw [hkind cls hcls]
      refine ⟨.lexeme hcls, ?_⟩
      intro front hfront other hother
      exact List.prefix_of_prefix_length_le hfront hlongest.front
        (hlongest.longest front hfront ⟨other, hother⟩)
    · obtain ⟨htext, hlen, rfl⟩ := h.error hfront
      obtain ⟨c, rfl⟩ := List.length_eq_one_iff.mp hlen
      constructor
      · exact .error fun cls hcls => hfront ⟨_, htext, cls, hcls⟩
      · intro front hprefix cls hcls
        exact absurd ⟨front, hprefix, cls, hcls⟩ hfront
  · rintro ⟨hpiece, hends⟩
    cases hpiece with
    | @lexeme cls _ hcls =>
      refine ⟨fun _ => ⟨⟨List.prefix_append text rest, ⟨cls, hcls⟩, ?_⟩, ?_⟩, ?_⟩
      · rintro front hfront ⟨other, hother⟩
        exact (hends front hfront other hother).length_le
      · intro other hother
        rw [hcls.unique hother]
      · intro hno
        exact absurd ⟨text, List.prefix_append text rest, cls, hcls⟩ hno
    | @error c hno =>
      refine ⟨?_, fun _ => ⟨List.prefix_append [c] rest, rfl, rfl⟩⟩
      rintro ⟨front, hfront, cls, hcls⟩
      obtain ⟨e, front, rfl⟩ := List.exists_cons_of_ne_nil hcls.ne_nil
      obtain ⟨rfl, hnil⟩ := List.cons_prefix_cons.mp (hends _ hfront cls hcls)
      rw [List.prefix_nil.mp hnil] at hcls
      exact absurd hcls (hno cls)

/-- The longest match decides one piece only. -/
theorem DecidedBy.unique {other : List Char} {otherKind? : Option Token.Kind}
    (h : DecidedBy rest text kind?) (h' : DecidedBy rest other otherKind?) :
    text = other ∧ kind? = otherKind? := by
  have heq {front front' : List Char} (hf : front <+: rest) (hf' : front' <+: rest)
      (hlen : front.length = front'.length) : front = front' :=
    (List.prefix_of_prefix_length_le hf hf' (Nat.le_of_eq hlen)).eq_of_length hlen
  by_cases hfront : ∃ front, front <+: rest ∧ ∃ cls : Lexeme.Class, cls.Contains front
  · obtain ⟨hlongest, hkind⟩ := h.lexeme hfront
    obtain ⟨hlongest', hkind'⟩ := h'.lexeme hfront
    obtain rfl := heq hlongest.front hlongest'.front (Nat.le_antisymm
      (hlongest'.longest text hlongest.front hlongest.lexeme)
      (hlongest.longest other hlongest'.front hlongest'.lexeme))
    obtain ⟨cls, hcls⟩ := hlongest.lexeme
    exact ⟨rfl, (hkind cls hcls).trans (hkind' cls hcls).symm⟩
  · obtain ⟨htext, hlen, rfl⟩ := h.error hfront
    obtain ⟨hother, hlen', rfl⟩ := h'.error hfront
    exact ⟨heq htext hother (hlen.trans hlen'.symm), rfl⟩

namespace IsPiece

theorem ne_nil (h : IsPiece text kind?) : text ≠ [] := by
  cases h with
  | lexeme hcls => exact hcls.ne_nil
  | error => exact List.cons_ne_nil _ _

/-- A piece that is a lexeme has the kind of its class. -/
theorem kind_eq {cls : Lexeme.Class} (h : IsPiece text kind?) (hcls : cls.Contains text) :
    kind? = Token.Kind.ofLexeme? cls text := by
  cases h with
  | lexeme hother => rw [hother.unique hcls]
  | error hno => exact absurd hcls (hno cls)

end IsPiece

/-! ## A text piece by piece -/

/-- A piece that ends before a text is cut off in front of it. -/
theorem pieces_append (hpiece : IsPiece text kind?) (hends : EndsBefore text rest) :
    ∃ p : Piece, p.text = text ∧ p.kind? = kind? ∧ pieces (text ++ rest) = p :: pieces rest := by
  obtain ⟨c, s, hs⟩ := List.exists_cons_of_ne_nil (List.append_ne_nil_of_left_ne_nil hpiece.ne_nil rest)
  have hdecided := decidedBy_append_iff.mpr ⟨hpiece, hends⟩
  rw [hs] at hdecided
  obtain ⟨htext, hkind⟩ := (Piece.first_decidedBy c s).unique hdecided
  refine ⟨Piece.first c s, htext, hkind, ?_⟩
  rw [hs, pieces, htext, ← hs, List.drop_left]

/-- Every text is made of pieces, each of which ends before the pieces behind it. -/
@[elab_as_elim]
theorem pieces_induction {motive : List Char → Prop} (nil : motive [])
    (append : ∀ text rest kind?, IsPiece text kind? → EndsBefore text rest → motive rest →
      motive (text ++ rest)) (s : List Char) : motive s := by
  fun_induction pieces s with
  | case1 => exact nil
  | case2 c s p ih =>
    have hdecided := Piece.first_decidedBy c s
    rw [← Piece.first_text_append c s] at hdecided ⊢
    obtain ⟨hpiece, hends⟩ := decidedBy_append_iff.mp hdecided
    exact append _ _ _ hpiece hends ih

namespace Scan

variable {position : Position} {offset : Nat}

/-- The tokens of a text of which the first character stands at `position` and at the byte `offset`. -/
def tokensAt (position : Position) (offset : Nat) (s : List Char) : List Token :=
  (ofPieces position offset (pieces s)).tokens

theorem tokens_tokenize (source : String) :
    (tokenize source).tokens = tokensAt Position.first 0 source.toList := rfl

theorem tokensAt_nil (position : Position) (offset : Nat) : tokensAt position offset [] = [] := by
  rw [tokensAt, pieces]
  rfl

/-- A piece that ends before a text comes in front of the tokens of the text, unless it is skipped. -/
theorem tokensAt_append (hpiece : IsPiece text kind?) (hends : EndsBefore text rest) :
    tokensAt position offset (text ++ rest) =
      (kind?.map fun kind => Token.mk kind (String.ofList text) position
        ⟨offset, offset + byteLength text⟩).toList ++
      tokensAt (position.after text) (offset + byteLength text) rest := by
  obtain ⟨p, rfl, rfl, hpieces⟩ := pieces_append hpiece hends
  rw [tokensAt, hpieces, ofPieces]
  cases p.kind? <;> rfl

end Scan

/-! ## Blanks -/

namespace Lexeme

/-- The characters that open a quoted text and close it. -/
def IsQuote (c : Char) : Prop := c = '"' ∨ c = '\''

theorem IsQuote.not_isBlank (h : IsQuote c) : ¬ isBlank c = true := by
  rcases h with rfl | rfl <;> decide

/-- A lexeme belongs to the class that its first character tells, unless that is an operator. -/
theorem Class.Contains.eq_classOfStart {cls : Class} (h : cls.Contains text)
    (hhead : text.head? = some c) (hc : classOfStart c ≠ .operator) : cls = classOfStart c := by
  have hstart := h.map_head?
  rw [hhead, Option.map_some] at hstart
  by_cases hcomment : cls = .comment
  · rw [if_pos hcomment] at hstart
    exact absurd (Option.some.inj hstart) hc
  · rw [if_neg hcomment] at hstart
    exact (Option.some.inj hstart).symm

/-- What begins with a blank and is a lexeme is a run of blanks. -/
theorem Class.Contains.whitespace_of_head? {cls : Class} (h : cls.Contains text)
    (hhead : text.head? = some c) (hc : isBlank c = true) : cls = .whitespace := by
  have hstart : classOfStart c = .whitespace := by
    rw [classOfStart, if_pos hc]
  rw [← hstart]
  exact h.eq_classOfStart hhead (by rw [hstart]; exact Class.noConfusion)

/-- The front of a comment up to a character in its body is a comment. -/
theorem Class.Contains.comment_of_append (h : Class.comment.Contains (text ++ d :: more))
    (hne : text ≠ []) (hd : d ≠ '/') : Class.comment.Contains text := by
  obtain ⟨body, heq, hbody⟩ := h
  match text, hne with
  | [a], _ =>
    obtain ⟨-, heq⟩ := List.cons.inj heq
    exact absurd (List.cons.inj heq).1 hd
  | a :: b :: inner, _ =>
    obtain ⟨ha, heq⟩ := List.cons.inj heq
    obtain ⟨hb, heq⟩ := List.cons.inj heq
    refine ⟨inner, by rw [ha, hb], fun hmem => hbody ?_⟩
    rw [← show inner ++ d :: more = body from heq]
    exact List.mem_append_left _ hmem

/-- What begins with a quote and is a lexeme is a quoted text. -/
theorem Class.Contains.string_of_head? {cls : Class} (h : cls.Contains text)
    (hhead : text.head? = some c) (hc : IsQuote c) : cls = .string := by
  have hstart : classOfStart c = .string := by
    rcases hc with rfl | rfl <;> decide
  rw [← hstart]
  exact h.eq_classOfStart hhead (by rw [hstart]; exact Class.noConfusion)

end Lexeme

/-- What goes beyond a text into what is behind it takes its first character. -/
theorem prefix_append_cons_cases {front : List Char} (h : front <+: text ++ d :: rest) :
    front <+: text ∨ ∃ more, front = text ++ d :: more ∧ more <+: rest := by
  rcases List.prefix_or_prefix_of_prefix h (List.prefix_append text _) with hin | ⟨beyond, rfl⟩
  · exact Or.inl hin
  · cases beyond with
    | nil =>
      rw [List.append_nil]
      exact Or.inl (List.prefix_refl text)
    | cons e more =>
      obtain ⟨rfl, hmore⟩ := List.cons_prefix_cons.mp ((List.prefix_append_right_inj text).mp h)
      exact Or.inr ⟨more, rfl, hmore⟩

/-- A run of blanks ends before a text that begins with no blank. -/
theorem endsBefore_of_blanks (htext : Lexeme.Class.whitespace.Contains text)
    (hrest : ∀ c, rest.head? = some c → ¬ isBlank c = true) : EndsBefore text rest := by
  intro front hfront cls hcls
  cases rest with
  | nil => rwa [List.append_nil] at hfront
  | cons d rest =>
    rcases prefix_append_cons_cases hfront with hin | ⟨more, rfl, -⟩
    · exact hin
    · obtain ⟨c, s, rfl⟩ := List.exists_cons_of_ne_nil htext.1
      obtain rfl := hcls.whitespace_of_head? rfl (htext.2 c List.mem_cons_self)
      exact absurd (hcls.2 d (List.mem_append_right _ List.mem_cons_self)) (hrest d rfl)

namespace Scan

variable {position : Position} {offset : Nat}

/-- A whole run of blanks at the front of a text only moves its tokens. -/
theorem tokensAt_blankRun (hblanks : ∀ c ∈ blanks, isBlank c = true)
    (hrest : ∀ c, rest.head? = some c → ¬ isBlank c = true) :
    tokensAt position offset (blanks ++ rest) =
      tokensAt (position.after blanks) (offset + byteLength blanks) rest := by
  by_cases hne : blanks = []
  · rw [hne]
    rfl
  · have hrun : Lexeme.Class.whitespace.Contains blanks := ⟨hne, hblanks⟩
    exact tokensAt_append (.lexeme hrun) (endsBefore_of_blanks hrun hrest)

/-- So do some blanks at the front of a text, which may be a part of a longer run. -/
theorem tokensAt_blanks {s : List Char} (hblanks : ∀ c ∈ blanks, isBlank c = true) :
    tokensAt position offset (blanks ++ s) =
      tokensAt (position.after blanks) (offset + byteLength blanks) s := by
  -- the run goes on with the blanks at the front of `s`
  have hs := List.takeWhile_append_dropWhile (p := isBlank) (l := s)
  have hinner : ∀ c ∈ s.takeWhile isBlank, isBlank c = true := fun c => List.mem_takeWhile_imp
  have hbehind : ∀ c, (s.dropWhile isBlank).head? = some c → ¬ isBlank c = true := by
    intro c hc hblank
    have hnot := List.head?_dropWhile_not isBlank s
    rw [hc] at hnot
    exact absurd hblank (by simpa using hnot)
  have hall : ∀ c ∈ blanks ++ s.takeWhile isBlank, isBlank c = true :=
    List.forall_mem_append.mpr ⟨hblanks, hinner⟩
  rw [← hs, ← List.append_assoc, tokensAt_blankRun hall hbehind, tokensAt_blankRun hinner hbehind,
    Position.after_append, byteLength_append, Nat.add_assoc]

end Scan

namespace IsPiece

/-- A piece that becomes a token is no front of a run of blanks. -/
theorem not_contains_whitespace (h : IsPiece text (some kind)) (more : List Char) :
    ¬ Lexeme.Class.whitespace.Contains (text ++ more) := by
  rintro ⟨-, hall⟩
  have htext : Lexeme.Class.whitespace.Contains text :=
    ⟨h.ne_nil, fun c hc => hall c (List.mem_append_left more hc)⟩
  nomatch h.kind_eq htext

/-- A piece that is the front of a longer quoted text is its quote alone. -/
theorem exists_quote (h : IsPiece text kind?) (hne : more ≠ [])
    (hstring : Lexeme.Class.string.Contains (text ++ more)) : ∃ q, text = [q] ∧ IsQuote q ∧ q ∈ more := by
  obtain ⟨q, s, hs⟩ := List.exists_cons_of_ne_nil h.ne_nil
  cases h with
  | @error c hno =>
    obtain ⟨r, body, heq, hr, -⟩ := hstring
    obtain ⟨rfl, rfl⟩ := List.cons.inj heq
    exact ⟨c, rfl, hr, List.mem_append_right _ List.mem_cons_self⟩
  | @lexeme cls _ hcls =>
    -- a lexeme that begins with a quote is a quoted text, and that ends at the next quote
    rw [hs] at hcls hstring
    have hq := (length_of_quoted (List.prefix_refl (q :: s ++ more)) hstring).1
    obtain rfl := hcls.string_of_head? rfl hq
    have hlen := (length_of_quoted (List.prefix_append (q :: s) more) hcls).2.2
    have hlen' := (length_of_quoted (List.prefix_refl (q :: s ++ more)) hstring).2.2
    have hpos := List.length_pos_iff.mpr hne
    have hsame := hlen'.trans hlen.symm
    rw [List.length_append] at hsame
    omega

/-- A quote that is a piece by itself is in error. -/
theorem kind_of_quote (h : IsPiece [q] kind?) (hq : IsQuote q) : kind? = some .error := by
  generalize hs : [q] = s at h
  cases h with
  | error => rfl
  | @lexeme cls _ hcls =>
    obtain rfl := hcls.string_of_head? (by rw [← hs]; rfl) hq
    obtain ⟨r, body, heq, -⟩ := hcls
    have hlen := congrArg List.length (hs.trans heq)
    simp at hlen

/-- **A piece that becomes a token ends before a blank**, unless it is a quote of which the partner
    follows. -/
theorem endsBefore_blank (h : IsPiece text (some kind)) (hd : isBlank d = true)
    (hquote : ∀ q, text = [q] → IsQuote q → q ∉ rest) : EndsBefore text (d :: rest) := by
  intro front hfront cls hcls
  rcases prefix_append_cons_cases hfront with hin | ⟨more, rfl, hmore⟩
  · exact hin
  rcases hcls.of_mem_blank (List.mem_append_right text List.mem_cons_self) hd with rfl | rfl | rfl
  · exact absurd hcls (h.not_contains_whitespace _)
  · have hslash : d ≠ '/' := by
      rintro rfl
      exact absurd hd (by decide)
    have hcomment := hcls.comment_of_append h.ne_nil hslash
    nomatch h.kind_eq hcomment
  · obtain ⟨q, rfl, hq, hmem⟩ := h.exists_quote (List.cons_ne_nil d more) hcls
    rcases List.mem_cons.mp hmem with rfl | hmem
    · exact absurd hd hq.not_isBlank
    · exact absurd (hmore.subset hmem) (hquote q rfl hq)

end IsPiece

/-- **A piece that ends before a text also does if a line feed and anything else is put behind the text**,
    unless it is a quote, or a run of blanks with no text behind it. -/
theorem EndsBefore.lineFeed (hends : EndsBefore text behind) (hpiece : IsPiece text kind?)
    (hquote : ∀ q, text = [q] → ¬ IsQuote q)
    (hblank : Lexeme.Class.whitespace.Contains text → behind ≠ []) (rest : List Char) :
    EndsBefore text (behind ++ '\n' :: rest) := by
  intro front hfront cls hcls
  rw [← List.append_assoc] at hfront
  rcases prefix_append_cons_cases hfront with hin | ⟨more, rfl, -⟩
  · exact hends front hin cls hcls
  have hfeed : '\n' ∈ text ++ behind ++ '\n' :: more := List.mem_append_right _ List.mem_cons_self
  rcases hcls.of_mem_blank hfeed (by decide) with rfl | rfl | rfl
  · -- the blanks in front of the line feed are a run that goes beyond the piece
    obtain ⟨-, hall⟩ := hcls
    have hrun : Lexeme.Class.whitespace.Contains (text ++ behind) :=
      ⟨List.append_ne_nil_of_left_ne_nil hpiece.ne_nil behind,
        fun c hc => hall c (List.mem_append_left _ hc)⟩
    have htext : Lexeme.Class.whitespace.Contains text :=
      ⟨hpiece.ne_nil, fun c hc => hrun.2 c (List.mem_append_left _ hc)⟩
    have hlen := (hends _ (List.prefix_refl _) .whitespace hrun).length_le
    have hpos := List.length_pos_iff.mpr (hblank htext)
    rw [List.length_append] at hlen
    omega
  · obtain ⟨body, heq, hbody⟩ := hcls
    rw [heq] at hfeed
    simp [hbody] at hfeed
  · rw [List.append_assoc] at hcls
    obtain ⟨q, hq, hquoted, -⟩ := hpiece.exists_quote (by simp) hcls
    exact absurd hquoted (hquote q hq)

end BraceLang
