import BraceLang.Token.Lexer
import BraceLang.Proofs.Token.LexemeClass

/-!
# `Proofs.Token.LongestMatch` — every piece is the longest lexeme where it begins

The lexer asks each class how far it reaches and takes the class that reaches furthest. Here what it
takes is described with the texts of the classes alone: the piece at a place is the longest front of
the rest of the source that belongs to some class, it has the kind of that class, and only where no
front belongs to any class it is a single character in error.

A scan keeps no pieces, so the pieces are first given the places where they stand; the tokens and
the trivia of a scan are then two parts of that list.

## Contents
- `IsLongest`, and `longest?_eq_some_iff`, `longest?_eq_none_iff`: what `longest?` finds.
- `Token.Kind.ofLexeme?` and `DecidedBy`, with **`Piece.first_decidedBy`**.
- `PlacedPiece` and `placed`, with `tokens_ofPieces` and `trivia_ofPieces`.
- **`Scan.tokenize_longestMatch`**: longest match for every token and every trivia span of a source.
-/

namespace BraceLang

namespace Lexeme

/-! ## What the longest match finds -/

/-- `text` is the longest front of `rest` that belongs to a class. -/
structure IsLongest (rest text : List Char) : Prop where
  front : text <+: rest
  lexeme : ∃ cls : Class, cls.Contains text
  longest : ∀ other, other <+: rest → (∃ cls : Class, cls.Contains other) →
    other.length ≤ text.length

/-- The length of a match; no match has none. -/
def matchLength (found : Option (Class × Nat)) : Nat := (found.map (·.2)).getD 0

theorem matchLength_better (s : List Char) (found : Option (Class × Nat)) (cls : Class) :
    matchLength (better s found cls) = max (matchLength found) (cls.reach s) := by
  rw [better]
  split
  · next hlt => exact (Nat.max_eq_right (Nat.le_of_lt hlt)).symm
  · next hge => exact (Nat.max_eq_left (Nat.le_of_not_lt hge)).symm

/-- No class reaches further than the longest match. -/
theorem reach_le_longest? (s : List Char) (cls : Class) :
    cls.reach s ≤ matchLength (longest? s) := by
  have hfold : ∀ (classes : List Class) (found : Option (Class × Nat)),
      matchLength found ≤ matchLength (classes.foldl (better s) found) ∧
      ∀ c ∈ classes, c.reach s ≤ matchLength (classes.foldl (better s) found) := by
    intro classes
    induction classes with
    | nil => exact fun found => ⟨Nat.le_refl _, fun c hc => absurd hc List.not_mem_nil⟩
    | cons c classes ih =>
      intro found
      obtain ⟨hfound, hclasses⟩ := ih (better s found c)
      rw [matchLength_better, Nat.max_le] at hfound
      refine ⟨hfound.1, fun d hd => ?_⟩
      rcases List.mem_cons.mp hd with rfl | hd
      · exact hfound.2
      · exact hclasses d hd
  have hall : cls ∈ Class.all := by cases cls <;> decide
  exact (hfold Class.all none).2 cls hall

theorem Class.Contains.ne_nil {cls : Class} {text : List Char} (h : cls.Contains text) :
    text ≠ [] := by
  rintro rfl
  exact absurd h.map_head? (by simp)

/-- A match is the longest lexeme, with its class and its length. -/
theorem isLongest_of_longest? {s : List Char} {cls : Class} {n : Nat}
    (h : longest? s = some (cls, n)) : IsLongest s (s.take n) ∧ cls.Contains (s.take n) := by
  obtain ⟨rfl, hpos⟩ := longest?_pos h
  have hreach := reaches_reach cls s
  have hcontains := hreach.contains hpos
  refine ⟨⟨List.take_prefix _ _, ⟨cls, hcontains⟩, ?_⟩, hcontains⟩
  rintro other hother ⟨d, hd⟩
  rw [List.length_take_of_le hreach.le_length]
  have hle := reach_le_longest? s d
  rw [h] at hle
  exact Nat.le_trans ((reaches_reach d s).longest other hother hd) hle

/-- Where nothing is matched, no front is a lexeme. -/
theorem longest?_eq_none_iff {s : List Char} :
    longest? s = none ↔ ∀ text, text <+: s → ∀ cls : Class, ¬ cls.Contains text := by
  constructor
  · intro h text hs cls hcls
    have hle := reach_le_longest? s cls
    rw [h] at hle
    have hlen := Nat.le_trans ((reaches_reach cls s).longest text hs hcls) hle
    exact hcls.ne_nil (List.length_eq_zero_iff.mp (Nat.le_zero.mp hlen))
  · intro hno
    cases h : longest? s with
    | none => rfl
    | some found =>
      obtain ⟨cls, n⟩ := found
      obtain ⟨hlongest, hcls⟩ := isLongest_of_longest? h
      exact absurd hcls (hno _ hlongest.front _)

/-- The longest match is the one lexeme that no other front exceeds. -/
theorem longest?_eq_some_iff {s : List Char} {cls : Class} {n : Nat} :
    longest? s = some (cls, n) ↔
      ∃ text, IsLongest s text ∧ cls.Contains text ∧ text.length = n := by
  constructor
  · intro h
    obtain ⟨hlongest, hcls⟩ := isLongest_of_longest? h
    obtain ⟨rfl, -⟩ := longest?_pos h
    exact ⟨_, hlongest, hcls, List.length_take_of_le (reaches_reach cls s).le_length⟩
  · rintro ⟨text, htext, hcls, rfl⟩
    cases h : longest? s with
    | none => exact absurd hcls (longest?_eq_none_iff.mp h text htext.front cls)
    | some found =>
      obtain ⟨found, n⟩ := found
      obtain ⟨hlongest, hfound⟩ := isLongest_of_longest? h
      obtain ⟨hn, -⟩ := longest?_pos h
      have hle : n ≤ s.length := hn ▸ (reaches_reach found s).le_length
      -- both are longest, so they are of one length, and both are fronts, so they are the same text
      have hlen := Nat.le_antisymm (hlongest.longest text htext.front htext.lexeme)
        (htext.longest _ hlongest.front hlongest.lexeme)
      have heq : text = s.take n := (List.prefix_of_prefix_length_le htext.front hlongest.front
        (Nat.le_of_eq hlen)).eq_of_length hlen
      rw [← heq] at hfound
      rw [hcls.unique hfound, heq, List.length_take_of_le hle]

end Lexeme

/-! ## Pieces and the longest match -/

/-- The kind of token that a lexeme of a class becomes. Blanks and comments become none, and a name
    in the table of keywords becomes a keyword. -/
def Token.Kind.ofLexeme? (cls : Lexeme.Class) (text : List Char) : Option Token.Kind :=
  match cls with
  | .whitespace | .comment => none
  | .identifier => some (if String.ofList text ∈ Keyword.all then .keyword else .identifier)
  | .string => some .string
  | .number => some .number
  | .operator => some .operator
  | .punctuation => some .punctuation

/-- The longest match decides the piece at the front of `rest`: its `text`, and the kind of its
    token, which a piece that is skipped has not. -/
structure DecidedBy (rest text : List Char) (kind? : Option Token.Kind) : Prop where
  /-- If some front is a lexeme, the piece is the longest of them. -/
  lexeme : (∃ front, front <+: rest ∧ ∃ cls : Lexeme.Class, cls.Contains front) →
    Lexeme.IsLongest rest text ∧
    ∀ cls : Lexeme.Class, cls.Contains text → kind? = Token.Kind.ofLexeme? cls text
  /-- If none is, the piece is one character in error. -/
  error : (¬ ∃ front, front <+: rest ∧ ∃ cls : Lexeme.Class, cls.Contains front) →
    text <+: rest ∧ text.length = 1 ∧ kind? = some .error

/-- **The longest match decides the first piece of a text.** -/
theorem Piece.first_decidedBy (c : Char) (s : List Char) :
    DecidedBy (c :: s) (first c s).text (first c s).kind? := by
  rw [first]
  split
  · next cls n h =>
    obtain ⟨hlongest, hcls⟩ := Lexeme.isLongest_of_longest? h
    refine ⟨fun _ => ⟨hlongest, fun d hd => ?_⟩,
      fun hno => absurd ⟨_, hlongest.front, cls, hcls⟩ hno⟩
    obtain rfl := hcls.unique hd
    have hkeyword : ∀ word, Keyword.isReserved word = decide (word ∈ Keyword.all) := fun word => by
      rw [Keyword.isReserved, Bool.eq_iff_iff, List.contains_iff_mem, decide_eq_true_iff]
    cases cls <;> simp only [kind?, Token.Kind.ofLexeme?, hkeyword, decide_eq_true_iff]
  · next h =>
    rw [Lexeme.longest?_eq_none_iff] at h
    refine ⟨?_, fun _ => ⟨List.prefix_append [c] s, rfl, rfl⟩⟩
    rintro ⟨front, hfront, cls, hcls⟩
    exact absurd hcls (h front hfront cls)

/-! ## Pieces in their places -/

/-- A piece with the position and the byte where it stands. -/
structure PlacedPiece where
  piece : Piece
  position : Position
  offset : Nat

namespace PlacedPiece

/-- The bytes that the piece covers. -/
def span (p : PlacedPiece) : Span := ⟨p.offset, p.offset + byteLength p.piece.text⟩

/-- The token that the piece becomes, if it is not skipped. -/
def token? (p : PlacedPiece) : Option Token :=
  p.piece.kind?.map fun kind => ⟨kind, String.ofList p.piece.text, p.position, p.span⟩

/-- The span of the piece, if it is skipped. -/
def trivia? (p : PlacedPiece) : Option Span := if p.piece.kind?.isNone then some p.span else none

theorem span_of_token? {p : PlacedPiece} {t : Token} (h : p.token? = some t) : t.span = p.span := by
  rw [token?, Option.map_eq_some_iff] at h
  obtain ⟨kind, -, rfl⟩ := h
  rfl

theorem trivia?_eq_some_iff {p : PlacedPiece} {span : Span} :
    p.trivia? = some span ↔ p.piece.kind? = none ∧ p.span = span := by
  rw [trivia?]
  cases p.piece.kind? <;> simp

end PlacedPiece

/-- The pieces of a row in their places, the first at `position` and at the byte `offset`. -/
def placed (position : Position) (offset : Nat) : List Piece → List PlacedPiece
  | [] => []
  | p :: ps => ⟨p, position, offset⟩ ::
    placed (position.after p.text) (offset + byteLength p.text) ps

section Placed

variable {position : Position} {offset : Nat} {ps : List Piece}

/-- A scan's tokens are those of its pieces. -/
theorem tokens_ofPieces (position : Position) (offset : Nat) (ps : List Piece) :
    (Scan.ofPieces position offset ps).tokens =
      (placed position offset ps).filterMap PlacedPiece.token? := by
  induction ps generalizing position offset with
  | nil => rfl
  | cons p ps ih =>
    rw [Scan.ofPieces, placed]
    cases hk : p.kind? with
    | some kind =>
      rw [List.filterMap_cons_some (b := ⟨kind, String.ofList p.text, position,
        ⟨offset, offset + byteLength p.text⟩⟩) (by rw [PlacedPiece.token?, hk]; rfl), ← ih]
    | none => rw [List.filterMap_cons_none (by rw [PlacedPiece.token?, hk]; rfl), ← ih]

/-- A scan's trivia are the spans of the pieces that are skipped. -/
theorem trivia_ofPieces (position : Position) (offset : Nat) (ps : List Piece) :
    (Scan.ofPieces position offset ps).trivia =
      (placed position offset ps).filterMap PlacedPiece.trivia? := by
  induction ps generalizing position offset with
  | nil => rfl
  | cons p ps ih =>
    rw [Scan.ofPieces, placed]
    cases hk : p.kind? with
    | some kind => rw [List.filterMap_cons_none (by rw [PlacedPiece.trivia?, hk]; rfl), ← ih]
    | none =>
      rw [List.filterMap_cons_some (b := ⟨offset, offset + byteLength p.text⟩)
        (by rw [PlacedPiece.trivia?, hk]; rfl), ← ih]

/-- A piece stands behind the bytes of the pieces before it. -/
theorem exists_of_mem_placed {q : PlacedPiece} (h : q ∈ placed position offset ps) :
    ∃ before behind, ps = before ++ q.piece :: behind ∧
      q.offset = offset + byteLength (before.flatMap Piece.text) := by
  induction ps generalizing position offset with
  | nil => exact absurd h List.not_mem_nil
  | cons p ps ih =>
    rcases List.mem_cons.mp h with rfl | h
    · exact ⟨[], ps, rfl, rfl⟩
    · obtain ⟨before, behind, rfl, hoffset⟩ := ih h
      refine ⟨p :: before, behind, rfl, ?_⟩
      rw [hoffset, List.flatMap_cons, byteLength_append, Nat.add_assoc]

end Placed

/-- Each piece of a text is the first piece of what the pieces before it leave. -/
theorem exists_rest_of_pieces_eq {s : List Char} {before behind : List Piece} {p : Piece}
    (h : pieces s = before ++ p :: behind) :
    ∃ c rest, s = before.flatMap Piece.text ++ c :: rest ∧ p = Piece.first c rest ∧
      behind = pieces ((c :: rest).drop p.text.length) := by
  induction before generalizing s with
  | nil =>
    cases s with
    | nil => simp [pieces] at h
    | cons c rest =>
      rw [pieces] at h
      obtain ⟨rfl, rfl⟩ := List.cons.inj h
      exact ⟨c, rest, rfl, rfl, rfl⟩
  | cons q before ih =>
    cases s with
    | nil => simp [pieces] at h
    | cons d s =>
      rw [pieces] at h
      obtain ⟨rfl, htail⟩ := List.cons.inj h
      obtain ⟨c, rest, heq, hp, hbehind⟩ := ih htail
      refine ⟨c, rest, ?_, hp, hbehind⟩
      rw [List.flatMap_cons, List.append_assoc, ← heq, Piece.first_text_append]

/-- A row of pieces behind another one stands where that one stops. -/
theorem placed_append (position : Position) (offset : Nat) (ps qs : List Piece) :
    placed position offset (ps ++ qs) = placed position offset ps ++
      placed (position.after (ps.flatMap Piece.text)) (offset + byteLength (ps.flatMap Piece.text))
        qs := by
  induction ps generalizing position offset with
  | nil => rfl
  | cons p ps ih =>
    rw [List.cons_append, placed, placed, ih, List.cons_append, List.flatMap_cons,
      Position.after_append, byteLength_append, Nat.add_assoc]

/-! ## The scan of a source -/

/-- `text` stands in the source between `before` and `behind`, at the bytes of `span`. -/
structure Stands (source : String) (span : Span) (before text behind : List Char) : Prop where
  source_eq : source.toList = before ++ (text ++ behind)
  span_eq : span = ⟨byteLength before, byteLength before + byteLength text⟩

namespace Scan

/-- Behind the pieces before it, a piece of a source stands at its span, and the longest match
    decides it. -/
theorem stands_of_pieces_eq {source : String} {before behind : List Piece} {p : Piece}
    (position : Position) (h : pieces source.toList = before ++ p :: behind) :
    Stands source (PlacedPiece.span ⟨p, position, byteLength (before.flatMap Piece.text)⟩)
      (before.flatMap Piece.text) p.text (behind.flatMap Piece.text) ∧
    DecidedBy (p.text ++ behind.flatMap Piece.text) p.text p.kind? := by
  obtain ⟨c, rest, hs, rfl, rfl⟩ := exists_rest_of_pieces_eq h
  rw [pieces_flatten, Piece.first_text_append]
  exact ⟨⟨by rw [hs, Piece.first_text_append], rfl⟩, Piece.first_decidedBy c rest⟩

/-- What is known of a piece of a source: where it stands, and that the longest match decides it. -/
theorem stands_of_mem_placed {source : String} {q : PlacedPiece}
    (h : q ∈ placed Position.first 0 (pieces source.toList)) :
    ∃ before behind, Stands source q.span before q.piece.text behind ∧
      DecidedBy (q.piece.text ++ behind) q.piece.text q.piece.kind? := by
  obtain ⟨before, behind, hps, hoffset⟩ := exists_of_mem_placed h
  obtain ⟨hstands, hdecided⟩ := stands_of_pieces_eq q.position hps
  rw [Nat.zero_add] at hoffset
  rw [← hoffset] at hstands
  exact ⟨_, _, hstands, hdecided⟩

/-- A token of a scan comes from a piece that is not skipped. -/
theorem exists_of_mem_tokens {source : String} {t : Token} (h : t ∈ (tokenize source).tokens) :
    ∃ q ∈ placed Position.first 0 (pieces source.toList), q.piece.kind? = some t.kind ∧
      t.text.toList = q.piece.text ∧ t.span = q.span := by
  rw [tokenize, tokens_ofPieces] at h
  obtain ⟨q, hq, hqt⟩ := List.mem_filterMap.mp h
  rw [PlacedPiece.token?, Option.map_eq_some_iff] at hqt
  obtain ⟨kind, hkind, rfl⟩ := hqt
  exact ⟨q, hq, hkind, String.toList_ofList, rfl⟩

/-- A trivia span of a scan comes from a piece that is skipped. -/
theorem exists_of_mem_trivia {source : String} {span : Span}
    (h : span ∈ (tokenize source).trivia) :
    ∃ q ∈ placed Position.first 0 (pieces source.toList), q.piece.kind? = none ∧ span = q.span := by
  rw [tokenize, trivia_ofPieces] at h
  obtain ⟨q, hq, hqspan⟩ := List.mem_filterMap.mp h
  obtain ⟨hnone, rfl⟩ := PlacedPiece.trivia?_eq_some_iff.mp hqspan
  exact ⟨q, hq, hnone, rfl⟩

/-- **Longest match decides every piece.** Each token and each trivia span of a source is the
    longest front, of the source from its first byte on, that belongs to a class of lexemes, and a
    token has the kind of that class; if no front belongs to a class, a token in error stands there
    that is one character long. -/
theorem tokenize_longestMatch (source : String) :
    (∀ t ∈ (tokenize source).tokens, ∃ before behind,
      Stands source t.span before t.text.toList behind ∧
      DecidedBy (t.text.toList ++ behind) t.text.toList (some t.kind)) ∧
    (∀ span ∈ (tokenize source).trivia, ∃ before text behind,
      Stands source span before text behind ∧ DecidedBy (text ++ behind) text none) := by
  constructor
  · intro t ht
    obtain ⟨q, hq, hkind, htext, hspan⟩ := exists_of_mem_tokens ht
    rw [htext, hspan, ← hkind]
    exact stands_of_mem_placed hq
  · intro span hspan
    obtain ⟨q, hq, hnone, rfl⟩ := exists_of_mem_trivia hspan
    obtain ⟨before, behind, hstands, hdecided⟩ := stands_of_mem_placed hq
    exact ⟨before, q.piece.text, behind, hstands, hnone ▸ hdecided⟩

end Scan

end BraceLang
