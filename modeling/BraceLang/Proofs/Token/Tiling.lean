import Mathlib.Data.String.Basic
import BraceLang.Proofs.Token.LongestMatch

/-!
# `Proofs.Token.Tiling` — the spans of a scan cover the source

The tokens and the trivia of a scan are kept in two lists. Merged by their first bytes they are the
spans of all pieces again, and since the pieces put together are the source, the spans cover it from
the first byte to the last, without gap or overlap.

What a trivia span is, a run of blanks or a comment, follows from the longest match. A run of blanks
is maximal: no blank stands behind it, and one stands before it only as the last character of a
comment, which the comment has taken.

## Contents
- `Tiles` and `Scan.spans`; `merge_placed`, the merged spans of a row of pieces.
- `Stands.extract` and `Stands.isValid`: the slice of a span and its bounds.
- `IsComment`, `IsBlankRun`, and `isBlankRun_or_isComment`.
- **`Scan.tokenize_tilesSource`**, the tiling of every source.
-/

namespace BraceLang

/-! ## Spans one after the other -/

/-- The spans follow one another from the byte `start` to the byte `stop`: each begins where the one
    before it ends, and none is empty. -/
def Tiles : Nat → List Span → Nat → Prop
  | start, [], stop => start = stop
  | start, span :: spans, stop => span.start = start ∧ start < span.stop ∧ Tiles span.stop spans stop

/-- All spans of a scan, ordered by their first bytes. -/
def Scan.spans (scan : Scan) : List Span :=
  (scan.tokens.map Token.span).merge scan.trivia fun a b => decide (a.start ≤ b.start)

theorem byteLength_pos {text : List Char} (h : text ≠ []) : 0 < byteLength text := by
  obtain ⟨c, rest, rfl⟩ := List.exists_cons_of_ne_nil h
  rw [byteLength_cons]
  exact Nat.add_pos_left (Char.utf8Size_pos c) _

theorem text_ne_nil_of_mem_pieces {s : List Char} {p : Piece} (h : p ∈ pieces s) : p.text ≠ [] := by
  obtain ⟨before, behind, heq⟩ := List.append_of_mem h
  obtain ⟨c, rest, -, rfl, -⟩ := exists_rest_of_pieces_eq heq
  exact List.length_pos_iff.mp (Piece.first_text_pos c rest)

section Placed

variable {position : Position} {offset : Nat} {ps : List Piece}

theorem offset_le_of_mem_placed {q : PlacedPiece} (h : q ∈ placed position offset ps) :
    offset ≤ q.offset := by
  obtain ⟨before, behind, -, hoffset⟩ := exists_of_mem_placed h
  rw [hoffset]
  exact Nat.le_add_right _ _

theorem pairwise_placed (position : Position) (offset : Nat) (ps : List Piece) :
    (placed position offset ps).Pairwise fun p q => p.span.stop ≤ q.span.start := by
  induction ps generalizing position offset with
  | nil => exact List.Pairwise.nil
  | cons p ps ih => exact List.Pairwise.cons (fun q hq => offset_le_of_mem_placed hq) (ih _ _)

/-- Pieces that are not empty stand one after the other. -/
theorem tiles_placed (position : Position) (offset : Nat) (hne : ∀ p ∈ ps, p.text ≠ []) :
    Tiles offset ((placed position offset ps).map PlacedPiece.span)
      (offset + byteLength (ps.flatMap Piece.text)) := by
  induction ps generalizing position offset with
  | nil => rfl
  | cons p ps ih =>
    have hpos := byteLength_pos (hne p List.mem_cons_self)
    rw [List.flatMap_cons, byteLength_append, ← Nat.add_assoc]
    exact ⟨rfl, Nat.lt_add_of_pos_right hpos, ih _ _ fun q hq => hne q (List.mem_cons_of_mem p hq)⟩

/-- The spans of the tokens and those of the trivia, merged, are the spans of all pieces. -/
theorem merge_placed (position : Position) (offset : Nat) (hne : ∀ p ∈ ps, p.text ≠ []) :
    (((placed position offset ps).filterMap PlacedPiece.token?).map Token.span).merge
      ((placed position offset ps).filterMap PlacedPiece.trivia?)
      (fun a b => decide (a.start ≤ b.start)) = (placed position offset ps).map PlacedPiece.span := by
  induction ps generalizing position offset with
  | nil => exact List.merge_right []
  | cons p ps ih =>
    have hrest := ih (position.after p.text) (offset + byteLength p.text)
      fun q hq => hne q (List.mem_cons_of_mem p hq)
    have hpos := byteLength_pos (hne p List.mem_cons_self)
    -- every other span of either list starts behind this piece
    have hbehind : ∀ q ∈ placed (position.after p.text) (offset + byteLength p.text) ps,
        offset < q.span.start :=
      fun q hq => Nat.lt_of_lt_of_le (Nat.lt_add_of_pos_right hpos) (offset_le_of_mem_placed hq)
    rw [placed, List.map_cons, ← hrest]
    cases hk : p.kind? with
    | some kind =>
      rw [List.filterMap_cons_some (by rw [PlacedPiece.token?, hk]; rfl),
        List.filterMap_cons_none (by rw [PlacedPiece.trivia?, hk]; rfl), List.map_cons]
      cases htrivia : (placed (position.after p.text) (offset + byteLength p.text) ps).filterMap
        PlacedPiece.trivia? with
      | nil => rw [List.merge_right, List.merge_right]
      | cons span spans =>
        have hmem := htrivia ▸ List.mem_cons_self (a := span) (l := spans)
        obtain ⟨q, hq, hqspan⟩ := List.mem_filterMap.mp hmem
        obtain rfl := (PlacedPiece.trivia?_eq_some_iff.mp hqspan).2
        exact List.cons_merge_cons_pos _ _ _ (decide_eq_true (Nat.le_of_lt (hbehind q hq)))
    | none =>
      rw [List.filterMap_cons_none (by rw [PlacedPiece.token?, hk]; rfl),
        List.filterMap_cons_some (by rw [PlacedPiece.trivia?, hk]; rfl)]
      cases htokens : (placed (position.after p.text) (offset + byteLength p.text) ps).filterMap
        PlacedPiece.token? with
      | nil => rw [List.map_nil, List.nil_merge, List.nil_merge]
      | cons t tokens =>
        have hmem := htokens ▸ List.mem_cons_self (a := t) (l := tokens)
        obtain ⟨q, hq, hqt⟩ := List.mem_filterMap.mp hmem
        have hlt : offset < t.span.start := PlacedPiece.span_of_token? hqt ▸ hbehind q hq
        have hnot : ¬ decide (t.span.start ≤ offset) = true := by simpa using hlt
        exact List.cons_merge_cons_neg _ _ _ hnot

end Placed

/-! ## Slices of the source -/

theorem byteLength_eq_utf8Len (text : List Char) : byteLength text = String.utf8Len text := by
  induction text with
  | nil => rfl
  | cons c text ih => rw [byteLength_cons, ih, String.utf8Len_cons, Nat.add_comm]

namespace Stands

variable {source : String} {span : Span} {before text behind : List Char}

/-- What stands at a span is the slice of the source. -/
theorem extract (h : Stands source span before text behind) :
    String.Pos.Raw.extract source ⟨span.start⟩ ⟨span.stop⟩ = String.ofList text := by
  have hsource : source = String.ofList (before ++ text ++ behind) := by
    rw [List.append_assoc, ← h.source_eq, String.ofList_toList]
  rw [h.span_eq, hsource, byteLength_eq_utf8Len, byteLength_eq_utf8Len]
  exact String.extract_of_valid before text behind

/-- Both bounds of a span lie between two characters. -/
theorem isValid (h : Stands source span before text behind) :
    String.Pos.Raw.IsValid source ⟨span.start⟩ ∧ String.Pos.Raw.IsValid source ⟨span.stop⟩ := by
  have hsource : source = String.ofList before ++ String.ofList text ++ String.ofList behind := by
    rw [← String.ofList_append, ← String.ofList_append, List.append_assoc, ← h.source_eq,
      String.ofList_toList]
  rw [h.span_eq, byteLength_eq_utf8Len, byteLength_eq_utf8Len]
  constructor <;> rw [String.Pos.Raw.isValid_iff_exists_append]
  · refine ⟨String.ofList before, String.ofList text ++ String.ofList behind, ?_,
      (String.rawEndPos_ofList before).symm⟩
    rw [hsource, String.append_assoc]
  · refine ⟨String.ofList (before ++ text), String.ofList behind, ?_, ?_⟩
    · rw [hsource, String.ofList_append]
    · rw [String.rawEndPos_ofList, String.utf8Len_append]

end Stands

/-! ## What a trivia span is -/

namespace Scan

/-- A comment goes from two slashes to the next line feed, which does not belong to it, or to the
    end of the source. -/
def IsComment (source : String) (span : Span) : Prop :=
  ∃ before body behind, Stands source span before ('/' :: '/' :: body) behind ∧ '\n' ∉ body ∧
    ∀ c, behind.head? = some c → c = '\n'

/-- A maximal run of blanks, where the comments are among `trivia`: no blank stands behind it, and
    a blank before it belongs to a comment that ends there. -/
def IsBlankRun (source : String) (trivia : List Span) (span : Span) : Prop :=
  ∃ before text behind, Stands source span before text behind ∧
    text ≠ [] ∧ (∀ c ∈ text, Lexeme.isBlank c = true) ∧
    (∀ c, behind.head? = some c → ¬ Lexeme.isBlank c = true) ∧
    ∀ c, before.getLast? = some c → Lexeme.isBlank c = true →
      ∃ comment ∈ trivia, IsComment source comment ∧ comment.stop = span.start

variable {text behind : List Char} {kind? : Option Token.Kind} {c d : Char}

/-- Of two fronts of a text that are lexemes, the longest match takes no shorter one. -/
theorem not_contains_concat (cls : Lexeme.Class)
    (h : DecidedBy (text ++ d :: behind) text kind?) : ¬ cls.Contains (text ++ [d]) := by
  intro hcls
  have hfront : text ++ [d] <+: text ++ d :: behind :=
    (List.prefix_append_right_inj text).mpr (List.prefix_append [d] behind)
  have hlen := (h.lexeme ⟨_, hfront, cls, hcls⟩).1.longest _ hfront ⟨cls, hcls⟩
  rw [List.length_append] at hlen
  exact absurd hlen (Nat.not_succ_le_self _)

/-- A piece that is skipped is a lexeme: a run of blanks or a comment. -/
theorem contains_of_skipped (h : DecidedBy (text ++ behind) text none) :
    Lexeme.Class.whitespace.Contains text ∨ Lexeme.Class.comment.Contains text := by
  by_cases hfront : ∃ front, front <+: text ++ behind ∧ ∃ cls : Lexeme.Class, cls.Contains front
  · obtain ⟨hlongest, hkind⟩ := h.lexeme hfront
    obtain ⟨cls, hcls⟩ := hlongest.lexeme
    have hnone := hkind cls hcls
    cases cls with
    | whitespace => exact Or.inl hcls
    | comment => exact Or.inr hcls
    | _ => exact absurd hnone (by simp [Token.Kind.ofLexeme?])
  · exact absurd (h.error hfront).2.2 (by simp)

/-- Where the longest match takes a comment, the comment goes to the end of its line. -/
theorem isComment_of_stands {source : String} {span : Span} {before : List Char}
    (hstands : Stands source span before text behind)
    (hdecided : DecidedBy (text ++ behind) text kind?)
    (htext : Lexeme.Class.comment.Contains text) : IsComment source span := by
  obtain ⟨body, rfl, hbody⟩ := htext
  refine ⟨before, body, behind, hstands, hbody, fun d hd => ?_⟩
  obtain ⟨rest, rfl⟩ := List.head?_eq_some_iff.mp hd
  by_contra hfeed
  refine not_contains_concat .comment hdecided ⟨body ++ [d], rfl, ?_⟩
  rw [List.mem_append, List.mem_singleton]
  rintro (hmem | rfl)
  · exact hbody hmem
  · exact hfeed rfl

/-- A piece in front of a blank that belongs to another piece ends with a blank only if it is a
    comment. -/
theorem comment_of_blank_getLast? (h : DecidedBy (text ++ d :: behind) text kind?)
    (hd : Lexeme.isBlank d = true) (hlast : text.getLast? = some c)
    (hc : Lexeme.isBlank c = true) : Lexeme.Class.comment.Contains text := by
  by_cases hfront : ∃ front, front <+: text ++ d :: behind ∧
    ∃ cls : Lexeme.Class, cls.Contains front
  · obtain ⟨cls, hcls⟩ := (h.lexeme hfront).1.lexeme
    rcases hcls.of_getLast?_blank hlast hc with rfl | rfl
    · refine absurd ⟨?_, ?_⟩ (not_contains_concat .whitespace h)
      · exact List.append_ne_nil_of_right_ne_nil _ (List.cons_ne_nil d [])
      · intro e he
        rcases List.mem_append.mp he with he | he
        · exact hcls.2 e he
        · rw [List.mem_singleton.mp he]
          exact hd
    · exact hcls
  · -- a character in error is no blank, since a blank is a lexeme
    obtain ⟨htext, hlen, -⟩ := h.error hfront
    obtain ⟨e, rfl⟩ := List.length_eq_one_iff.mp hlen
    obtain rfl : e = c := Option.some.inj hlast
    refine absurd ⟨[e], htext, .whitespace, List.cons_ne_nil e [], ?_⟩ hfront
    intro e' he'
    rw [List.mem_singleton.mp he']
    exact hc

/-- A piece that is skipped leaves its span among the trivia. -/
theorem mem_trivia_of_pieces_eq {source : String} {before behind : List Piece} {p : Piece}
    (position : Position) (h : pieces source.toList = before ++ p :: behind)
    (hskipped : p.kind? = none) :
    PlacedPiece.span ⟨p, position, byteLength (before.flatMap Piece.text)⟩ ∈
      (tokenize source).trivia := by
  rw [tokenize, trivia_ofPieces, h, placed_append, Nat.zero_add]
  refine List.mem_filterMap.mpr ⟨_, List.mem_append_right _ List.mem_cons_self, ?_⟩
  exact PlacedPiece.trivia?_eq_some_iff.mpr ⟨hskipped, rfl⟩

/-- A blank in front of a run of blanks is the last character of a comment. -/
theorem exists_comment_of_blank_before {source : String} {before behind : List Piece} {p : Piece}
    (h : pieces source.toList = before ++ p :: behind)
    (hp : Lexeme.Class.whitespace.Contains p.text)
    (hlast : (before.flatMap Piece.text).getLast? = some c) (hc : Lexeme.isBlank c = true) :
    ∃ comment ∈ (tokenize source).trivia, IsComment source comment ∧
      comment.stop = byteLength (before.flatMap Piece.text) := by
  rcases List.eq_nil_or_concat before with rfl | ⟨before, q, rfl⟩
  · exact absurd hlast (by simp)
  · rw [List.concat_eq_append] at h hlast ⊢
    rw [List.append_assoc, List.singleton_append] at h
    rw [List.flatMap_append, List.flatMap_singleton] at hlast ⊢
    -- the piece `q` in front of the run ends with the blank `c`, and the run begins with `d`
    have hqlast : q.text.getLast? = some c := by
      have hmem : q ∈ pieces source.toList := h ▸ List.mem_append_right _ List.mem_cons_self
      have hne := text_ne_nil_of_mem_pieces hmem
      rwa [List.getLast?_append, List.getLast?_eq_some_getLast hne, Option.some_or,
        ← List.getLast?_eq_some_getLast hne] at hlast
    obtain ⟨d, rest, hd⟩ := List.exists_cons_of_ne_nil hp.1
    obtain ⟨hstands, hdecided⟩ := stands_of_pieces_eq Position.first h
    have hdecided' := hdecided
    rw [List.flatMap_cons, hd, List.cons_append] at hdecided'
    have hcomment := comment_of_blank_getLast? hdecided' (hp.2 d (hd ▸ List.mem_cons_self)) hqlast hc
    have hskipped : q.kind? = none :=
      (hdecided.lexeme ⟨_, List.prefix_append _ _, _, hcomment⟩).2 _ hcomment
    exact ⟨_, mem_trivia_of_pieces_eq Position.first h hskipped,
      isComment_of_stands hstands hdecided hcomment, (byteLength_append _ _).symm⟩

/-- **A trivia span is a maximal run of blanks or a comment.** -/
theorem isBlankRun_or_isComment {source : String} {span : Span}
    (h : span ∈ (tokenize source).trivia) :
    IsBlankRun source (tokenize source).trivia span ∨ IsComment source span := by
  obtain ⟨q, hq, hnone, rfl⟩ := exists_of_mem_trivia h
  obtain ⟨before, behind, hps, hoffset⟩ := exists_of_mem_placed hq
  rw [Nat.zero_add] at hoffset
  obtain ⟨hstands, hdecided⟩ := stands_of_pieces_eq q.position hps
  rw [← hoffset] at hstands
  rw [hnone] at hdecided
  rcases contains_of_skipped hdecided with hblank | hcomment
  · refine Or.inl ⟨_, _, _, hstands, hblank.1, hblank.2, fun c hc hcblank => ?_,
      fun c hlast hc => ?_⟩
    · obtain ⟨rest, hrest⟩ := List.head?_eq_some_iff.mp hc
      rw [hrest] at hdecided
      refine not_contains_concat .whitespace hdecided ⟨by simp, fun e he => ?_⟩
      rcases List.mem_append.mp he with he | he
      · exact hblank.2 e he
      · rw [List.mem_singleton.mp he]
        exact hcblank
    · rw [PlacedPiece.span, hoffset]
      exact exists_comment_of_blank_before hps hblank hlast hc
  · exact Or.inr (isComment_of_stands hstands hdecided hcomment)

/-! ## The tiling -/

/-- A scan tiles its source. -/
structure TilesSource (source : String) (scan : Scan) : Prop where
  /-- All spans together cover the source: they begin at the first byte, each begins where the one
      before it ends, and the last one ends where the source does. -/
  covers : Tiles 0 scan.spans source.utf8ByteSize
  /-- Every bound lies between two characters. -/
  bounds : ∀ span ∈ scan.spans,
    String.Pos.Raw.IsValid source ⟨span.start⟩ ∧ String.Pos.Raw.IsValid source ⟨span.stop⟩
  /-- The text of a token is the slice of its span. -/
  slices : ∀ t ∈ scan.tokens, String.Pos.Raw.extract source ⟨t.span.start⟩ ⟨t.span.stop⟩ = t.text
  tokens_ordered : scan.tokens.Pairwise fun t u => t.span.stop ≤ u.span.start
  trivia_ordered : scan.trivia.Pairwise fun a b => a.stop ≤ b.start
  /-- What is skipped is one maximal run of blanks or one comment. -/
  trivia_form : ∀ span ∈ scan.trivia, IsBlankRun source scan.trivia span ∨ IsComment source span

/-- **Every source is tiled by the tokens and the trivia of its scan.** -/
theorem tokenize_tilesSource (source : String) : TilesSource source (tokenize source) := by
  have hne : ∀ p ∈ pieces source.toList, p.text ≠ [] := fun p => text_ne_nil_of_mem_pieces
  have hspans : (tokenize source).spans =
      (placed Position.first 0 (pieces source.toList)).map PlacedPiece.span := by
    rw [Scan.spans, tokenize, tokens_ofPieces, trivia_ofPieces]
    exact merge_placed Position.first 0 hne
  have hpairwise := pairwise_placed Position.first 0 (pieces source.toList)
  refine ⟨?_, ?_, ?_, ?_, ?_, fun span => isBlankRun_or_isComment⟩
  · have htiles := tiles_placed Position.first 0 hne
    rwa [← hspans, pieces_flatten, Nat.zero_add, byteLength_eq_utf8Len,
      String.utf8Len_toList] at htiles
  · intro span hspan
    rw [hspans] at hspan
    obtain ⟨q, hq, rfl⟩ := List.mem_map.mp hspan
    obtain ⟨before, behind, hstands, -⟩ := stands_of_mem_placed hq
    exact hstands.isValid
  · intro t ht
    obtain ⟨q, hq, -, htext, hspan⟩ := exists_of_mem_tokens ht
    obtain ⟨before, behind, hstands, -⟩ := stands_of_mem_placed hq
    rw [hspan, hstands.extract, ← htext, String.ofList_toList]
  · rw [tokenize, tokens_ofPieces]
    refine hpairwise.filterMap _ fun p q hpq t ht u hu => ?_
    rw [PlacedPiece.span_of_token? ht, PlacedPiece.span_of_token? hu]
    exact hpq
  · rw [tokenize, trivia_ofPieces]
    refine hpairwise.filterMap _ fun p q hpq a ha b hb => ?_
    rw [← (PlacedPiece.trivia?_eq_some_iff.mp ha).2,
      ← (PlacedPiece.trivia?_eq_some_iff.mp hb).2]
    exact hpq

end Scan

end BraceLang
