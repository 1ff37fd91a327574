import BraceLang.Proofs.Reading.Equations
import BraceLang.Proofs.Reading.Verdict
import BraceLang.Proofs.Tree.Functions

/-!
# `Proofs.Reading.Nesting` — the nesting limit

The reader stops at the first block that has too many others around it. It finds that block before
it knows what stands in it, so the tree that would show it is never finished. The derivations of
`Proofs.Reading.Derivation` finish it: reading under a limit is compared with reading without one,
and the first block beyond the limit decides between the two outcomes.

## Contents
- `Code.Reads.read_eq` and `Program.Reads.read_eq`: what is derived is read, up to the limit.
- **`Program.Reads.read_of_le`** and `read_of_lt`: the depth of what is derived decides whether it is read.
- `Program.reads_of_read`, from what was read back to a derivation.
-/

namespace BraceLang

/-- What succeeds gives something. -/
theorem exists_ok_of_isOk {ε α : Type} {outcome : Except ε α} (h : outcome.isOk = true) :
    ∃ a, outcome = .ok a := by
  cases outcome with
  | error e => exact absurd h Bool.false_ne_true
  | ok a => exact ⟨a, rfl⟩

namespace Code

variable {limit level : Nat} {goal : Goal} {s rest : List Token} {c : Code}
  {closing : Option Token}

/-- **What is derived is read, unless some block is beyond the limit.** -/
theorem Reads.read_eq (h : Reads goal s c closing rest) (hle : level ≤ limit) :
    read limit level goal s =
      c.outline.verdict limit level ⟨c, closing, rest, h.tokens_eq⟩ := by
  -- `level` is generalised because the contents of a block are read one level deeper. A block can
  -- only be entered below the limit, so the bound on `level` holds there as well.
  induction h generalizing level with
  | nothing => exact read_nothing
  | atEnd => exact read_atEnd
  | close hgoal ht => exact read_close hgoal ht
  | opened hgoal ht _ ih =>
    rw [read_opened hgoal ht, ih hle, Outline.map_verdict]
    rfl
  | closed hgoal houter ht _ ih =>
    rw [read_closed hgoal houter ht, ih hle, Outline.map_verdict]
    rfl
  | skip hgoal ht hsimple hheader _ ih =>
    rw [read_skip hgoal ht hsimple hheader, ih hle, Outline.map_verdict]
    rfl
  | @simple goal x s rest c closing hgoal hx _ ih =>
    rw [read_simple hgoal hx rfl, ih hle, Outline.map_verdict]
    have hparts : x.parts.firstBeyond? limit level = none :=
      Outline.firstBeyond?_eq_none (by rw [x.depth_parts]; exact hle)
    apply Outline.verdict_congr
    rw [outline, Outline.firstBeyond?_node x.isBlock_label, hparts, Option.none_or]
  | @loop goal kind h _ _ _ _ _ _ _ hgoal hh _ _ ihb ih =>
    rw [read_header hgoal hh rfl, outline, Outline.verdict_header h kind.isBlock_nodeKind hle]
    refine Outline.bind_enter rfl rfl hle (fun hlt => ihb hlt) ?_
    show (read limit level _ _).map _ = _
    rw [ih hle, Outline.map_verdict]
    rfl
  | @ifThen goal h _ _ _ _ _ _ _ hgoal hh _ helse _ ihb ih =>
    rw [read_header hgoal hh rfl, outline, Outline.verdict_header h rfl hle]
    refine Outline.bind_enter rfl rfl hle (fun hlt => ihb hlt) ?_
    rw [readBlocks_ifThen (ElseHead.read?_eq_none_iff.mpr helse), ih hle, Outline.map_verdict]
    rfl
  | @ifThenElse goal h _ _ _ _ _ _ _ _ _ _ _ hgoal hh _ he _ _ ihb iho ih =>
    rw [read_header hgoal hh rfl, outline, Outline.verdict_header h rfl hle]
    refine Outline.bind_enter rfl rfl hle (fun hlt => ihb hlt) ?_
    rw [readBlocks_ifThenElse (ElseHead.read?_eq_some_iff.mpr ⟨he, rfl⟩)]
    refine Outline.bind_enter rfl rfl hle (fun hlt => iho hlt) ?_
    rw [ih hle, Outline.map_verdict]
    rfl

end Code

namespace Function

variable {limit : Nat} {s rest : List Token} {body : Option Block} {semicolon : Option Token}
  {f : Function}

theorem ReadsTail.readTail_eq (h : ReadsTail s body semicolon rest) :
    readTail limit s =
      ((body.map Block.outline).getD .nil).verdict limit 0 ⟨body, semicolon, rest, h.tokens_eq⟩ := by
  cases h with
  | @body t s _ c closing ht hcode =>
    have henter : ((enter limit 0 t).bind fun level =>
        (Code.read limit level (.block 0) s).bind fun body =>
          .ok (⟨some ⟨t, body.code, body.closing⟩, none, body.rest, by
            simp [Block.tokens, body.tokens_eq]⟩ : Tail (t :: s))) =
        Outline.verdict
          (.node (.covering .functionBody none t (blockLast t c closing)) c.outline .nil) limit 0
          ⟨some ⟨t, c, closing⟩, none, rest, (ReadsTail.body ht hcode).tokens_eq⟩ :=
      Outline.bind_enter rfl rfl (Nat.zero_le _) (fun hlt => hcode.read_eq hlt) rfl
    rw [readTail, if_pos (Token.isPunct_iff.mpr ht)]
    refine Eq.trans ?_ henter
    cases enter limit 0 t with
    | error e => rfl
    | ok level =>
      show (Code.read limit level (.block 0) s).map _ = (Code.read limit level (.block 0) s).bind _
      cases Code.read limit level (.block 0) s <;> rfl
  | semicolon ht =>
    have hsemi := Token.isPunct_iff.mpr ht
    rw [readTail, if_neg (Token.not_isPunct hsemi (by decide)), if_pos hsemi]
    rfl
  | nothing hs =>
    cases s with
    | nil => rfl
    | cons t s =>
      obtain ⟨hbrace, hsemi⟩ := hs t rfl
      rw [readTail, if_neg (Token.not_isPunct_iff.mpr hbrace),
        if_neg (Token.not_isPunct_iff.mpr hsemi)]
      rfl

/-- The blocks of a function are those of its body. -/
theorem firstBeyond?_outline (f : Function) {around : Nat} (hle : around ≤ limit) :
    f.outline.firstBeyond? limit around = f.bodyOutline.firstBeyond? limit around := by
  have hlabel : f.label.kind.isBlock = false := rfl
  have hstart : f.startOutline.firstBeyond? limit around = none :=
    Outline.firstBeyond?_eq_none (by rw [f.depth_startOutline]; exact hle)
  rw [outline_eq, Forest.single, Outline.firstBeyond?_node hlabel, Outline.firstBeyond?_append,
    hstart, Option.none_or]
  exact Option.or_none

/-- What is derived as a function is read, unless some block is beyond the limit. -/
theorem Reads.read?_eq (h : Reads s f rest) :
    read? limit s = some (f.outline.verdict limit 0 ⟨f, rest, h.tokens_eq⟩) := by
  cases h with
  | @intro type name opening s _ body semicolon hstart htail =>
    have hread : readStart? (type :: name :: opening :: s) = some (type, name, opening, s) :=
      readStart?_eq_some_iff.mpr ⟨hstart, rfl⟩
    rw [read?]
    split
    · next hnone => exact absurd (hread.symm.trans hnone) (by simp)
    · next hsome =>
      cases hread.symm.trans hsome
      dsimp only
      rw [htail.readTail_eq, Outline.map_verdict]
      refine congrArg some (Outline.verdict_congr ?_ _)
      rw [firstBeyond?_outline _ (Nat.zero_le limit), bodyOutline]
      cases body <;> rfl

theorem read?_eq_none (h : ¬ Ahead s) : read? limit s = none := by
  have hread := readStart?_eq_none_iff.mpr h
  rw [read?]
  split
  · rfl
  · next hsome => exact absurd (hread.symm.trans hsome) (by simp)

end Function

namespace Program

variable {limit : Nat} {s : List Token} {items : List ProgramItem}

/-- The outlines of functions one beside the other. -/
def functionsOutline (items : List ProgramItem) : Outline :=
  (mk items).functions.foldr (fun f rest => f.outline ++ rest) .nil

theorem Reads.readItems_eq (h : Reads s items) :
    readItems limit s = (functionsOutline items).verdict limit 0 items := by
  induction h with
  | nil => rw [readItems]; rfl
  | skipped hs _ ih =>
    rw [readItems, Function.read?_eq_none hs]
    dsimp only
    rw [ih, Outline.map_verdict]
    rfl
  | @function s rest f items hf _ ih =>
    cases s with
    | nil => exact absurd (f.length_lt_of_append hf.tokens_eq) (Nat.not_lt_zero _)
    | cons t s =>
      rw [readItems, hf.read?_eq]
      cases hbeyond : f.outline.firstBeyond? limit 0 with
      | none =>
        rw [Outline.verdict_of_none hbeyond]
        dsimp only
        rw [ih, Outline.map_verdict]
        apply Outline.verdict_congr
        show _ = (f.outline ++ functionsOutline items).firstBeyond? limit 0
        rw [Outline.firstBeyond?_append, hbeyond, Option.none_or]
      | some first =>
        rw [Outline.verdict_of_some hbeyond]
        refine (Outline.verdict_of_some ?_ _).symm
        show (f.outline ++ functionsOutline items).firstBeyond? limit 0 = _
        rw [Outline.firstBeyond?_append, hbeyond, Option.some_or]

/-- **What is derived as a program is read, unless some block is beyond the limit.** -/
theorem Reads.read_eq (h : Reads s items) :
    Program.read limit s = (mk items).outline.verdict limit 0 (mk items) := by
  have hlabel : (mk items).label.kind.isBlock = false := rfl
  rw [Program.read, h.readItems_eq, Outline.map_verdict]
  apply Outline.verdict_congr
  rw [outline, Forest.single, Outline.firstBeyond?_node hlabel]
  exact Option.or_none.symm

theorem Reads.read_of_le (h : Reads s items) (hle : (mk items).outline.depth 0 ≤ limit) :
    Program.read limit s = .ok (mk items) := by
  rw [h.read_eq, Outline.verdict_of_none (Outline.firstBeyond?_eq_none hle)]

/-- Nothing is lost. -/
theorem Reads.tokens_eq (h : Reads s items) : (mk items).tokens = s :=
  read_tokens (h.read_of_le (Nat.le_refl _))

theorem Reads.read_of_lt (h : Reads s items) (hlt : limit < (mk items).outline.depth 0) :
    ∃ position, Program.read limit s = .error ⟨limit + 1, limit, position⟩ := by
  obtain ⟨first, hfirst⟩ :=
    Option.isSome_iff_exists.mp (Outline.isSome_firstBeyond? (Nat.zero_le _) hlt)
  exact ⟨first.start, by rw [h.read_eq, Outline.verdict_of_some hfirst]⟩

theorem Reads.isOk_read_iff (h : Reads s items) :
    (Program.read limit s).isOk = true ↔ (mk items).outline.depth 0 ≤ limit := by
  rcases Nat.lt_or_ge limit ((mk items).outline.depth 0) with hlt | hle
  · obtain ⟨position, hread⟩ := h.read_of_lt hlt
    rw [hread]
    exact ⟨fun hok => absurd hok Bool.false_ne_true, fun hle => absurd hlt (Nat.not_lt.mpr hle)⟩
  · rw [h.read_of_le hle]
    exact ⟨fun _ => hle, fun _ => rfl⟩

/-- A program that was read is what its tokens are read as. -/
theorem reads_of_read {p : Program} (h : Program.read limit s = .ok p) : Reads s p.items := by
  obtain ⟨items, hitems⟩ := exists_reads s
  rw [hitems.read_eq] at h
  cases hbeyond : (mk items).outline.firstBeyond? limit 0 with
  | none =>
    rw [Outline.verdict_of_none hbeyond] at h
    obtain rfl := Except.ok.inj h
    exact hitems
  | some block =>
    rw [Outline.verdict_of_some hbeyond] at h
    exact absurd h (by simp)

end Program

end BraceLang
