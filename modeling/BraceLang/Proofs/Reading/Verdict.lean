import BraceLang.Program.CodeReader
import BraceLang.Proofs.Tree.Depth

/-!
# `Proofs.Reading.Verdict` — reading under a nesting limit, seen from the tree

A reader under a limit either gives its result or fails at the first block that has too many others
around it. Both outcomes can be told from the outline of the result, and so can the way the verdicts
on parts make up the verdict on the whole.

## Contents
- `Outline.verdict`, the outcome of reading something under a limit.
- `verdict_header`, past the header of a statement, and `bind_enter`, into a block.
-/

namespace BraceLang

theorem enter_of_eq (limit : Nat) (anchor : Token) :
    enter limit limit anchor = .error ⟨limit + 1, limit, anchor.position⟩ :=
  if_neg (Nat.lt_irrefl limit)

theorem enter_of_lt {limit level : Nat} (h : level < limit) (anchor : Token) :
    enter limit level anchor = .ok (level + 1) :=
  if_pos h

namespace Outline

/-- The outcome of reading what has the outline `o`, if `around` blocks stand around it: the result,
    or the failure at the first block beyond the limit. -/
def verdict {α : Type} (o : Outline) (limit around : Nat) (result : α) :
    Except NestingTooDeep α :=
  match o.firstBeyond? limit around with
  | none => .ok result
  | some block => .error ⟨limit + 1, limit, block.start⟩

variable {α β : Type} {o body siblings : Outline} {l block : Label} {limit around : Nat}

theorem verdict_of_none (h : o.firstBeyond? limit around = none) (result : α) :
    o.verdict limit around result = .ok result := by
  rw [verdict, h]

theorem verdict_of_some (h : o.firstBeyond? limit around = some block) (result : α) :
    o.verdict limit around result = .error ⟨limit + 1, limit, block.start⟩ := by
  rw [verdict, h]

theorem map_verdict (f : α → β) (result : α) :
    (o.verdict limit around result).map f = o.verdict limit around (f result) := by
  rw [verdict, verdict]
  cases o.firstBeyond? limit around <;> rfl

/-- Two outlines with the same first block beyond the limit have the same verdict. -/
theorem verdict_congr {other : Outline} {a b : Nat}
    (h : o.firstBeyond? limit a = other.firstBeyond? limit b) (result : α) :
    o.verdict limit a result = other.verdict limit b result := by
  rw [verdict, verdict, h]

/-- A header holds no block before its blocks. -/
theorem firstBeyond?_header (h : Header) (hl : l.kind.isBlock = false) (hle : around ≤ limit) :
    firstBeyond? limit around (.node l (.node h.conditionLabel (leaves h.condition) o) siblings) =
      (o.firstBeyond? limit around).or (siblings.firstBeyond? limit around) := by
  have hcondition : (leaves h.condition).firstBeyond? limit around = none :=
    firstBeyond?_eq_none (by rw [depth_leaves]; exact hle)
  have hlabel : h.conditionLabel.kind.isBlock = false := rfl
  rw [firstBeyond?_node hl, firstBeyond?_node hlabel, hcondition, Option.none_or]

/-- The verdict on a statement with a header is the verdict on its blocks and on what follows. -/
theorem verdict_header (h : Header) (hl : l.kind.isBlock = false)
    (hle : around ≤ limit) (result : α) :
    verdict (.node l (.node h.conditionLabel (leaves h.condition) o) siblings) limit around result =
      (o ++ siblings).verdict limit around result := by
  apply verdict_congr
  rw [firstBeyond?_header h hl hle, firstBeyond?_append]

/-- A block is entered at its first token. Unless that is one too many, the reader `r` reads the
    block and `next` what follows it. -/
theorem bind_enter {anchor : Token} {r : Nat → Except NestingTooDeep α}
    {next : α → Except NestingTooDeep β} {a : α} {b : β} (hblock : block.kind.isBlock = true)
    (hstart : block.start = anchor.position) (hle : around ≤ limit)
    (hr : around < limit → r (around + 1) = body.verdict limit (around + 1) a)
    (hnext : next a = siblings.verdict limit around b) :
    ((enter limit around anchor).bind fun inner => (r inner).bind next) =
      verdict (.node block body siblings) limit around b := by
  rcases Nat.lt_or_eq_of_le hle with hlt | rfl
  · have hne : around ≠ limit := Nat.ne_of_lt hlt
    rw [enter_of_lt hlt]
    show (r (around + 1)).bind next = _
    rw [hr hlt]
    cases hbody : body.firstBeyond? limit (around + 1) with
    | none =>
      rw [verdict_of_none hbody]
      show next a = _
      rw [hnext]
      apply verdict_congr
      rw [firstBeyond?_block hblock, if_neg hne, hbody, Option.none_or]
    | some first =>
      rw [verdict_of_some hbody]
      refine (verdict_of_some ?_ b).symm
      rw [firstBeyond?_block hblock, if_neg hne, hbody, Option.some_or]
  · rw [enter_of_eq, ← hstart]
    refine (verdict_of_some ?_ b).symm
    rw [firstBeyond?_block hblock, if_pos rfl]

end Outline

end BraceLang
