import BraceLang.Proofs.Parser.Programs
import BraceLang.Proofs.Reading.Faithfulness
import BraceLang.Proofs.Tree.PreOrder

/-!
# `Proofs.Parser.Trees` — the tree of a row of tokens

A row of tokens has one tree, whether it is read as a program and the tree of this is taken, or built step by
step, or parsed in one pass with a cursor. What is known of the tree of a program that was read therefore
holds of what is parsed.

## Contents
- `parse_eq_ok_iff` and `parse_of_read`, between reading and parsing.
- **`read_eq_ok_or_nestingTooDeep`**, which tree it is and up to which limit there is one.
- **`build_inPreOrder`**, how its nodes are numbered.
- **`read_wellShaped_and_leavesFollow`**, how it goes along with the tokens, and
  `not_leavesFollow_returnReversed`: the span of a leaf need not be the span of its token.
-/

namespace BraceLang

open BraceLang.Parser

namespace Program

/-! ## Reading and parsing -/

/-- What is parsed is the tree of what is read. -/
theorem parse_eq_ok_iff {limit : Nat} {tokens : List Token} {t : Tree} :
    parse limit tokens = .ok t ↔ ∃ p, Program.read limit tokens = .ok p ∧ p.tree = t := by
  rw [parse_eq]
  cases Program.read limit tokens with
  | error e =>
    refine ⟨fun h => absurd (congrArg Except.isOk h) Bool.false_ne_true, ?_⟩
    rintro ⟨p, hread, -⟩
    exact absurd (congrArg Except.isOk hread) Bool.false_ne_true
  | ok p =>
    constructor
    · exact fun h => ⟨p, rfl, Except.ok.inj h⟩
    · rintro ⟨q, hread, rfl⟩
      rw [Except.ok.inj hread]
      rfl

theorem parse_of_read {limit : Nat} {tokens : List Token} {p : Program}
    (h : Program.read limit tokens = .ok p) : parse limit tokens = .ok p.tree :=
  parse_eq_ok_iff.mpr ⟨p, h, rfl⟩

/-! ## What is known of the tree -/

/-- **The nesting limit decides whether there is a result, and nothing else.** Every row of tokens has
    one tree: it is what is read and what is parsed if the limit is no less than the depth of the tree, and
    otherwise the failure tells of the first block of the tree that is one deeper than the limit. -/
theorem read_eq_ok_or_nestingTooDeep (tokens : List Token) :
    ∃ (p : Program) (depth : Nat), p.tree.HasDepth depth ∧ ∀ limit,
      (depth ≤ limit → Program.read limit tokens = .ok p ∧ parse limit tokens = .ok p.tree) ∧
      (limit < depth → ∃ block : Tree.Node, p.tree.FirstBlockAt (limit + 1) block ∧
        Program.read limit tokens = .error ⟨limit + 1, limit, block.label.start⟩ ∧
        parse limit tokens = .error (.tooDeep ⟨limit + 1, limit, block.label.start⟩)) := by
  obtain ⟨items, hitems⟩ := exists_reads tokens
  refine ⟨mk items, (mk items).outline.depth 0, Tree.hasDepth_ofOutline _ _, fun limit => ⟨?_, ?_⟩⟩
  · intro hle
    have hread := hitems.read_of_le hle
    exact ⟨hread, parse_of_read hread⟩
  · intro hlt
    obtain ⟨first, hfirst⟩ :=
      Option.isSome_iff_exists.mp (Outline.isSome_firstBeyond? (Nat.zero_le _) hlt)
    obtain ⟨block, hblock, rfl⟩ := Tree.firstBlockAt_ofOutline hfirst
    have hread : Program.read limit tokens = .error ⟨limit + 1, limit, block.label.start⟩ := by
      rw [hitems.read_eq, Outline.verdict_of_some hfirst]
    refine ⟨block, hblock, hread, ?_⟩
    rw [parse_eq, hread]
    rfl

/-- **The tree of a program is built in pre-order**, and so is every tree that is parsed: the trees that are
    parsed are those that are built from the programs that are read. -/
theorem build_inPreOrder :
    (∀ p : Program, p.build = p.tree ∧ p.tree.InPreOrder) ∧
      (∀ limit tokens tree, parse limit tokens = .ok tree → tree.InPreOrder) ∧
      ∀ limit tokens tree, parse limit tokens = .ok tree ↔
        ∃ p, Program.read limit tokens = .ok p ∧ p.build = tree := by
  have hordered (p : Program) : p.tree.InPreOrder := Tree.inPreOrder_ofOutline _ _
  refine ⟨fun p => ⟨p.build_eq_tree, hordered p⟩, fun limit tokens tree hparse => ?_,
    fun limit tokens tree => ?_⟩
  · obtain ⟨p, -, rfl⟩ := parse_eq_ok_iff.mp hparse
    exact hordered p
  · simp only [build_eq_tree]
    exact parse_eq_ok_iff

/-- **A tree that was read is well-shaped and faithful to its tokens**, and it is the one that is parsed. Its
    leaves lead, in order, to the tokens that they show, and conditions, expressions and arguments are the
    runs of tokens that their forms ask for. The span of a leaf is that of its token, ended at its start if
    it ends before. -/
theorem read_wellShaped_and_leavesFollow {limit : Nat} {tokens : List Token} {p : Program}
    (h : Program.read limit tokens = .ok p) :
    parse limit tokens = .ok p.tree ∧ p.tree.WellShaped ∧
      ∃ place, p.tree.LeavesFollow tokens Token.orderedSpan place := by
  have htaken := takenFrom_outline h
  exact ⟨parse_of_read h, Tree.wellShaped_ofOutline rfl htaken.shaped, htaken.exists_leavesFollow⟩

/-- A `return` whose value, the token `1`, has a span that ends before it starts. -/
def returnReversed : List Token :=
  [⟨.keyword, "int", ⟨1, 1⟩, ⟨0, 3⟩⟩, ⟨.identifier, "f", ⟨1, 5⟩, ⟨4, 5⟩⟩,
   ⟨.punctuation, "(", ⟨1, 6⟩, ⟨5, 6⟩⟩, ⟨.punctuation, ")", ⟨1, 7⟩, ⟨6, 7⟩⟩,
   ⟨.punctuation, "\x7b", ⟨1, 9⟩, ⟨8, 9⟩⟩, ⟨.keyword, "return", ⟨1, 11⟩, ⟨10, 16⟩⟩,
   ⟨.number, "1", ⟨1, 18⟩, ⟨17, 16⟩⟩, ⟨.punctuation, ";", ⟨1, 19⟩, ⟨18, 19⟩⟩,
   ⟨.punctuation, "\x7d", ⟨1, 21⟩, ⟨20, 21⟩⟩]

theorem read_wellShaped_and_leavesFollow_returnReversed :
    ∃ p, Program.read 1 returnReversed = .ok p ∧ parse 1 returnReversed = .ok p.tree ∧
      p.tree.WellShaped ∧ ∃ place, p.tree.LeavesFollow returnReversed Token.orderedSpan place := by
  have hread : (Program.read 1 returnReversed).toBool = true := by decide +kernel
  cases h : Program.read 1 returnReversed with
  | error e => rw [h] at hread; exact absurd hread Bool.false_ne_true
  | ok p => exact ⟨p, rfl, read_wellShaped_and_leavesFollow h⟩

/-- The span of a leaf need not be the span of its token: no token of `returnReversed` has the span of
    the leaf of its value. -/
theorem not_leavesFollow_returnReversed :
    ∃ p, Program.read 1 returnReversed = .ok p ∧
      ¬ ∃ place, p.tree.LeavesFollow returnReversed Token.span place := by
  have hread : ((Program.read 1 returnReversed).toOption.bind fun p =>
      (p.tree.get? 8).map (·.label)) =
        some ⟨.leaf .number, some "1", ⟨1, 18⟩, ⟨1, 18⟩, ⟨17, 17⟩⟩ := by decide +kernel
  have hspan : ∀ t ∈ returnReversed, t.span ≠ ⟨17, 17⟩ := by decide
  cases h : Program.read 1 returnReversed with
  | error e => rw [h] at hread; exact absurd hread (by simp [Except.toOption])
  | ok p =>
    refine ⟨p, rfl, ?_⟩
    rintro ⟨place, hfollow⟩
    rw [h] at hread
    obtain ⟨n, hn, hlabel⟩ := Option.map_eq_some_iff.mp hread
    obtain ⟨t, ht, -, -, -, ht'⟩ := hfollow.token 8 n hn (by rw [hlabel]; rfl)
    rw [hlabel] at ht'
    exact hspan t (List.mem_of_getElem? ht) ht'.symm

end Program

end BraceLang
