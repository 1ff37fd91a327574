import BraceLang.Proofs.Reading.Concatenation
import BraceLang.Proofs.Scope.BlockForest

/-!
# `Proofs.Scope.BraceLines` — the lines of scopes and those of braces

Which brace closes a block can be said without reading anything, by counting the braces behind the one that
opens the block. The scope of a block ends on the line of that brace. It begins on the line of the token
with which the block begins, and this is the opening brace but for an `else`, which begins with its keyword.
So the lines of a scope are those of its braces wherever lines are broken, unless a line is broken between
an `else` and its brace.

## Contents
- `MatchBraces`, two braces of which one closes what the other one opens, with `isPunct_closing`.
- `NodeKind.braceIndex`, the brace of a block, and `Scope.HasBraceLines`.
- `Tree.StandsOver.hasBraceLines`, for one block and its scope.
- **`Program.scopes_braceLines`**, and `Program.else_startsAbove_brace`, where a line is broken.
-/

namespace BraceLang

/-! ## Braces that match -/

/-- The brace with the index `o` opens a block, and the one with the index `c` closes it: it is the first
    token behind the opening brace up to which more braces are closed than opened. -/
structure MatchBraces (tokens : List Token) (o c : Nat) : Prop where
  opens : OpensAt tokens o
  closes : ClosesMore tokens o c
  first : ∀ i, i < c → ¬ ClosesMore tokens o i

namespace MatchBraces

variable {tokens : List Token} {o c : Nat}

/-- What ends a block whose brace is closed is the brace that closes it. -/
theorem eq_of_isBlockEnd (h : MatchBraces tokens o c) {last : Nat} (hend : IsBlockEnd tokens o last) :
    last = c := by
  obtain ⟨-, hlt, -⟩ := h.closes
  rcases Nat.lt_trichotomy last c with hless | heq | hmore
  · rcases hend.2 with hcloses | ⟨hlength, -⟩
    · exact absurd hcloses (h.first last hless)
    · omega
  · exact heq
  · exact absurd h.closes (hend.1 c hmore)

/-- The brace that closes a block is one. -/
theorem isPunct_closing (h : MatchBraces tokens o c) :
    ∃ t, tokens[c]? = some t ∧ t.isPunct "\x7d" = true := by
  obtain ⟨hbehind, hlt, hmore⟩ := h.closes
  refine ⟨tokens[c], List.getElem?_eq_getElem hlt, ?_⟩
  -- otherwise more braces would be closed already without this token
  by_contra hnot
  have hsplit : tokensBehind tokens o c = (tokens.take c).drop (o + 1) ++ [tokens[c]] := by
    rw [tokensBehind, List.take_succ_eq_append_getElem hlt, List.drop_append_of_le_length]
    rw [List.length_take]
    omega
  have hnone : closeBraces [tokens[c]] = 0 := by
    rw [closeBraces, List.countP_singleton, if_neg hnot]
  rw [hsplit, openBraces_append, closeBraces_append, hnone] at hmore
  rcases Nat.lt_or_eq_of_le hbehind with hgap | rfl
  · refine h.first (c - 1) (by omega) ⟨by omega, by omega, ?_⟩
    rw [tokensBehind, show c - 1 + 1 = c by omega]
    omega
  · rw [List.drop_eq_nil_of_le (by rw [List.length_take]; omega)] at hmore
    exact absurd hmore (by simp [closeBraces])

end MatchBraces

/-- A brace ends where it starts. -/
theorem Token.endPosition_closing {t : Token} (h : t.isPunct "\x7d" = true) :
    t.endPosition = t.position := by
  rw [endPosition, show t.text = "\x7d" from congrArg Word.text (Token.isPunct_iff.mp h)]
  rfl

/-! ## The braces of a block and the lines of its scope -/

/-- The index of the brace of a block that covers the tokens of an extent, if it has one: an `else` has it
    behind its keyword, and every other block begins with it. -/
def NodeKind.braceIndex (e : Extent) : NodeKind → Nat
  | .elseBranch => e.first + 1
  | _ => e.first

/-- If the brace of the block is closed, then the scope ends on the line of the brace that closes it, and it
    begins on the line where the block does: at its brace or at the `else` in front of it. -/
def Scope.HasBraceLines (tokens : List Token) (kind : NodeKind) (e : Extent) (s : Scope) : Prop :=
  ∀ c, MatchBraces tokens (kind.braceIndex e) c → ∃ anchor opening closing,
    tokens[e.first]? = some anchor ∧ tokens[kind.braceIndex e]? = some opening ∧
    tokens[c]? = some closing ∧ opening.isPunct "\x7b" = true ∧ closing.isPunct "\x7d" = true ∧
    s.endLine = closing.position.line ∧ s.startLine = anchor.position.line ∧
    (anchor = opening ∨ kind = .elseBranch ∧ anchor.isKeyword "else" = true)

/-- The extent of a block ends at the brace that closes it. -/
theorem NodeKind.EndsAt.last_eq {tokens : List Token} {e : Extent} {kind : NodeKind} {c : Nat}
    (h : kind.EndsAt tokens e) (hkind : kind.isBlock = true)
    (hmatch : MatchBraces tokens (kind.braceIndex e) c) : e.last = c := by
  cases kind with
  | functionBody | ifBody | loopBody => exact hmatch.eq_of_isBlockEnd h.2
  | elseBranch =>
    obtain ⟨-, ⟨-, hend⟩ | ⟨t, ht, hif⟩⟩ := h
    · exact hmatch.eq_of_isBlockEnd hend
    · -- an `if` behind the keyword is no brace
      obtain ⟨u, hu, hopens⟩ := hmatch.opens
      obtain rfl := Option.some.inj (ht.symm.trans hu)
      rw [Token.isKeyword_iff, Token.isPunct_iff.mp hopens] at hif
      exact absurd hif.symm (Word.reserved_ne_mark _ _)
  | _ => exact absurd hkind Bool.false_ne_true

/-- A block begins with its brace, or it is an `else`. -/
theorem NodeKind.EndsAt.anchor {tokens : List Token} {e : Extent} {kind : NodeKind} {anchor opening : Token}
    (h : kind.EndsAt tokens e) (hkind : kind.isBlock = true) (hanchor : tokens[e.first]? = some anchor)
    (hopening : tokens[kind.braceIndex e]? = some opening) :
    anchor = opening ∨ kind = .elseBranch ∧ anchor.isKeyword "else" = true := by
  cases kind with
  | functionBody | ifBody | loopBody => exact .inl (Option.some.inj (hanchor.symm.trans hopening))
  | elseBranch =>
    obtain ⟨⟨t, ht, helse⟩, -⟩ := h
    obtain rfl := Option.some.inj (ht.symm.trans hanchor)
    exact .inr ⟨rfl, helse⟩
  | _ => exact absurd hkind Bool.false_ne_true

/-- The scope of a block has the lines of its braces. -/
theorem Tree.StandsOver.hasBraceLines {t : Tree} {tokens : List Token} {extent : Nat → Extent}
    {block : Tree.Node} {s : Scope} (h : t.StandsOver tokens extent) (hblock : t.get? block.id = some block)
    (hid : block.id ≠ root) (hkind : block.label.kind.isBlock = true)
    (hends : block.label.kind.EndsAt tokens (extent block.id)) (hs : s.StandsFor t block) :
    s.HasBraceLines tokens block.label.kind (extent block.id) := by
  intro c hmatch
  obtain ⟨-, first, last, hfirst, hlast, hlabel⟩ := h.covers block.id block hblock hid
  obtain ⟨opening, hopening, hopens⟩ := hmatch.opens
  obtain ⟨closing, hclosing, hcloses⟩ := hmatch.isPunct_closing
  rw [hends.last_eq hkind hmatch, hclosing] at hlast
  obtain rfl := Option.some.inj hlast
  refine ⟨first, opening, closing, hfirst, hopening, hclosing, hopens, hcloses, ?_, ?_,
    hends.anchor hkind hfirst hopening⟩
  · rw [hs.endLine, hlabel, ← Token.endPosition_closing hcloses]
    rfl
  · rw [hs.startLine, hlabel]
    rfl

namespace Program

/-- A block of a program has a number of its own, and it is not the root. -/
theorem get?_of_mem_blocks {p : Program} {block : Tree.Node} (h : block ∈ p.tree.blocks) :
    p.tree.get? block.id = some block ∧ block.id ≠ Tree.root ∧ block.label.kind.isBlock = true := by
  obtain ⟨hmem, hkind⟩ := List.mem_filter.mp h
  have hget : p.tree.get? block.id = some block := Tree.get?_ofOutline_eq_some_iff.mpr ⟨hmem, rfl⟩
  refine ⟨hget, fun hroot => ?_, hkind⟩
  rcases eq_root_or_mem_number hget with ⟨-, rfl⟩ | ⟨hin, -⟩
  · exact absurd hkind Bool.false_ne_true
  · have := (Outline.id_of_mem_number hin).1
    rw [hroot, Tree.root] at this
    omega

/-- **Scopes have the lines of their braces, but an `else` begins with its keyword.** Each scope stands for a
    block, and the blocks stand over the tokens of the source. If the brace of a block is closed, then its
    scope ends on the line of the brace that closes it. It begins on the line of its opening brace, or, if
    the block is an `else`, on the line of the keyword in front of that brace. -/
theorem scopes_braceLines {source : String} {limit : Nat} {p : Program}
    (hread : read limit (tokenize source).tokens = .ok p) (config : Config) :
    ∃ scopes blocks extent, p.tree.scopes config = .ok scopes ∧ p.tree.IsBlockForest blocks ∧
      p.tree.StandsOver (tokenize source).tokens extent ∧
      Forest.Alike (fun s block => s.StandsFor p.tree block ∧
        s.HasBraceLines (tokenize source).tokens block.label.kind (extent block.id)) scopes blocks := by
  obtain ⟨extent, hroot, hfits, hapart⟩ := exists_fits hread
  have hover := standsOver_of_fits hroot hfits hapart
  have hends : ∀ id n, p.tree.get? id = some n → id ≠ Tree.root →
      n.label.kind.EndsAt (tokenize source).tokens (extent id) := by
    intro id n hn hid
    rcases eq_root_or_mem_number hn with ⟨rfl, -⟩ | ⟨hin, rfl⟩
    · exact absurd rfl hid
    · exact hfits.ends n hin
  refine ⟨p.scopes config, p.outline.blockForest 0, extent, p.scopes_tree config, p.isBlockForest, hover,
    (p.alike_scopes config).imp_of_mem fun s block hblock hs => ⟨hs, ?_⟩⟩
  rw [p.isBlockForest.labels] at hblock
  obtain ⟨hget, hid, hkind⟩ := get?_of_mem_blocks hblock
  exact hover.hasBraceLines hget hid hkind (hends _ _ hget hid) hs

/-- Lines are broken in front of each brace of a block that holds others, and one `else` is a block. -/
def brokenLines : String :=
  "void f()\n\x7b\n while (a)\n \x7b if (b) \x7b \x7d else if (c) \x7b \x7d\n  else\n  \x7b int x; \x7d \x7d\n\x7d"

theorem scopes_braceLines_brokenLines :
    ∃ p, read 5 (tokenize brokenLines).tokens = .ok p ∧
      ∃ scopes blocks extent, p.tree.scopes {} = .ok scopes ∧ p.tree.IsBlockForest blocks ∧
        p.tree.StandsOver (tokenize brokenLines).tokens extent ∧
        Forest.Alike (fun s block => s.StandsFor p.tree block ∧
          s.HasBraceLines (tokenize brokenLines).tokens block.label.kind (extent block.id))
          scopes blocks := by
  have hok : (read 5 (tokenize brokenLines).tokens).isOk = true := by decide +kernel
  obtain ⟨p, hread⟩ := exists_ok_of_isOk hok
  exact ⟨p, hread, scopes_braceLines hread {}⟩

/-- The brace of the `else` stands below its keyword. -/
def elseAbove : String := "int f() \x7b\n if (a) \x7b \x7d\n else\n \x7b \x7d\n\x7d"

/-- The scope of an `else` with a brace that is closed begins on a line on which no brace opens a block. -/
theorem else_startsAbove_brace :
    ∃ p scopes, read 2 (tokenize elseAbove).tokens = .ok p ∧ p.IsClosed ∧
      [Word.reserved "else", .mark "\x7b"] <:+: words (tokenize elseAbove).tokens ∧
      p.tree.scopes {} = .ok scopes ∧ ∃ s ∈ scopes.labels, s.kind = .elseBranch ∧
        ∀ t ∈ (tokenize elseAbove).tokens, t.isPunct "\x7b" = true → s.startLine ≠ t.position.line := by
  have hread : (read 2 (tokenize elseAbove).tokens).toOption.any fun p => decide (p.IsClosed) &&
      (p.scopes {}).labels.any fun s => s.kind == .elseBranch &&
        (tokenize elseAbove).tokens.all fun t =>
          !t.isPunct "\x7b" || s.startLine != t.position.line := by decide +kernel
  cases hp : read 2 (tokenize elseAbove).tokens with
  | error e =>
    rw [hp] at hread
    exact absurd hread Bool.false_ne_true
  | ok p =>
    rw [hp] at hread
    obtain ⟨hclosed, hscope⟩ := Bool.and_eq_true_iff.mp hread
    obtain ⟨s, hs, hscope⟩ := List.any_eq_true.mp hscope
    obtain ⟨hkind, hlines⟩ := Bool.and_eq_true_iff.mp hscope
    refine ⟨p, _, rfl, of_decide_eq_true hclosed, by decide +kernel, p.scopes_tree _, s, hs,
      beq_iff_eq.mp hkind, fun t ht hopens => ?_⟩
    have hline := List.all_eq_true.mp hlines t ht
    rw [hopens, Bool.not_true, Bool.false_or] at hline
    exact bne_iff_ne.mp hline

end Program

end BraceLang
