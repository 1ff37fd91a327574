import BraceLang.Proofs.Compilation
import BraceLang.Proofs.Layout.Analyses
import BraceLang.Proofs.Layout.Reading
import BraceLang.Proofs.Layout.Scopes
import BraceLang.Proofs.Token.Tiling
import Mathlib.Algebra.GroupWithZero.Nat
import Mathlib.Algebra.Order.BigOperators.Group.List

/-!
# `Proofs.Layout.Independence` — layout does not influence a compilation

Two texts with the same words are two relocations of one row of tokens, in which the `i`-th word
starts at the byte `i`. What that row is read as is therefore, at other places, what either text is
read as, and no analysis tells the two apart.

## Contents
- `numbered`, the row of tokens, and `Relocation.ofTokens`, which leads it to the tokens of a text.
- `tokenize_inOrder`: the tokens of a text start one after the other.
- `Compilation.SameUpToPlaces` and **`compile_sameUpToPlaces`**.
-/

namespace BraceLang

/-! ## Numbered words -/

/-- The words of a run as tokens of which the `i`-th starts at the byte `i`. -/
def numbered (run : List Word) : List Token :=
  run.mapIdx fun i w => ⟨w.kind, w.text, default, ⟨i, i⟩⟩

/-- The tokens start one after the other, and none ends before it starts. -/
structure InOrder (run : List Token) : Prop where
  start_lt : run.Pairwise fun t u => t.span.start < u.span.start
  start_le_stop : ∀ t ∈ run, t.span.start ≤ t.span.stop

theorem tokenize_inOrder (source : String) : InOrder (tokenize source).tokens := by
  have hspan : ∀ q ∈ placed Position.first 0 (pieces source.toList), q.span.start < q.span.stop := by
    intro q hq
    obtain ⟨before, behind, heq, -⟩ := exists_of_mem_placed hq
    have hmem : q.piece ∈ pieces source.toList := heq ▸ List.mem_append_right _ List.mem_cons_self
    exact Nat.lt_add_of_pos_right (byteLength_pos (text_ne_nil_of_mem_pieces hmem))
  have hstart : (placed Position.first 0 (pieces source.toList)).Pairwise
      fun p q => p.span.start < q.span.start :=
    (pairwise_placed _ _ _).imp_of_mem fun hp _ hpq => (hspan _ hp).trans_le hpq
  rw [tokenize, tokens_ofPieces]
  constructor
  · refine hstart.filterMap _ fun p q hpq t ht u hu => ?_
    rw [PlacedPiece.span_of_token? ht, PlacedPiece.span_of_token? hu]
    exact hpq
  · intro t ht
    obtain ⟨q, hq, htoken⟩ := List.mem_filterMap.mp ht
    rw [PlacedPiece.span_of_token? htoken]
    exact (hspan q hq).le

namespace Relocation

/-- A byte behind the start of every token of a run. -/
def beyond (run : List Token) : Nat := (run.map fun t => t.span.start + 1).sum

theorem start_lt_beyond {run : List Token} {t : Token} (h : t ∈ run) :
    t.span.start < beyond run := by
  have hmem : t.span.start + 1 ∈ run.map fun t => t.span.start + 1 := List.mem_map_of_mem h
  exact List.le_sum_of_mem hmem

/-- Where the `i`-th token of a run stands. Numbers that no token has lead behind the run. -/
def spanOf (run : List Token) (i : Nat) : Span :=
  (run[i]?.map Token.span).getD ⟨beyond run + i, beyond run + i⟩

variable {run : List Token}

theorem spanOf_ordered (h : InOrder run) (i : Nat) : (spanOf run i).start ≤ (spanOf run i).stop := by
  rw [spanOf]
  cases hi : run[i]? with
  | none => exact Nat.le_refl _
  | some t => exact h.start_le_stop t (List.mem_of_getElem? hi)

theorem spanOf_start_lt (h : InOrder run) {i j : Nat} (hij : i < j) :
    (spanOf run i).start < (spanOf run j).start := by
  rw [spanOf, spanOf]
  cases hj : run[j]? with
  | none =>
    -- `j` is behind the run, and so is everything behind `beyond run`
    cases hi : run[i]? with
    | none => exact Nat.add_lt_add_left hij _
    | some t => exact (start_lt_beyond (List.mem_of_getElem? hi)).trans_le (Nat.le_add_right _ _)
  | some u =>
    obtain ⟨hlt, rfl⟩ := List.getElem?_eq_some_iff.mp hj
    rw [List.getElem?_eq_getElem (hij.trans hlt)]
    exact List.pairwise_iff_getElem.mp h.start_lt i j _ hlt hij

/-- The relocation that leads the byte `i` to where the `i`-th token of a run stands. -/
def ofTokens (run : List Token) (h : InOrder run) : Relocation where
  position i := (run[i]?.map Token.position).getD default
  span := spanOf run
  ordered := spanOf_ordered h
  span_inj {i j} hij := by
    rcases Nat.lt_trichotomy i j with hlt | heq | hgt
    · exact absurd (congrArg Span.start hij) (spanOf_start_lt h hlt).ne
    · exact heq
    · exact absurd (congrArg Span.start hij) (spanOf_start_lt h hgt).ne'

theorem tokens_numbered (h : InOrder run) :
    (ofTokens run h).tokens (numbered (words run)) = run := by
  apply List.ext_getElem?
  intro i
  rw [tokens, numbered, words, List.getElem?_map, List.getElem?_mapIdx, List.getElem?_map]
  cases hi : run[i]? with
  | none => rfl
  | some t =>
    have hspan : spanOf run i = t.span := by
      rw [spanOf, hi]
      rfl
    have hposition : (ofTokens run h).position i = t.position := by
      show (run[i]?.map Token.position).getD default = _
      rw [hi]
      rfl
    show some (Token.mk t.kind t.text ((ofTokens run h).position i) (spanOf run i)) = _
    rw [hspan, hposition]

end Relocation

/-! ## The findings of the lexer -/

/-- The findings of the lexer, up to places, depend on the words of the tokens. -/
theorem Scan.bare_diagnostics {scan other : Scan} (h : words scan.tokens = words other.tokens) :
    scan.diagnostics.map Diagnostic.bare = other.diagnostics.map Diagnostic.bare := by
  have hwords (a : Scan) : a.diagnostics.map Diagnostic.bare =
      ((words a.tokens).filter (·.kind == .error)).map fun w =>
        (Scan.unrecognized ⟨w.kind, w.text, default, default⟩).bare := by
    rw [diagnostics, errorTokens, words, List.filter_map, List.map_map, List.map_map]
    rfl
  rw [hwords, h, ← hwords]

/-! ## Compilations -/

/-- Two compilations agree, up to where anything stands. -/
structure Compilation.SameUpToPlaces (c d : Compilation) : Prop where
  tree : c.tree.map Tree.bare = d.tree.map Tree.bare
  scopes : c.scopes.map Scope.bare = d.scopes.map Scope.bare
  graph : c.graph = d.graph
  estimate : c.estimate = d.estimate
  /-- Either both stand for the same failure, but for the place of the block that it tells of, or
      neither stands for a failure and both have the same findings. -/
  diagnostics :
    (∃ depth limit p q, c = .fatal (.nestingTooDeep ⟨depth, limit, p⟩) ∧
      d = .fatal (.nestingTooDeep ⟨depth, limit, q⟩)) ∨
    (c.isFatal = false ∧ d.isFatal = false ∧
      c.diagnostics.map Diagnostic.bare = d.diagnostics.map Diagnostic.bare)

namespace Relocation

variable {r other : Relocation} {p : Program}

theorem depth_outline (r : Relocation) (p : Program) :
    (r.program p).outline.depth 0 = p.outline.depth 0 := by
  rw [← Outline.depth_bare, bare_outline, Outline.depth_bare]

theorem bare_tree (r : Relocation) (p : Program) : (r.program p).tree.bare = p.tree.bare := by
  rw [Program.tree, Tree.bare_ofOutline, bare_outline, ← Tree.bare_ofOutline]
  rfl

/-- No analysis tells two relocations of a program apart. -/
theorem analyse_sameUpToPlaces (r other : Relocation) (config : Config) (p : Program)
    {scan scan' : Scan} (h : words scan.tokens = words scan'.tokens) :
    ((r.program p).analyse config scan).SameUpToPlaces
      ((other.program p).analyse config scan') where
  tree := congrArg some ((r.bare_tree p).trans (other.bare_tree p).symm)
  scopes := r.bare_scopes other config p
  graph := (r.graph?_program p _ _).trans (other.graph?_program p _ _).symm
  estimate := by
    simp only [Program.analyse, graph?_program, facts_program]
  diagnostics := by
    refine .inr ⟨rfl, rfl, ?_⟩
    simp only [Program.analyse, List.map_append]
    rw [Scopes.bare_diagnostics, r.bare_scopes other, ← Scopes.bare_diagnostics]
    split
    · rw [Scan.bare_diagnostics h]
    · rfl

end Relocation

/-- **Layout does not influence a compilation.** Two sources with the same words are compiled alike,
up to where anything stands. -/
theorem compile_sameUpToPlaces (config : Config) {source other : String}
    (h : words (tokenize source).tokens = words (tokenize other).tokens) :
    (compile config source).SameUpToPlaces (compile config other) := by
  -- one derivation over the numbered words stands for both texts
  obtain ⟨items, hitems⟩ := Program.exists_reads (numbered (words (tokenize source).tokens))
  have hread (text : String) (htext : words (tokenize source).tokens = words (tokenize text).tokens) :
      ∃ r : Relocation, Program.Reads (tokenize text).tokens (items.map r.item) := by
    refine ⟨.ofTokens _ (tokenize_inOrder text), ?_⟩
    have hrelocated := Relocation.program_reads (r := .ofTokens _ (tokenize_inOrder text)) hitems
    rwa [htext, Relocation.tokens_numbered] at hrelocated
  obtain ⟨r, hr⟩ := hread source rfl
  obtain ⟨q, hq⟩ := hread other h
  -- neither relocation changes the depth, so the limit decides both readings alike
  have hdepth (x : Relocation) : (Program.mk (items.map x.item)).outline.depth 0 =
      (Program.mk items).outline.depth 0 := x.depth_outline ⟨items⟩
  rcases Nat.lt_or_ge config.maxNestingDepth ((Program.mk items).outline.depth 0) with hlt | hle
  · obtain ⟨position, hfailed⟩ := hr.read_of_lt (hlt.trans_eq (hdepth r).symm)
    obtain ⟨position', hfailed'⟩ := hq.read_of_lt (hlt.trans_eq (hdepth q).symm)
    rw [compile_eq_fatal hfailed, compile_eq_fatal hfailed']
    exact ⟨rfl, rfl, rfl, rfl, .inl ⟨_, _, _, _, rfl, rfl⟩⟩
  · rw [compile_eq_analyse (hr.read_of_le ((hdepth r).trans_le hle)),
      compile_eq_analyse (hq.read_of_le ((hdepth q).trans_le hle))]
    exact r.analyse_sameUpToPlaces q config ⟨items⟩ h

/-- A variable that is declared in a loop and once more around it, on one line. -/
def shadowedOnOneLine : String :=
  "int main() \x7b int n = 1; while (n) \x7b int n = 2; f(n); \x7d \x7d"

/-- The same with comments and line breaks, and with blanks only where words would run together. -/
def shadowedOnManyLines : String :=
  "// outer and inner\nint main()\x7b\n  int n=1;\n\n  while(n)\x7b // n\n    int n=2;f(n);\n  \x7d\n\x7d\n"

theorem compile_sameUpToPlaces_shadowed :
    words (tokenize shadowedOnOneLine).tokens = words (tokenize shadowedOnManyLines).tokens ∧
      (compile { trackUsage := true } shadowedOnOneLine).SameUpToPlaces
        (compile { trackUsage := true } shadowedOnManyLines) := by
  have hwords : words (tokenize shadowedOnOneLine).tokens =
      words (tokenize shadowedOnManyLines).tokens := by decide +kernel
  exact ⟨hwords, compile_sameUpToPlaces _ hwords⟩

end BraceLang
