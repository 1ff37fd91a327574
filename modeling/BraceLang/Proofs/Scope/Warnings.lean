import BraceLang.Proofs.Scope.KeptApart

/-!
# `Proofs.Scope.Warnings` — which declarations are reported, and how often

A declaration that no reference means is reported once for each block in which it counts, so with isolated
scopes once, and without them once for each block around it. What a reference means does depend on the
setting, though. Without isolated scopes a block keeps a name also if it is declared only in a block inside
it, and then a reference in front of that inner block or behind it means the declaration in there in place
of one further out; and if the block declares the name as well, the reference means both. For a name to
which none of this happens, which is kept apart, both settings report the same declarations.

## Contents
- `Scopes.warningsAt` and `Scopes.Reports`, the findings about a declaration.
- `Tree.ReportedThroughout` and **`ReportedThroughout.of_not_isMeant`**, how often it is reported.
- **`Program.warnings_alike`**, and `Program.warnings_differ`, where a block keeps a name.
-/

namespace BraceLang

/-! ## The findings about a declaration -/

namespace Scopes

/-- The findings about the variables with a span. -/
def warningsAt (scopes : Scopes) (span : Span) : List Diagnostic :=
  scopes.diagnostics.filter (·.span == span)

/-- Some finding is about a variable with the span. -/
def Reports (scopes : Scopes) (span : Span) : Prop := ∃ d ∈ scopes.diagnostics, d.span = span

theorem reports_iff {scopes : Scopes} {span : Span} :
    scopes.Reports span ↔ scopes.warningsAt span ≠ [] := by
  rw [warningsAt, Ne, List.filter_eq_nil_iff]
  simp only [Reports, beq_iff_eq, not_forall, not_not, exists_prop]

/-- The findings with a span are collected scope by scope. -/
theorem warningsAt_eq (scopes : Scopes) (span : Span) : scopes.warningsAt span =
    scopes.labels.flatMap fun s => (s.unused.filter (·.span == span)).map (unusedVariable s) := by
  rw [warningsAt, diagnostics, List.filter_flatMap]
  refine congrArg (List.flatMap · scopes.labels) (funext fun s => ?_)
  rw [List.filter_map]
  rfl

end Scopes

namespace Tree

variable {t : Tree} {isolate : Bool} {n block : Node} {v : Variable} {s : Scope} {scopes : Scopes}

/-- The scope of a block, in which the variables are used that some reference means. -/
abbrev MeantScopeOf (t : Tree) (isolate : Bool) (s : Scope) (block : Node) : Prop :=
  t.ScopeOf isolate (fun _ n v => t.IsMeant isolate v.name n) s block

/-- If only declarations that count in the block are asked about, it does not matter how it is said which
    of them are used. -/
theorem ScopeOf.imp {used used' : Node → Node → Variable → Prop} (h : t.ScopeOf isolate used s block)
    (himp : ∀ n v, t.CountsIn isolate n.id block.id → (used block n v ↔ used' block n v)) :
    t.ScopeOf isolate used' s block := by
  obtain ⟨declarations, hordered, hmem, hlocals⟩ := h.locals
  refine ⟨h.startLine, h.endLine, declarations, hordered, hmem, ?_⟩
  refine forall₂_imp_of_mem hlocals ?_
  rintro v n hn ⟨w, hw, heq, hused⟩
  exact ⟨w, hw, heq, hused.trans (himp n v ((hmem n).mp hn).2.2)⟩

section Unused

variable (hspans : t.SpansDiffer) (hn : t.get? n.id = some n) (hv : t.localVariable? n = some v)

include hspans hn hv

/-- A declaration that counts in the block has one variable in the scope, which is known by its span. -/
theorem ScopeOf.exists_filter_locals {used : Node → Node → Variable → Prop}
    (h : t.ScopeOf isolate used s block) (hcounts : t.CountsIn isolate n.id block.id) :
    ∃ x, s.locals.filter (·.span == v.span) = [x] ∧ x = { v with used := x.used } ∧
      (x.used = true ↔ used block n x) := by
  obtain ⟨declarations, hordered, hmem, hlocals⟩ := h.locals
  have hspan : List.Forall₂ (fun x m => ((x.span == v.span) = true ↔ (m == n) = true) ∧
      ∃ w, t.localVariable? m = some w ∧ x = { w with used := x.used } ∧
        (x.used = true ↔ used block m x)) s.locals declarations := by
    refine forall₂_imp_of_mem hlocals ?_
    rintro x m hm ⟨w, hw, heq, hused⟩
    refine ⟨?_, w, hw, heq, hused⟩
    rw [beq_iff_eq, beq_iff_eq, heq]
    constructor
    · exact hspans m n w v ((hmem m).mp hm).1 hn hw hv
    · rintro rfl
      rw [hw] at hv
      rw [Option.some.inj hv]
  have hone : declarations.filter (· == n) = [n] := by
    have hin : n ∈ declarations := (hmem n).mpr ⟨hn, by rw [hv]; rfl, hcounts⟩
    have hnodup : declarations.Nodup := hordered.imp fun hlt => ne_of_apply_ne Node.id hlt.ne
    rw [List.filter_beq, List.count_eq_one_of_mem hnodup hin]
    rfl
  have hfiltered := List.rel_filter (fun _ _ hrel => hrel.1) hspan
  rw [hone] at hfiltered
  obtain ⟨x, rest, ⟨-, w, hw, heq, hused⟩, hnil, hlist⟩ := List.forall₂_cons_right_iff.mp hfiltered
  rw [List.forall₂_nil_right_iff.mp hnil] at hlist
  rw [hv] at hw
  obtain rfl := Option.some.inj hw
  exact ⟨x, hlist, heq, hused⟩

variable (h : t.MeantScopeOf isolate s block)

include h

/-- A declaration that counts in the block and that no reference means is unused in the scope. -/
theorem MeantScopeOf.unused_of_countsIn (hcounts : t.CountsIn isolate n.id block.id)
    (hmeant : ¬ t.IsMeant isolate v.name n) : s.unused.filter (·.span == v.span) = [v] := by
  obtain ⟨x, hlocals, heq, hused⟩ := h.exists_filter_locals hspans hn hv hcounts
  have hname : x.name = v.name := by rw [heq]
  rw [hname] at hused
  have hnot : x.used = false := Bool.eq_false_iff.mpr fun hyes => hmeant (hused.mp hyes)
  have hx : x = v := by
    rw [heq, hnot, ← used_localVariable? hv]
  rw [Scope.unused, List.filter_comm, hlocals, List.filter_singleton, hnot, hx]
  rfl

/-- Only declarations that count in the block and that no reference means are unused in the scope. -/
theorem MeantScopeOf.unused_eq_nil (hnot : t.CountsIn isolate n.id block.id → t.IsMeant isolate v.name n) :
    s.unused.filter (·.span == v.span) = [] := by
  rw [List.filter_eq_nil_iff]
  intro x hx hspan
  obtain ⟨hx, hunused⟩ := List.mem_filter.mp hx
  obtain ⟨m, w, hm, hw, hcounts, heq, hused⟩ := h.exists_declaration hx
  have hspan' : w.span = v.span := by
    rw [← beq_iff_eq.mp hspan, heq]
  obtain rfl := hspans m n w v hm hn hw hv hspan'
  rw [hv] at hw
  obtain rfl := Option.some.inj hw
  have hname : x.name = v.name := by rw [heq]
  rw [hname] at hused
  rw [hused.mpr (hnot hcounts)] at hunused
  exact absurd hunused Bool.false_ne_true

end Unused

/-! ## How often a declaration is reported -/

/-- The declaration `n` of the variable `v` is reported once for each block in which it counts, in the
    scope of this block and in the order of the blocks. -/
def ReportedThroughout (t : Tree) (isolate : Bool) (scopes : Scopes) (n : Node) (v : Variable) : Prop :=
  ∃ around enclosing, around.Sublist scopes.labels ∧ enclosing.Sublist t.blocks ∧
    (∀ b ∈ t.blocks, b ∈ enclosing ↔ t.CountsIn isolate n.id b.id) ∧
    List.Forall₂ (t.MeantScopeOf isolate) around enclosing ∧
    scopes.warningsAt v.span = around.map fun s => Scopes.unusedVariable s v

section Reported

variable (hspans : t.SpansDiffer)
  (hscopes : List.Forall₂ (t.MeantScopeOf isolate) scopes.labels t.blocks)
  (hn : t.get? n.id = some n) (hv : t.localVariable? n = some v)

include hspans hscopes hn hv

/-- A declaration that some reference means is not reported. -/
theorem not_reports_of_isMeant (hmeant : t.IsMeant isolate v.name n) : ¬ scopes.Reports v.span := by
  rw [Scopes.reports_iff, not_not, Scopes.warningsAt_eq, List.flatMap_eq_nil_iff]
  intro s hs
  obtain ⟨b, -, hscope⟩ := forall₂_exists_right hscopes s hs
  rw [hscope.unused_eq_nil hspans hn hv fun _ => hmeant, List.map_nil]

/-- **A declaration that no reference means is reported once for each block in which it counts.** -/
theorem ReportedThroughout.of_not_isMeant (hmeant : ¬ t.IsMeant isolate v.name n) :
    t.ReportedThroughout isolate scopes n v := by
  have hrow {labels : List Scope} {blocks : List Node}
      (h : List.Forall₂ (t.MeantScopeOf isolate) labels blocks) :
      ∃ around enclosing, around.Sublist labels ∧ enclosing.Sublist blocks ∧
        (∀ b ∈ blocks, b ∈ enclosing ↔ t.CountsIn isolate n.id b.id) ∧
        List.Forall₂ (t.MeantScopeOf isolate) around enclosing ∧
        (labels.flatMap fun s => (s.unused.filter (·.span == v.span)).map (Scopes.unusedVariable s)) =
          around.map fun s => Scopes.unusedVariable s v := by
    -- block by block: one in which the declaration counts adds one finding, any other none
    induction h with
    | nil => exact ⟨[], [], .slnil, .slnil, fun _ hb => absurd hb List.not_mem_nil, .nil, rfl⟩
    | @cons s b labels blocks hscope _ ih =>
      obtain ⟨around, enclosing, haround, henclosing, hmem, hrel, hwarnings⟩ := ih
      rw [List.flatMap_cons, hwarnings]
      by_cases hcounts : t.CountsIn isolate n.id b.id
      · rw [hscope.unused_of_countsIn hspans hn hv hcounts hmeant]
        refine ⟨s :: around, b :: enclosing, haround.cons_cons s, henclosing.cons_cons b, ?_,
          .cons hscope hrel, rfl⟩
        refine List.forall_mem_cons.mpr ⟨iff_of_true List.mem_cons_self hcounts, ?_⟩
        intro c hc
        rw [List.mem_cons, hmem c hc]
        exact ⟨fun hin => hin.elim (fun heq => heq ▸ hcounts) id, .inr⟩
      · rw [hscope.unused_eq_nil hspans hn hv fun hin => absurd hin hcounts]
        refine ⟨around, enclosing, haround.cons s, henclosing.cons b, ?_, hrel, rfl⟩
        refine List.forall_mem_cons.mpr ⟨iff_of_false ?_ hcounts, hmem⟩
        intro hin
        exact hcounts ((hmem b (henclosing.subset hin)).mp hin)
  rw [ReportedThroughout, Scopes.warningsAt_eq]
  exact hrow hscopes

end Reported

end Tree

/-! ## Programs -/

namespace Tree

variable {o : Outline} {n : Node} {v : Variable} {scopes : Scopes}

theorem BelongsTo.exists_mem_blocks {id block : Nat} (h : (ofOutline o).BelongsTo id block) :
    ∃ b ∈ (ofOutline o).blocks, b.id = block := by
  obtain ⟨b, hget, hkind⟩ := h.isBlock
  obtain ⟨hnumber, hid⟩ := get?_ofOutline_eq_some_iff.mp hget
  exact ⟨b, List.mem_filter.mpr ⟨hnumber, hkind⟩, hid⟩

namespace ReportedThroughout

variable {isolate : Bool} {block : Nat} (hbelongs : (ofOutline o).BelongsTo n.id block)

include hbelongs

/-- A declaration that belongs to a block is reported there. -/
theorem reports (h : (ofOutline o).ReportedThroughout isolate scopes n v) : scopes.Reports v.span := by
  obtain ⟨around, enclosing, -, -, hmem, hrel, hwarnings⟩ := h
  obtain ⟨b, hb, rfl⟩ := hbelongs.exists_mem_blocks
  obtain ⟨s, hs, -⟩ := forall₂_exists_left hrel b ((hmem b hb).mpr (hbelongs.countsIn isolate))
  rw [Scopes.reports_iff, hwarnings, Ne, List.map_eq_nil_iff]
  exact List.ne_nil_of_mem hs

/-- With isolated scopes a declaration is reported once. -/
theorem once (h : (ofOutline o).ReportedThroughout true scopes n v) :
    ∃ s ∈ scopes.labels, scopes.warningsAt v.span = [Scopes.unusedVariable s v] := by
  obtain ⟨around, enclosing, haround, henclosing, hmem, hrel, hwarnings⟩ := h
  obtain ⟨b, hb, rfl⟩ := hbelongs.exists_mem_blocks
  have hin : b ∈ enclosing := (hmem b hb).mpr hbelongs
  have hid {c : Node} (hc : c ∈ enclosing) : c.id = b.id :=
    BelongsTo.unique ((hmem c (henclosing.subset hc)).mp hc) hbelongs
  -- the blocks of a tree have numbers of their own, so there is no second one
  have hordered : enclosing.Pairwise fun a c => a.id < c.id :=
    ((Outline.pairwise_number o 0).filter _).sublist henclosing
  cases hrel with
  | nil => exact absurd hin List.not_mem_nil
  | @cons s _ _ _ _ hrest =>
    cases hrest with
    | nil => exact ⟨s, haround.subset List.mem_cons_self, hwarnings⟩
    | cons _ _ =>
      have hlt := List.rel_of_pairwise_cons hordered List.mem_cons_self
      rw [hid List.mem_cons_self, hid (List.mem_cons_of_mem _ List.mem_cons_self)] at hlt
      exact absurd hlt (Nat.lt_irrefl _)

end ReportedThroughout

end Tree

namespace Program

variable {source : String} {limit : Nat} {p : Program} {name : String}

/-- Under both settings a variable is used just if some reference means its declaration. -/
theorem forall₂_meantScopeOf (hread : read limit (tokenize source).tokens = .ok p) (config : Config)
    (htrack : config.trackUsage = true) :
    List.Forall₂ (p.tree.MeantScopeOf config.isolateScopes) (p.scopes config).labels p.tree.blocks := by
  cases hisolate : config.isolateScopes with
  | false => exact forall₂_scopeOf_shared hread htrack hisolate
  | true =>
    -- a declaration counts in one block only, so to be meant is to be looked up there
    refine (p.forall₂_scopeOf_isolated htrack hisolate).imp ?_
    intro s b hscope
    refine hscope.imp ?_
    intro n v hcounts
    constructor
    · exact fun hlooks => ⟨b.id, hlooks, hcounts⟩
    · rintro ⟨block, hlooks, hcounts'⟩
      rwa [Tree.BelongsTo.unique hcounts hcounts']

/-- Every declaration belongs to a block. -/
theorem exists_belongsTo (hread : read limit (tokenize source).tokens = .ok p) {n : Tree.Node}
    {v : Variable} (hn : p.tree.get? n.id = some n) (hv : p.tree.localVariable? n = some v) :
    ∃ block, p.tree.BelongsTo n.id block := by
  have hin : v ∈ (p.outline.number 0).filterMap p.tree.localVariable? :=
    List.mem_filterMap.mpr ⟨n, (Tree.get?_ofOutline_eq_some_iff.mp hn).1, hv⟩
  -- the declarations are those in the code of the functions, and a body is a block
  rw [p.filterMap_localVariable?_number, declarations, List.mem_flatMap] at hin
  obtain ⟨f, hfunction, hin⟩ := hin
  rw [← map_snd_numberedFunctions] at hfunction
  obtain ⟨⟨id, f⟩, hf, rfl⟩ := List.mem_map.mp hfunction
  obtain ⟨more, hheld⟩ := p.tree_holds_functions.function hf
  have hbody := (hheld.below.append).2
  cases hb : f.body with
  | none =>
    rw [Function.code, hb] at hin
    exact absurd hin List.not_mem_nil
  | some b =>
    have hblock : p.tree.Holds _ (.single _ b.code.outline) := hb ▸ hbody
    rw [Function.code, hb, Option.map_some, Option.getD_some,
      hblock.below.declarations_eq false] at hin
    obtain ⟨m, hm, hw⟩ := List.mem_filterMap.mp hin
    obtain ⟨hget, hcounts⟩ := (hblock.mem_counted_iff rfl).mp hm
    obtain rfl := spansDiffer hread m n v v hget hn hw hv rfl
    exact hcounts.exists_belongsTo

/-- **For a name that is kept apart both settings report the same declarations**, once with isolated scopes
    and once for each block around the declaration without them, and none that a reference means. -/
theorem warnings_alike (hread : read limit (tokenize source).tokens = .ok p) (config : Config)
    (htrack : config.trackUsage = true) (hname : p.tree.KeptApart name) :
    ∃ shared isolated,
      p.tree.scopes { config with isolateScopes := false } = .ok shared ∧
      p.tree.scopes { config with isolateScopes := true } = .ok isolated ∧
      ∀ n v, p.tree.get? n.id = some n → p.tree.localVariable? n = some v → v.name = name →
        (shared.Reports v.span ↔ isolated.Reports v.span) ∧
        (isolated.Reports v.span →
          (∃ s ∈ isolated.labels, isolated.warningsAt v.span = [Scopes.unusedVariable s v]) ∧
            p.tree.ReportedThroughout false shared n v) ∧
        (p.tree.IsMeant true name n → ¬ shared.Reports v.span ∧ ¬ isolated.Reports v.span) := by
  refine ⟨_, _, p.scopes_tree _, p.scopes_tree _, ?_⟩
  intro n v hn hv hsame
  have hspans := spansDiffer hread
  have hshared : List.Forall₂ (p.tree.MeantScopeOf false) _ _ :=
    forall₂_meantScopeOf hread { config with isolateScopes := false } htrack
  have hisolated : List.Forall₂ (p.tree.MeantScopeOf true) _ _ :=
    forall₂_meantScopeOf hread { config with isolateScopes := true } htrack
  have hmeant := hname.isMeant_iff hn hv hsame
  obtain rfl := hsame
  by_cases hused : p.tree.IsMeant true v.name n
  · have hnot := Tree.not_reports_of_isMeant hspans hshared hn hv (hmeant.mpr hused)
    have hnot' := Tree.not_reports_of_isMeant hspans hisolated hn hv hused
    exact ⟨iff_of_false hnot hnot', fun h => absurd h hnot', fun _ => ⟨hnot, hnot'⟩⟩
  · obtain ⟨block, hbelongs⟩ := exists_belongsTo hread hn hv
    have hevery : p.tree.ReportedThroughout false _ n v := Tree.ReportedThroughout.of_not_isMeant hspans
      hshared hn hv fun h => hused (hmeant.mp h)
    have hown : p.tree.ReportedThroughout true _ n v :=
      Tree.ReportedThroughout.of_not_isMeant hspans hisolated hn hv hused
    exact ⟨iff_of_true (hevery.reports hbelongs) (hown.reports hbelongs),
      fun _ => ⟨hown.once hbelongs, hevery⟩, fun h => absurd h hused⟩

/-- A name that is declared in a block, in one inside it where it is used, and in another one inside it. -/
def nested : String :=
  "int main() \x7b int x = 1; if (1) \x7b int x = 2; while (x) \x7b int y; \x7d \x7d " ++
    "else \x7b int x = 3; \x7d \x7d"

theorem warnings_alike_nested :
    ∃ p, read 3 (tokenize nested).tokens = .ok p ∧ p.tree.KeptApart "x" ∧
      ∃ shared isolated,
        p.tree.scopes { trackUsage := true, isolateScopes := false } = .ok shared ∧
        p.tree.scopes { trackUsage := true, isolateScopes := true } = .ok isolated ∧
        ∀ n v, p.tree.get? n.id = some n → p.tree.localVariable? n = some v → v.name = "x" →
          (shared.Reports v.span ↔ isolated.Reports v.span) ∧
          (isolated.Reports v.span →
            (∃ s ∈ isolated.labels, isolated.warningsAt v.span = [Scopes.unusedVariable s v]) ∧
              p.tree.ReportedThroughout false shared n v) ∧
          (p.tree.IsMeant true "x" n → ¬ shared.Reports v.span ∧ ¬ isolated.Reports v.span) := by
  have hread : (read 3 (tokenize nested).tokens).toOption.any
      fun p => decide (p.tree.KeptApart "x") := by decide +kernel
  cases hp : read 3 (tokenize nested).tokens with
  | error e =>
    rw [hp] at hread
    exact absurd hread Bool.false_ne_true
  | ok p =>
    rw [hp] at hread
    have hapart : p.tree.KeptApart "x" := of_decide_eq_true hread
    exact ⟨p, rfl, hapart, warnings_alike hp { trackUsage := true } rfl hapart⟩

/-- Unless scopes are isolated, `y` is reported three times and the last declaration of `x` twice. -/
example : (read 3 (tokenize nested).tokens).toOption.map (fun p => [false, true].map fun isolate =>
    (p.scopes { trackUsage := true, isolateScopes := isolate }).diagnostics.map (·.span.start)) =
    some [[17, 60, 78, 60, 60, 78], [17, 60, 78]] := by decide +kernel

/-- A name that is declared in a block and in one two levels further in, and used between the two. -/
def between : String :=
  "int main() \x7b int x = 1; if (1) \x7b if (2) \x7b int x = 2; \x7d return x; \x7d \x7d"

/-- **Not every name is kept apart.** Without isolated scopes the block around the inner declaration keeps
    the name that is used behind that one: then the outer declaration is reported, and with isolated scopes
    the inner one. -/
theorem warnings_differ :
    ∃ p shared isolated, read 3 (tokenize between).tokens = .ok p ∧
      p.tree.scopes { trackUsage := true, isolateScopes := false } = .ok shared ∧
      p.tree.scopes { trackUsage := true, isolateScopes := true } = .ok isolated ∧
      shared.diagnostics.map (·.span) = [⟨17, 18⟩] ∧ isolated.diagnostics.map (·.span) = [⟨46, 47⟩] := by
  have hread : (read 3 (tokenize between).tokens).toOption.any fun p =>
      (p.scopes { trackUsage := true, isolateScopes := false }).diagnostics.map (·.span) == [⟨17, 18⟩] &&
        (p.scopes { trackUsage := true, isolateScopes := true }).diagnostics.map (·.span) ==
          [⟨46, 47⟩] := by decide +kernel
  cases hp : read 3 (tokenize between).tokens with
  | error e =>
    rw [hp] at hread
    exact absurd hread Bool.false_ne_true
  | ok p =>
    rw [hp] at hread
    obtain ⟨hshared, hisolated⟩ := Bool.and_eq_true_iff.mp hread
    exact ⟨p, _, _, rfl, p.scopes_tree _, p.scopes_tree _, beq_iff_eq.mp hshared, beq_iff_eq.mp hisolated⟩

end Program

end BraceLang
