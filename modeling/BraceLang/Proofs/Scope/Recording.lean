import BraceLang.Proofs.Reading.Containment
import BraceLang.Proofs.Scope.BlockForest
import BraceLang.Proofs.Scope.Warnings
import BraceLang.Proofs.Scope.Written

/-!
# `Proofs.Scope.Recording` — no declaration is lost, and none is recorded too often

Each declaration is recorded in the scope of the nearest block around it. With isolated scopes it is recorded
nowhere else, and without them once more in each of the scopes around that one. The same walk collects
declarations under both settings, so what has to be counted are the copies of each declaration, scope by
scope.

Which blocks are around a declaration is told by the tree, and the text agrees: bare braces are no blocks, and
what stands in the header of a loop or between the parentheses of a function is no declaration.

## Contents
- `Variable.DeclaredBy`, `Scope.entries`, `Tree.VariablesOf` and `Tree.NearestBlock`.
- `Scopes.RecordAll`, what scopes record of the declarations of a tree.
- `Holds.exists_of_mem_subtrees` and `countsIn_iff_of_mem_subtrees`: the blocks around a declaration.
- `WellShaped.declaredBy`, from a declaration to its variable.
- `Program.forall₂_entries`, how often a declaration is recorded.
- **`Program.scopes_recordAll`**.
-/

namespace BraceLang

/-! ## What scopes record -/

/-- The declaration `n` declares the variable: below it stand a type, a name and perhaps a value, and type,
    name and place of the variable are those of the first two. -/
structure Variable.DeclaredBy (t : Tree) (v : Variable) (n : Tree.Node) : Prop where
  kind : n.label.kind = .variableDeclaration
  parts : ∃ type name rest, t.children n.id = type :: name :: rest ∧
    type.label.kind = .type ∧ name.label.kind = .identifier ∧
    v.declaredType = type.label.text ∧ v.name = name.label.text ∧
    v.position = name.label.start ∧ v.span = name.label.span

/-- What a scope has under the span of a name, marks apart. -/
def Scope.entries (s : Scope) (span : Span) : List Variable := s.unmarked.locals.filter (·.span == span)

/-- The variables are those of the declarations that count in the block, and no other ones, in the order of
    the declarations. -/
def Tree.VariablesOf (t : Tree) (isolate : Bool) (row : List Variable) (block : Tree.Node) : Prop :=
  ∃ declarations : List Tree.Node,
    declarations.Pairwise (fun n m => n.id < m.id) ∧
    (∀ n, n ∈ declarations ↔ t.get? n.id = some n ∧ n.label.kind = .variableDeclaration ∧
      t.CountsIn isolate n.id block.id) ∧
    List.Forall₂ (Variable.DeclaredBy t) row declarations

/-- The block is the nearest one around the node. In the text, it contains the node, and any block that
    contains the node contains this one. -/
structure Tree.NearestBlock (t : Tree) (n block : Tree.Node) : Prop where
  isBlock : block ∈ t.blocks
  belongs : t.BelongsTo n.id block.id
  around : block.label.span.start ≤ n.label.span.start ∧ n.label.span.stop ≤ block.label.span.stop
  nearest : ∀ b ∈ t.blocks, b.label.span.start ≤ n.label.span.start →
    n.label.span.stop ≤ b.label.span.stop →
    b.label.span.start ≤ block.label.span.start ∧ block.label.span.stop ≤ b.label.span.stop

/-- What scopes, one for each of the blocks, record of the declarations of a tree. -/
structure Scopes.RecordAll (t : Tree) (tokens : List Token) (isolate : Bool) (scopes : Scopes)
    (blocks : Forest Tree.Node) : Prop where
  mirrors : Forest.Alike (Scope.StandsFor t) scopes blocks
  records : List.Forall₂ (fun s b => t.VariablesOf isolate s.locals b) scopes.labels blocks.labels
  ordered : ∀ s ∈ scopes.labels, s.locals.Pairwise fun v w => v.span.start < w.span.start
  /-- Each declaration is recorded once in the scope of the nearest block and, unless scopes are isolated,
      once in each scope around that one. With isolated scopes it is recorded once in all. -/
  declared : ∀ n, t.get? n.id = some n → n.label.kind = .variableDeclaration →
    ∃ v home, v.DeclaredBy t n ∧ v.WrittenIn tokens ∧ t.NearestBlock n home ∧
      List.Forall₂ (fun s b => s.1.entries v.span =
          if b.1 = home ∨ isolate = false ∧ home ∈ b.2.labels then [v] else [])
        scopes.subtrees blocks.subtrees ∧
      (isolate = true → scopes.labels.flatMap (·.entries v.span) = [v])
  /-- In parameter lists and in headers nothing is recorded. -/
  outside : ∀ s ∈ scopes.labels, ∀ v ∈ s.locals, ∀ m, t.get? m.id = some m →
    m.label.kind = .parameters ∨ m.label.kind = .condition →
    v.span.stop ≤ m.label.span.start ∨ m.label.span.stop ≤ v.span.start

/-! ## The blocks around a declaration -/

namespace Tree

variable {t : Tree} {o : Outline} {base id : Nat} {isolate : Bool} {n b home : Node} {inner : Forest Node}

/-- Each block of an outline stands over the blocks of what is below it. -/
theorem Holds.exists_of_mem_subtrees (h : t.Holds base o)
    (hmem : (b, inner) ∈ (o.blockForest base).subtrees) :
    ∃ (l : Label) (children siblings : Outline),
      t.Holds b.id (.node l children siblings) ∧ l.kind.isBlock = true ∧
      b = ⟨b.id, l, children.rootIds (b.id + 1)⟩ ∧ inner = children.blockForest (b.id + 1) := by
  induction o generalizing base with
  | nil => exact absurd hmem List.not_mem_nil
  | node l c s ihc ihs =>
    by_cases hl : l.kind.isBlock = true
    · rw [Outline.blockForest_of_isBlock hl, Forest.subtrees, List.mem_cons, List.mem_append] at hmem
      rcases hmem with heq | hmem | hmem
      · obtain ⟨rfl, rfl⟩ := Prod.mk.inj heq
        exact ⟨l, c, s, h, hl, rfl, rfl⟩
      · exact ihc h.below hmem
      · exact ihs h.beside hmem
    · rw [Outline.blockForest_of_not_isBlock (Bool.eq_false_iff.mpr hl), Forest.subtrees_append,
        List.mem_append] at hmem
      exact hmem.elim (ihc h.below) (ihs h.beside)

/-- The blocks below a block are those that belong to it or to a block inside it. -/
theorem Holds.mem_labels_iff (h : t.Holds base o) (hmem : (b, inner) ∈ (o.blockForest base).subtrees)
    (hget : t.get? home.id = some home) (hkind : home.label.kind.isBlock = true) :
    home ∈ inner.labels ↔ Relation.TransGen t.BelongsTo home.id b.id := by
  obtain ⟨l, children, siblings, hheld, hl, -, rfl⟩ := h.exists_of_mem_subtrees hmem
  rw [children.labels_blockForest, Outline.blocks, List.mem_filter, hheld.transBelongsTo_iff hl]
  constructor
  · rintro ⟨hin, -⟩
    exact ⟨home, hin, rfl⟩
  · rintro ⟨m, hm, hid⟩
    have hget' := hheld.below.get?_of_mem_number hm
    rw [hid, hget] at hget'
    obtain rfl := Option.some.inj hget'
    exact ⟨hm, hkind⟩

/-- **A node counts in the nearest block around it and, unless scopes are isolated, in each block around
    that one.** -/
theorem countsIn_iff_of_mem_subtrees (hmem : (b, inner) ∈ (o.blockForest 0).subtrees)
    (hhome : home ∈ (ofOutline o).blocks) (hbelongs : (ofOutline o).BelongsTo id home.id) :
    (ofOutline o).CountsIn isolate id b.id ↔ b = home ∨ isolate = false ∧ home ∈ inner.labels := by
  have hheld := holds_ofOutline o
  obtain ⟨hnumber, hkind⟩ := List.mem_filter.mp hhome
  have hget : (ofOutline o).get? home.id = some home := hheld.get?_of_mem_number hnumber
  have hb : (ofOutline o).get? b.id = some b := by
    obtain ⟨l, children, siblings, hblock, -, heq, -⟩ := hheld.exists_of_mem_subtrees hmem
    rw [heq]
    exact hblock.root
  have hsame : b = home ↔ home.id = b.id := by
    refine ⟨fun heq => heq ▸ rfl, fun heq => ?_⟩
    rw [← heq, hget] at hb
    exact (Option.some.inj hb).symm
  cases isolate with
  | true =>
    rw [hsame]
    constructor
    · exact fun hcounts => .inl (BelongsTo.unique hbelongs hcounts)
    · rintro (heq | ⟨hfalse, -⟩)
      · exact heq ▸ hbelongs
      · exact absurd hfalse.symm Bool.false_ne_true
  | false =>
    rw [hsame, hheld.mem_labels_iff hmem hget hkind]
    constructor
    · intro hcounts
      obtain ⟨x, hx, hrest⟩ := Relation.TransGen.head'_iff.mp hcounts
      obtain rfl := BelongsTo.unique hbelongs hx
      rcases Relation.reflTransGen_iff_eq_or_transGen.mp hrest with heq | hrest
      · exact .inl heq.symm
      · exact .inr ⟨rfl, hrest⟩
    · rintro (heq | ⟨-, hrest⟩)
      · exact heq ▸ .single hbelongs
      · exact .head hbelongs hrest

/-! ## Declarations and their variables -/

/-- In a tree of the right shape a declaration declares a variable. -/
theorem WellShaped.declaredBy (h : t.WellShaped) (hn : t.get? n.id = some n)
    (hkind : n.label.kind = .variableDeclaration) :
    ∃ v, t.localVariable? n = some v ∧ v.DeclaredBy t n := by
  have hallows := h.allows n.id n hn
  rw [hkind] at hallows
  obtain ⟨behind, hkinds⟩ : ∃ behind, (t.children n.id).map (·.label.kind) =
      .type :: .identifier :: behind := hallows.elim (fun h => ⟨_, h⟩) (fun h => ⟨_, h⟩)
  obtain ⟨type, others, hchildren, htype, hothers⟩ := List.map_eq_cons_iff.mp hkinds
  obtain ⟨name, rest, rfl, hname, -⟩ := List.map_eq_cons_iff.mp hothers
  refine ⟨⟨name.label.text, type.label.text, name.label.start, name.label.span, false⟩, ?_, hkind,
    type, name, rest, hchildren, htype, hname, rfl, rfl, rfl, rfl⟩
  have htype' : t.childOfKind? n.id .type = some type := by
    rw [childOfKind?, hchildren, List.find?_cons_of_pos (by rw [htype]; rfl)]
  have hname' : t.childOfKind? n.id .identifier = some name := by
    rw [childOfKind?, hchildren, List.find?_cons_of_neg (by rw [htype]; decide),
      List.find?_cons_of_pos (by rw [hname]; rfl)]
  rw [localVariable?, hkind]
  show t.declaredVariable? n = _
  rw [declaredVariable?, htype', hname']
  rfl

end Tree

namespace Tree.ScopeOf

variable {t : Tree} {isolate : Bool} {used : Node → Node → Variable → Prop} {s : Scope} {block n : Node}
  {v : Variable}

/-- The scope of a block has the variables of its declarations. -/
theorem variablesOf (h : t.ScopeOf isolate used s block) (hshape : t.WellShaped) :
    t.VariablesOf isolate s.unmarked.locals block := by
  obtain ⟨declarations, hordered, hmem, hlocals⟩ := h.locals
  have hdeclared {n : Node} (hn : t.get? n.id = some n) :
      (t.localVariable? n).isSome = true ↔ n.label.kind = .variableDeclaration := by
    constructor
    · intro hsome
      unfold localVariable? at hsome
      split at hsome
      · assumption
      · exact absurd hsome Bool.false_ne_true
    · intro hkind
      obtain ⟨v, hv, -⟩ := hshape.declaredBy hn hkind
      rw [hv]
      rfl
  refine ⟨declarations, hordered, fun n => ?_, ?_⟩
  · rw [hmem]
    exact and_congr_right fun hn => and_congr_left' (hdeclared hn)
  · rw [Scope.unmarked, List.forall₂_map_left_iff]
    refine forall₂_imp_of_mem hlocals ?_
    rintro v n hn ⟨w, hw, heq, -⟩
    obtain ⟨hget, hsome, -⟩ := (hmem n).mp hn
    obtain ⟨x, hx, hdeclares⟩ := hshape.declaredBy hget ((hdeclared hget).mp hsome)
    rw [hw] at hx
    obtain rfl := Option.some.inj hx
    rw [heq]
    exact ⟨hdeclares.kind, hdeclares.parts⟩

variable (hspans : t.SpansDiffer) (hn : t.get? n.id = some n) (hv : t.localVariable? n = some v)
  (h : t.ScopeOf isolate used s block)

include hspans hn hv h

/-- A declaration that counts in the block is recorded once in the scope. -/
theorem entries_of_countsIn (hcounts : t.CountsIn isolate n.id block.id) : s.entries v.span = [v] := by
  obtain ⟨x, hlocals, heq, -⟩ := h.exists_filter_locals hspans hn hv hcounts
  have hx : x.unmarked = v := by
    rw [heq, Variable.unmarked, ← used_localVariable? hv]
  rw [Scope.entries, Scope.unmarked, List.filter_map]
  show (s.locals.filter (·.span == v.span)).map Variable.unmarked = [v]
  rw [hlocals, List.map_singleton, hx]

/-- Any other declaration is not. -/
theorem entries_eq_nil (hnot : ¬ t.CountsIn isolate n.id block.id) : s.entries v.span = [] := by
  rw [Scope.entries, List.filter_eq_nil_iff]
  intro x hx hspan
  obtain ⟨y, hy, rfl⟩ := List.mem_map.mp hx
  obtain ⟨m, w, hm, hw, hcounts, heq, -⟩ := h.exists_declaration hy
  have hspan' : w.span = v.span := by
    rw [← beq_iff_eq.mp hspan, Variable.unmarked, heq]
  obtain rfl := hspans m n w v hm hn hw hv hspan'
  exact hnot hcounts

end Tree.ScopeOf

/-! ## Programs -/

/-- A block may not stand below a declaration. -/
theorem NodeKind.isOperand_of_isBlock {kind : NodeKind} (h : kind.isBlock = true) :
    kind.isOperand = false ∧ kind ≠ .variableDeclaration := by
  cases kind with
  | functionBody | ifBody | elseBranch | loopBody => exact ⟨rfl, nofun⟩
  | _ => exact absurd h Bool.false_ne_true

/-- What is added once is there once. -/
theorem flatMap_ite_singleton {α β : Type} [DecidableEq α] {as : List α} {a : α} (b : β)
    (hnodup : as.Nodup) (ha : a ∈ as) : (as.flatMap fun x => if x = a then [b] else []) = [b] := by
  obtain ⟨front, behind, rfl⟩ := List.append_of_mem ha
  obtain ⟨-, hbehind, hapart⟩ := List.nodup_append.mp hnodup
  have hfront : (front.flatMap fun x => if x = a then [b] else []) = [] := by
    refine List.flatMap_eq_nil_iff.mpr fun x hx => if_neg ?_
    exact hapart x hx a List.mem_cons_self
  have hback : (behind.flatMap fun x => if x = a then [b] else []) = [] := by
    refine List.flatMap_eq_nil_iff.mpr fun x hx => if_neg ?_
    exact ne_of_mem_of_not_mem hx (List.nodup_cons.mp hbehind).1
  rw [List.flatMap_append, List.flatMap_cons, hfront, hback, if_pos rfl]
  rfl

namespace Program

variable {source : String} {limit : Nat} {p : Program} {config : Config} {n home : Tree.Node} {v : Variable}

/-- Marks apart, the scopes are the same whether or not usage is tracked, so that what follows for them if it
    is tracked holds for all. -/
theorem forall₂_unmarked (hread : read limit (tokenize source).tokens = .ok p) (config : Config)
    {R : Scope → Tree.Node → Prop}
    (himp : ∀ s b, p.tree.MeantScopeOf config.isolateScopes s b → R s.unmarked b) :
    List.Forall₂ (fun s b => R s.unmarked b) (p.scopes config).labels p.tree.blocks := by
  have hmarked := forall₂_meantScopeOf hread { config with trackUsage := true } rfl
  have hframes := List.forall₂_map_left_iff.mpr (hmarked.imp himp)
  rw [← Forest.labels_map, map_unmarked_scopes] at hframes
  rw [← List.forall₂_map_left_iff (R := R), ← Forest.labels_map, map_unmarked_scopes]
  exact hframes

/-- The scopes of a program have the variables of its declarations. -/
theorem forall₂_variablesOf (hread : read limit (tokenize source).tokens = .ok p) (config : Config) :
    List.Forall₂ (fun s b => p.tree.VariablesOf config.isolateScopes s.locals b) (p.scopes config).labels
      p.tree.blocks := by
  have hunmarked := forall₂_unmarked hread config
    (R := fun s b => p.tree.VariablesOf config.isolateScopes s.locals b)
    fun _ _ hscope => hscope.variablesOf (wellShaped hread)
  refine hunmarked.imp ?_
  rintro s b ⟨declarations, hordered, hmem, hlocals⟩
  rw [Scope.unmarked, List.forall₂_map_left_iff] at hlocals
  -- a declaration says nothing of marks
  exact ⟨declarations, hordered, hmem, hlocals.imp fun _ _ hd => ⟨hd.kind, hd.parts⟩⟩

/-- **In each scope a declaration is recorded once or not at all**, once if it counts in the block. -/
theorem forall₂_entries (hread : read limit (tokenize source).tokens = .ok p) (config : Config)
    (hn : p.tree.get? n.id = some n) (hv : p.tree.localVariable? n = some v) :
    List.Forall₂ (fun s b => (p.tree.CountsIn config.isolateScopes n.id b.id → s.entries v.span = [v]) ∧
        (¬ p.tree.CountsIn config.isolateScopes n.id b.id → s.entries v.span = []))
      (p.scopes config).labels p.tree.blocks :=
  forall₂_unmarked hread config
    (R := fun s b => (p.tree.CountsIn config.isolateScopes n.id b.id →
        s.locals.filter (·.span == v.span) = [v]) ∧
      (¬ p.tree.CountsIn config.isolateScopes n.id b.id → s.locals.filter (·.span == v.span) = []))
    fun _ _ hscope => ⟨hscope.entries_of_countsIn (spansDiffer hread) hn hv,
      hscope.entries_eq_nil (spansDiffer hread) hn hv⟩

section Block

variable (hread : read limit (tokenize source).tokens = .ok p) (hhome : home ∈ p.tree.blocks)
  (hbelongs : p.tree.BelongsTo n.id home.id)

include hread hhome hbelongs

/-- A declaration is recorded in the scope of its block and, unless scopes are isolated, in those around
    it. -/
theorem forall₂_copies (config : Config) (hn : p.tree.get? n.id = some n)
    (hv : p.tree.localVariable? n = some v) :
    List.Forall₂ (fun s b => s.1.entries v.span =
        if b.1 = home ∨ config.isolateScopes = false ∧ home ∈ b.2.labels then [v] else [])
      (p.scopes config).subtrees (p.outline.blockForest 0).subtrees := by
  have hentries := forall₂_entries hread config hn hv
  rw [← p.isBlockForest.labels, Forest.forall₂_labels_iff] at hentries
  refine forall₂_imp_of_mem hentries ?_
  rintro s ⟨b, inner⟩ hb ⟨hrecorded, hnot⟩
  have hcounts : p.tree.CountsIn config.isolateScopes n.id b.id ↔ _ :=
    Tree.countsIn_iff_of_mem_subtrees hb hhome hbelongs
  split
  · next hin => exact hrecorded (hcounts.mpr hin)
  · next hout => exact hnot (mt hcounts.mp hout)

/-- With isolated scopes a declaration is recorded once in all. -/
theorem entries_isolated (config : Config) (hn : p.tree.get? n.id = some n)
    (hv : p.tree.localVariable? n = some v) (hisolate : config.isolateScopes = true) :
    (p.scopes config).labels.flatMap (·.entries v.span) = [v] := by
  have hcopies := forall₂_copies hread hhome hbelongs config hn hv
  have hrow : List.Forall₂ (fun s b => s.entries v.span = if b = home then [v] else [])
      (p.scopes config).labels p.tree.blocks := by
    rw [← p.isBlockForest.labels, Forest.forall₂_labels_iff]
    refine hcopies.imp ?_
    intro s b heq
    rw [heq, hisolate]
    simp only [Bool.true_eq_false, false_and, or_false]
  have hnodup : p.tree.blocks.Nodup := by
    have hordered := (Outline.pairwise_number p.outline 0).filter (·.label.kind.isBlock)
    exact hordered.imp fun hlt => ne_of_apply_ne Tree.Node.id hlt.ne
  rw [← List.forall₂_map_left_iff (R := fun row b => row = if b = home then [v] else []),
    ← List.forall₂_map_right_iff (R := Eq), List.forall₂_eq_eq_eq] at hrow
  rw [← flatMap_ite_singleton v hnodup hhome, List.flatMap_def, List.flatMap_def, hrow]

/-- **The block that a declaration belongs to is the nearest one around it in the text.** -/
theorem nearestBlock (hn : p.tree.get? n.id = some n) (hkind : n.label.kind = .variableDeclaration) :
    p.tree.NearestBlock n home := by
  have hspans := spansNest hread
  have horder : p.tree.InPreOrder := Tree.inPreOrder_ofOutline _ _
  have hget {b : Tree.Node} (hb : b ∈ p.tree.blocks) : p.tree.get? b.id = some b :=
    (Tree.holds_ofOutline p.outline).get?_of_mem_number (List.mem_filter.mp hb).1
  have hroot : n.id ≠ Tree.root := by
    intro heq
    rw [heq] at hbelongs
    exact Tree.not_belongsTo_root hbelongs
  have hsome := start_lt_stop hread hn hroot
  refine ⟨hhome, hbelongs, hspans.of_below hbelongs.toBelow (hget hhome) hn, ?_⟩
  intro b hb hstart hstop
  have hblock : b.label.kind.isBlock = true := (List.mem_filter.mp hb).2
  obtain ⟨hnot, hne⟩ := NodeKind.isOperand_of_isBlock hblock
  rcases hspans.around_or_apart horder (wellShaped hread) hn hkind (hget hb) hne hnot with
    hbelow | hapart | hapart
  · have hdiffer : b.id ≠ n.id := by
      intro heq
      have hsame := hget hb
      rw [heq, hn] at hsame
      exact hne (Option.some.inj hsame ▸ hkind)
    have habove := hbelongs.below_of_below (hget hb) hblock hbelow hdiffer
    exact hspans.of_below habove (hget hb) (hget hhome)
  · omega
  · omega

end Block

/-- What is recorded is apart in the text from parameter lists and headers. -/
theorem apart_of_mem_locals (hread : read limit (tokenize source).tokens = .ok p) {s : Scope}
    (hs : s ∈ (p.scopes config).labels) (hv : v ∈ s.locals) {m : Tree.Node}
    (hm : p.tree.get? m.id = some m) (hkind : m.label.kind = .parameters ∨ m.label.kind = .condition) :
    v.span.stop ≤ m.label.span.start ∨ m.label.span.stop ≤ v.span.start := by
  have hspans := spansNest hread
  have hshape := wellShaped hread
  have horder : p.tree.InPreOrder := Tree.inPreOrder_ofOutline _ _
  obtain ⟨b, -, declarations, -, hmem, hlocals⟩ :=
    forall₂_exists_right (forall₂_variablesOf hread config) s hs
  obtain ⟨n, hn, hdeclaration, type, name, rest, hchildren, -, -, -, -, -, hspan⟩ :=
    forall₂_exists_right hlocals v hv
  obtain ⟨hget, -, -⟩ := (hmem n).mp hn
  have hname : name ∈ p.tree.children n.id := by
    rw [hchildren]
    exact List.mem_cons_of_mem _ List.mem_cons_self
  -- the name stands in the declaration, and this is apart from what has no declaration below it
  obtain ⟨hstart, hstop⟩ := hspans.below n.id n hget name hname
  obtain ⟨hpart, hnot, hne⟩ : m.label.kind.isPart = true ∧ m.label.kind.isOperand = false ∧
      m.label.kind ≠ .variableDeclaration := by
    rcases hkind with h | h <;> exact h ▸ ⟨rfl, rfl, nofun⟩
  rw [hspan]
  rcases hspans.around_or_apart horder hshape hget hdeclaration hm hne hnot with hbelow | hapart | hapart
  · exact absurd hbelow (hshape.not_below_part hm hpart hget hdeclaration)
  · exact .inl (hstop.trans hapart)
  · exact .inr (hapart.trans hstart)

/-- **The scopes of a program record all declarations**, each as often as the setting says and in the scopes
    of the blocks around it, and nothing else. -/
theorem scopes_recordAll (hread : read limit (tokenize source).tokens = .ok p) (config : Config) :
    ∃ scopes blocks, p.tree.scopes config = .ok scopes ∧ p.tree.IsBlockForest blocks ∧
      scopes.RecordAll p.tree (tokenize source).tokens config.isolateScopes blocks := by
  refine ⟨p.scopes config, p.outline.blockForest 0, p.scopes_tree config, p.isBlockForest, ?_⟩
  constructor
  case mirrors => exact p.alike_scopes config
  case records =>
    rw [p.outline.labels_blockForest]
    exact forall₂_variablesOf hread config
  case ordered => exact fun s hs => pairwise_locals hread hs
  case declared =>
    intro n hn hkind
    obtain ⟨v, hv, hdeclares⟩ := (wellShaped hread).declaredBy hn hkind
    obtain ⟨block, hbelongs⟩ := exists_belongsTo hread hn hv
    obtain ⟨home, hhome, rfl⟩ := hbelongs.exists_mem_blocks
    have hentries := forall₂_copies hread hhome hbelongs config hn hv
    have hwritten : v.WrittenIn (tokenize source).tokens := by
      refine writtenIn_of_mem_declarations hread ?_
      rw [← p.filterMap_localVariable?_number]
      exact List.mem_filterMap.mpr ⟨n, (Tree.get?_ofOutline_eq_some_iff.mp hn).1, hv⟩
    exact ⟨v, home, hdeclares, hwritten, nearestBlock hread hhome hbelongs hn hkind, hentries,
      entries_isolated hread hhome hbelongs config hn hv⟩
  case outside => exact fun s hs v hv m hm hkind => apart_of_mem_locals hread hs hv hm hkind

/-- A parameter, a declaration in the header of a loop, one in bare braces, and one in a block inside the
    loop. -/
def declaredAtDepth : String :=
  "void f(int a) \x7b\n int b[2];\n for (int i = 0; i < a; i = i + 1) \x7b\n" ++
    "  \x7b int c; \x7d\n  if (a) \x7b int d = i; \x7d\n \x7d\n\x7d"

theorem scopes_recordAll_declaredAtDepth :
    ∃ p scopes blocks, read 4 (tokenize declaredAtDepth).tokens = .ok p ∧
      p.tree.scopes {} = .ok scopes ∧ p.tree.IsBlockForest blocks ∧
      scopes.RecordAll p.tree (tokenize declaredAtDepth).tokens false blocks := by
  have hok : (read 4 (tokenize declaredAtDepth).tokens).isOk = true := by decide +kernel
  obtain ⟨p, hread⟩ := exists_ok_of_isOk hok
  obtain ⟨scopes, blocks, hscopes, hblocks, hrecord⟩ := scopes_recordAll hread {}
  exact ⟨p, scopes, blocks, hread, hscopes, hblocks, hrecord⟩

/-- The variable of the bare braces is one of the loop, and neither the parameter nor the counter is
    recorded. -/
example : (read 4 (tokenize declaredAtDepth).tokens).toOption.map (fun p =>
    (p.scopes { isolateScopes := true }).map fun s => s.locals.map fun v => (v.name, v.declaredType)) =
      some (.single [("b", "int[2]")] <| .single [("c", "int")] <| .single [("d", "int")] .nil) := by
  decide +kernel

end Program

end BraceLang
