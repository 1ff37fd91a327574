import BraceLang.Proofs.Flow.ChainedBuild
import BraceLang.Proofs.Flow.JoinedWalk
import BraceLang.Proofs.Tree.Ancestry
import BraceLang.Proofs.Tree.Depth
import Mathlib.Logic.Relation

/-!
# `Proofs.Flow.Reach` — which statements control can come to

Whether control can come to a statement is a question about paths in the graph. It has an answer
in the syntax tree, which goes from the outside in: control must come into the block of the
statement, and it must go on behind each statement before it there. Which statements it goes on behind
depends on the layout, and `Code.live` lists the answers for some code, given the answer for its
block.

The list is what paths are compared with, so a layout has to be looked at only once: if no edge leads
from a listed node to one that is not listed, and every listed node is reached, then the list is right,
and with it what the syntax tree says.

## Contents
- `Graph.Numbered`, `Graph.Reaches`, `Graph.Enters` and `Graph.ReachesInRows`.
- `Code.goesOn`, `Code.completes` and `Code.live`, with `Code.Numbers` for the nodes of some code.
- `Code.Marked`, with one lemma for each form of statement, and `Marked.stands`.
- `Code.origins_sublist`, no two nodes stand for one statement, and `Function.numbered`.
- **`Function.reachesInRows`**: to compare paths with the list is enough.
-/

namespace BraceLang

open BraceLang.Flow

namespace Flow.Graph

/-- The numbers of the nodes go from the entry to the exit without a gap, and no other node is an entry
    or an exit. -/
structure Numbered (g : Graph) : Prop where
  entry_lt_exit : entry < g.exit
  dense : ∀ id, (g.node? id).isSome = true ↔ id ≤ g.exit
  entry_iff : ∀ id v, g.node? id = some v → (v.station.kind = .entry ↔ id = entry)
  exit_iff : ∀ id v, g.node? id = some v → (v.station.kind = .exit ↔ id = g.exit)

/-- Control can go from one node to another along edges. -/
def Reaches (g : Graph) : Nat → Nat → Prop :=
  Relation.ReflTransGen fun source target => target ∈ g.successors source

/-- Control can come into a block of a function: the block is the body of the function, or it belongs
    to a decision that control can come to. -/
def Enters (g : Graph) (t : Tree) (function : Nat) (block : Tree.Node) : Prop :=
  t.childOfKind? function .functionBody = some block ∨
    ∃ id v owner, g.node? id = some v ∧ v.station.kind.isDecision = true ∧
      v.station.origin = some owner.id ∧ t.get? owner.id = some owner ∧
      block.id ∈ owner.children ∧ g.Reaches entry id

/-- Each node between the entry and the exit stands for a statement in a block, and control can come to it
    if and only if it comes into the block and `passes` each statement before it there. -/
structure ReachesInRows (g : Graph) (t : Tree) (function : Nat) (passes : Nat → Prop) : Prop where
  stands : ∀ id, entry < id → id < g.exit → ∃ v origin block before, g.node? id = some v ∧
    v.station.origin = some origin ∧ t.StandsIn block before origin ∧
      block.label.kind.isBlock = true
  reaches_iff : ∀ id v origin block before, entry < id → id < g.exit → g.node? id = some v →
    v.station.origin = some origin → t.StandsIn block before origin →
      (g.Reaches entry id ↔ (∀ s ∈ before, passes s) ∧ g.Enters t function block)

end Flow.Graph

/-! ## The list of answers -/

namespace Code

variable {n m : Nat} {h : Header} {body other c : Code} {closing otherClosing : Option Token}
  {e : ElseHead}

/-- Whether control can come to the end of some code, if it comes to its beginning. -/
def completes : Code → Bool
  | done => true
  | skip _ rest => rest.completes
  | simple s rest => !s.isReturn && rest.completes
  | loop _ _ _ _ rest | ifThen _ _ _ rest => rest.completes
  | ifThenElse _ body _ _ other _ rest => (body.completes || other.completes) && rest.completes

/-- Whether control goes on behind the first statement of some code. In the chained layout it never does
    so behind an `if`. -/
def goesOn (layout : Layout) : Code → Bool
  | done => true
  | skip _ rest => rest.goesOn layout
  | simple s _ => !s.isReturn
  | loop .. => true
  | ifThen .. => layout == .joined
  | ifThenElse _ body _ _ other _ _ => layout == .joined && (body.completes || other.completes)

/-- For each statement of some code, whether control can come to it, when `live` says whether it
    comes to the beginning of the code. -/
def live (layout : Layout) (live : Bool) : Code → List Bool
  | done => []
  | skip _ rest => rest.live layout live
  | simple s rest => live :: rest.live layout (live && (Code.simple s rest).goesOn layout)
  | loop _ _ body _ rest => live :: (body.live layout live ++ rest.live layout live)
  | ifThen h body closing rest =>
    live :: (body.live layout live ++
      rest.live layout (live && (Code.ifThen h body closing rest).goesOn layout))
  | ifThenElse h body closing e other otherClosing rest =>
    live :: (body.live layout live ++ (other.live layout live ++
      rest.live layout (live &&
        (Code.ifThenElse h body closing e other otherClosing rest).goesOn layout)))

theorem length_live (layout : Layout) (live : Bool) (c : Code) :
    (c.live layout live).length = c.statementCount := by
  induction c generalizing live with
  | done => rfl
  | skip _ rest ih => exact ih live
  | simple s rest ih =>
    rw [Code.live, statementCount, List.length_cons, ih]
    omega
  | loop _ _ body _ rest ihb ih | ifThen _ body _ rest ihb ih =>
    rw [Code.live, statementCount, List.length_cons, List.length_append, ihb, ih]
    omega
  | ifThenElse _ body _ _ other _ rest ihb iho ih =>
    rw [Code.live, statementCount, List.length_cons, List.length_append, List.length_append, ihb,
      iho, ih]
    omega

/-- The first statement of some code is marked as the code is. -/
theorem mark_of_mem_heads {layout : Layout} {live : Bool} {marks : Array Bool}
    (h : RowsAt marks n (c.live layout live)) (hm : m ∈ c.heads n) : marks[m]? = some live := by
  induction c with
  | done => exact absurd hm List.not_mem_nil
  | skip _ rest ih => exact ih h hm
  | _ =>
    obtain rfl := List.mem_singleton.mp hm
    exact h.head

/-- Control comes to the end of code that has no statement. -/
theorem completes_of_isEmpty (h : c.isEmpty = true) : c.completes = true := by
  induction c with
  | done => rfl
  | skip _ rest ih => exact ih h
  | _ => exact absurd h Bool.false_ne_true

/-- The number `m` is that of a statement of some code, of which the first one has the number `n`. -/
def Numbers (c : Code) (n m : Nat) : Prop := n ≤ m ∧ m < n + c.statementCount

theorem not_numbers_done : ¬ Code.done.Numbers n m := by
  unfold Numbers statementCount
  omega

theorem numbers_simple {s : Simple} :
    (Code.simple s c).Numbers n m ↔ m = n ∨ c.Numbers (n + 1) m := by
  simp only [Numbers, statementCount]
  omega

theorem numbers_loop {kind : LoopKind} : (Code.loop kind h body closing c).Numbers n m ↔
    m = n ∨ body.Numbers (n + 1) m ∨ c.Numbers (n + 1 + body.statementCount) m := by
  simp only [Numbers, statementCount]
  omega

theorem numbers_ifThen : (Code.ifThen h body closing c).Numbers n m ↔
    m = n ∨ body.Numbers (n + 1) m ∨ c.Numbers (n + 1 + body.statementCount) m := by
  simp only [Numbers, statementCount]
  omega

theorem numbers_ifThenElse : (Code.ifThenElse h body closing e other otherClosing c).Numbers n m ↔
    m = n ∨ body.Numbers (n + 1) m ∨ other.Numbers (n + 1 + body.statementCount) m ∨
      c.Numbers (n + 1 + body.statementCount + other.statementCount) m := by
  simp only [Numbers, statementCount]
  omega

end Code

/-! ## Code with its answers -/

/-- The code stands in the syntax tree from the number `base` on. In two tables, from the number `n` on,
    stand what its statements are and whether control can come to them, when `live` says whether it
    comes to the beginning of the code. -/
structure Code.Marked (t : Tree) (stations : Array Station) (marks : Array Bool) (layout : Layout)
    (base n : Nat) (live : Bool) (c : Code) : Prop where
  tree : t.Holds base c.outline
  stations : RowsAt stations n (c.stations base)
  marks : RowsAt marks n (c.live layout live)

namespace Code.Marked

variable {t : Tree} {stations : Array Station} {marks : Array Bool} {layout : Layout}
  {base n : Nat} {live : Bool} {h : Header} {body other c : Code}
  {closing otherClosing : Option Token} {e : ElseHead}

theorem skip {x : Token} (hm : Marked t stations marks layout base n live (.skip x c)) :
    Marked t stations marks layout base n live c :=
  ⟨hm.tree, hm.stations, hm.marks⟩

theorem simple {s : Simple} (hm : Marked t stations marks layout base n live (.simple s c)) :
    stations[n]? = some (s.station base) ∧ marks[n]? = some live ∧
      Marked t stations marks layout (base + 1 + s.parts.size) (n + 1)
        (live && (Code.simple s c).goesOn layout) c :=
  ⟨hm.stations.head, hm.marks.head, hm.tree.beside, hm.stations.tail, hm.marks.tail⟩

theorem loop {kind : LoopKind}
    (hm : Marked t stations marks layout base n live (.loop kind h body closing c)) :
    stations[n]? = some (h.station kind.flowKind kind.keyword base) ∧ marks[n]? = some live ∧
      Marked t stations marks layout (base + 3 + h.condition.length) (n + 1) live body ∧
      Marked t stations marks layout (base + 3 + h.condition.length + body.nodeCount)
        (n + 1 + body.statementCount) live c := by
  obtain ⟨hbody, hbeside, -⟩ := hm.tree.oneBlock
  rw [Code.size_outline] at hbeside
  obtain ⟨hstations, hstations'⟩ := hm.stations.tail.split (body.length_stations _)
  obtain ⟨hmarks, hmarks'⟩ := hm.marks.tail.split (body.length_live _ _)
  exact ⟨hm.stations.head, hm.marks.head, ⟨hbody, hstations, hmarks⟩, hbeside, hstations', hmarks'⟩

theorem ifThen (hm : Marked t stations marks layout base n live (.ifThen h body closing c)) :
    stations[n]? = some (h.station .branch HeaderKind.conditional.keyword base) ∧
      marks[n]? = some live ∧
      Marked t stations marks layout (base + 3 + h.condition.length) (n + 1) live body ∧
      Marked t stations marks layout (base + 3 + h.condition.length + body.nodeCount)
        (n + 1 + body.statementCount)
        (live && (Code.ifThen h body closing c).goesOn layout) c := by
  obtain ⟨hbody, hbeside, -⟩ := hm.tree.oneBlock
  rw [Code.size_outline] at hbeside
  obtain ⟨hstations, hstations'⟩ := hm.stations.tail.split (body.length_stations _)
  obtain ⟨hmarks, hmarks'⟩ := hm.marks.tail.split (body.length_live _ _)
  exact ⟨hm.stations.head, hm.marks.head, ⟨hbody, hstations, hmarks⟩, hbeside, hstations', hmarks'⟩

theorem ifThenElse (hm : Marked t stations marks layout base n live
      (.ifThenElse h body closing e other otherClosing c)) :
    stations[n]? = some (h.station .branch HeaderKind.conditional.keyword base) ∧
      marks[n]? = some live ∧
      Marked t stations marks layout (base + 3 + h.condition.length) (n + 1) live body ∧
      Marked t stations marks layout (base + 3 + h.condition.length + body.nodeCount + 1)
        (n + 1 + body.statementCount) live other ∧
      Marked t stations marks layout
        (base + 3 + h.condition.length + body.nodeCount + 1 + other.nodeCount)
        (n + 1 + body.statementCount + other.statementCount)
        (live && (Code.ifThenElse h body closing e other otherClosing c).goesOn layout) c := by
  obtain ⟨hbody, hother, hbeside, -⟩ := hm.tree.twoBlocks
  rw [Code.size_outline] at hother hbeside
  rw [Code.size_outline] at hbeside
  obtain ⟨hstations, hmore⟩ := hm.stations.tail.split (body.length_stations _)
  obtain ⟨hstations', hstations''⟩ := hmore.split (other.length_stations _)
  obtain ⟨hmarks, hmore'⟩ := hm.marks.tail.split (body.length_live _ _)
  obtain ⟨hmarks', hmarks''⟩ := hmore'.split (other.length_live _ _)
  exact ⟨hm.stations.head, hm.marks.head, ⟨hbody, hstations, hmarks⟩,
    ⟨hother, hstations', hmarks'⟩, hbeside, hstations'', hmarks''⟩

end Code.Marked

/-! ## Rows of statements -/

namespace Tree.Holds

variable {t : Tree} {base : Nat} {l block otherBlock : Label} {hd : Header}
  {body other siblings : Outline}

/-- The node of a statement with one block, and the node of the block. -/
theorem innerBlock (h : t.Holds base (.node l (.node hd.conditionLabel (Outline.leaves hd.condition)
      (.single block body)) siblings)) :
    ∃ owner inner : Node, owner.id = base ∧ t.get? owner.id = some owner ∧
      inner.id ∈ owner.children ∧ t.get? inner.id = some inner ∧ inner.label = block ∧
      inner.children = body.rootIds (base + 3 + hd.condition.length) := by
  have hinner := h.header.1.root
  rw [show base + 2 + hd.condition.length + 1 = base + 3 + hd.condition.length by omega] at hinner
  refine ⟨⟨base, l, _⟩, ⟨base + 2 + hd.condition.length, block, _⟩, rfl, h.root, ?_, hinner, rfl,
    rfl⟩
  rw [Outline.rootIds, Outline.size_leaves, Forest.single, Outline.rootIds,
    show base + 1 + 1 + hd.condition.length = base + 2 + hd.condition.length by omega]
  exact List.mem_cons_of_mem _ List.mem_cons_self

/-- The node of a statement with two blocks, and the nodes of these. -/
theorem innerBlocks (h : t.Holds base (.node l (.node hd.conditionLabel (Outline.leaves hd.condition)
      (.node block body (.single otherBlock other))) siblings)) :
    ∃ owner inner otherInner : Node, owner.id = base ∧ t.get? owner.id = some owner ∧
      inner.id ∈ owner.children ∧ t.get? inner.id = some inner ∧ inner.label = block ∧
      inner.children = body.rootIds (base + 3 + hd.condition.length) ∧
      otherInner.id ∈ owner.children ∧ t.get? otherInner.id = some otherInner ∧
      otherInner.label = otherBlock ∧
      otherInner.children = other.rootIds (base + 3 + hd.condition.length + body.size + 1) := by
  have hinner := h.header.1.root
  have hother := h.secondBlock.root
  rw [show base + 2 + hd.condition.length + 1 = base + 3 + hd.condition.length by omega] at hinner
  refine ⟨⟨base, l, _⟩, ⟨base + 2 + hd.condition.length, block, _⟩,
    ⟨base + 3 + hd.condition.length + body.size, otherBlock, _⟩, rfl, h.root, ?_, hinner, rfl, rfl,
    ?_, hother, rfl, rfl⟩
  all_goals
    rw [Outline.rootIds, Outline.size_leaves, Outline.rootIds, Forest.single, Outline.rootIds,
      show base + 1 + 1 + hd.condition.length = base + 2 + hd.condition.length by omega,
      show base + 2 + hd.condition.length + 1 + body.size =
        base + 3 + hd.condition.length + body.size by omega]
  · exact List.mem_cons_of_mem _ List.mem_cons_self
  · exact List.mem_cons_of_mem _ (List.mem_cons_of_mem _ List.mem_cons_self)

end Tree.Holds

/-- Of each statement `passes` says whether control goes on behind it. -/
def PassesAs (t : Tree) (layout : Layout) (passes : Nat → Prop) : Prop :=
  ∀ (base : Nat) (c : Code), t.Holds base c.outline → c.isEmpty = false →
    (passes base ↔ c.goesOn layout = true)

/-- If control comes to a statement just if it passes those before it, then it comes to the next one
    just if it passes that statement as well. -/
theorem passes_concat_iff {passes : Nat → Prop} {before : List Nat} {id : Nat} {enters : Prop}
    {live goesOn : Bool} (hlive : (∀ s ∈ before, passes s) ∧ enters ↔ live = true)
    (hpasses : passes id ↔ goesOn = true) :
    (∀ s ∈ before ++ [id], passes s) ∧ enters ↔ (live && goesOn) = true := by
  rw [Bool.and_eq_true, ← hlive, ← hpasses, List.forall_mem_append, List.forall_mem_singleton]
  constructor
  · rintro ⟨⟨hall, hid⟩, henters⟩
    exact ⟨⟨hall, henters⟩, hid⟩
  · rintro ⟨⟨hall, henters⟩, hid⟩
    exact ⟨⟨hall, hid⟩, henters⟩

namespace Code.Marked

variable {t : Tree} {stations : Array Station} {marks : Array Bool} {layout : Layout}
  {passes : Nat → Prop} {enters : Tree.Node → Prop} {c : Code} {base n m : Nat} {live : Bool}
  {block : Tree.Node} {before : List Nat}

/-- Control comes into the blocks of a decision just if it comes to the decision. -/
def EntersInner (t : Tree) (stations : Array Station) (marks : Array Bool)
    (enters : Tree.Node → Prop) : Prop :=
  ∀ (id : Nat) (station : Station) (owner inner : Tree.Node),
    stations[id]? = some station → station.kind.isDecision = true →
    station.origin = some owner.id → t.get? owner.id = some owner → inner.id ∈ owner.children →
      (enters inner ↔ marks[id]? = some true)

/-- **A statement is marked as the rows of the syntax tree say.** It stands in a block, and its mark says
    whether control comes into the block and passes each statement before it there. -/
theorem stands (hpasses : PassesAs t layout passes) (henters : EntersInner t stations marks enters)
    (hm : Marked t stations marks layout base n live c) (hblock : t.get? block.id = some block)
    (hkind : block.label.kind.isBlock = true)
    (hrow : block.children = before ++ c.outline.rootIds base)
    (hlive : (∀ s ∈ before, passes s) ∧ enters block ↔ live = true) (hin : c.Numbers n m) :
    ∃ station origin block before, stations[m]? = some station ∧ station.origin = some origin ∧
      t.StandsIn block before origin ∧ block.label.kind.isBlock = true ∧
        ((∀ s ∈ before, passes s) ∧ enters block ↔ marks[m]? = some true) := by
  -- The row goes on behind a statement, which then is one of those before; inside a block of a
  -- statement a new row begins, with nothing before it.
  induction c generalizing base n live block before with
  | done => exact absurd hin not_numbers_done
  | skip x rest ih => exact ih hm.skip hblock hkind hrow hlive hin
  | simple s rest ih =>
    obtain ⟨hstation, hmark, hrest⟩ := hm.simple
    have hnext := passes_concat_iff hlive (hpasses base _ hm.tree rfl)
    rw [outline, Outline.rootIds] at hrow
    rcases numbers_simple.mp hin with rfl | hin
    · refine ⟨_, base, block, before, hstation, rfl, ⟨hblock, _, hrow⟩, hkind, ?_⟩
      rw [hmark, Option.some_inj]
      exact hlive
    · rw [List.append_cons] at hrow
      exact ih hrest hblock hkind hrow hnext hin
  | loop kind hd body closing rest ihb ih =>
    obtain ⟨hstation, hmark, hbody, hrest⟩ := hm.loop
    have hnext := passes_concat_iff hlive (hpasses base _ hm.tree rfl)
    obtain ⟨owner, inner, rfl, howner, hmem, hinner, hlabel, hchildren⟩ := hm.tree.innerBlock
    have hdecision : (hd.station kind.flowKind kind.keyword owner.id).kind.isDecision = true := by
      cases kind <;> rfl
    have hin' := henters n _ owner inner hstation hdecision rfl howner hmem
    rw [outline, Outline.rootIds_oneBlock, size_outline] at hrow
    rcases numbers_loop.mp hin with rfl | hin | hin
    · refine ⟨_, owner.id, block, before, hstation, rfl, ⟨hblock, _, hrow⟩, hkind, ?_⟩
      rw [hmark, Option.some_inj]
      exact hlive
    · refine ihb hbody hinner (by rw [hlabel]; rfl) (hchildren.trans (List.nil_append _).symm) ?_ hin
      rw [hin', hmark, Option.some_inj]
      simp
    · rw [List.append_cons] at hrow
      have hgoesOn : (live && (Code.loop kind hd body closing rest).goesOn layout) = live :=
        Bool.and_true live
      rw [hgoesOn] at hnext
      exact ih hrest hblock hkind hrow hnext hin
  | ifThen hd body closing rest ihb ih =>
    obtain ⟨hstation, hmark, hbody, hrest⟩ := hm.ifThen
    have hnext := passes_concat_iff hlive (hpasses base _ hm.tree rfl)
    obtain ⟨owner, inner, rfl, howner, hmem, hinner, hlabel, hchildren⟩ := hm.tree.innerBlock
    have hin' := henters n _ owner inner hstation rfl rfl howner hmem
    rw [outline, Outline.rootIds_oneBlock, size_outline] at hrow
    rcases numbers_ifThen.mp hin with rfl | hin | hin
    · refine ⟨_, owner.id, block, before, hstation, rfl, ⟨hblock, _, hrow⟩, hkind, ?_⟩
      rw [hmark, Option.some_inj]
      exact hlive
    · refine ihb hbody hinner (by rw [hlabel]; rfl) (hchildren.trans (List.nil_append _).symm) ?_ hin
      rw [hin', hmark, Option.some_inj]
      simp
    · rw [List.append_cons] at hrow
      exact ih hrest hblock hkind hrow hnext hin
  | ifThenElse hd body closing e other otherClosing rest ihb iho ih =>
    obtain ⟨hstation, hmark, hbody, hother, hrest⟩ := hm.ifThenElse
    have hnext := passes_concat_iff hlive (hpasses base _ hm.tree rfl)
    obtain ⟨owner, inner, otherInner, rfl, howner, hmem, hinner, hlabel, hchildren, hmem', hinner',
      hlabel', hchildren'⟩ := hm.tree.innerBlocks
    have hin' := henters n _ owner inner hstation rfl rfl howner hmem
    have hin'' := henters n _ owner otherInner hstation rfl rfl howner hmem'
    rw [size_outline] at hchildren'
    rw [outline, Outline.rootIds_twoBlocks, size_outline, size_outline] at hrow
    rcases numbers_ifThenElse.mp hin with rfl | hin | hin | hin
    · refine ⟨_, owner.id, block, before, hstation, rfl, ⟨hblock, _, hrow⟩, hkind, ?_⟩
      rw [hmark, Option.some_inj]
      exact hlive
    · refine ihb hbody hinner (by rw [hlabel]; rfl) (hchildren.trans (List.nil_append _).symm) ?_ hin
      rw [hin', hmark, Option.some_inj]
      simp
    · refine iho hother hinner' (by rw [hlabel']; rfl) (hchildren'.trans (List.nil_append _).symm) ?_
        hin
      rw [hin'', hmark, Option.some_inj]
      simp
    · rw [List.append_cons] at hrow
      exact ih hrest hblock hkind hrow hnext hin

end Code.Marked

/-! ## Where the nodes come from -/

/-- Numbers of one range before numbers of a later one. -/
theorem append_sublist_range' {front back : List Nat} {base m next n count : Nat}
    (hfront : front.Sublist (List.range' base m)) (hback : back.Sublist (List.range' next n))
    (hnext : base + m ≤ next) (hcount : next + n = base + count) :
    (front ++ back).Sublist (List.range' base count) := by
  obtain ⟨k, rfl⟩ : ∃ k, next = base + k := ⟨next - base, by omega⟩
  rw [show count = k + n by omega, ← List.range'_append_1]
  exact (hfront.trans (List.range'_sublist_right.mpr (by omega))).append hback

/-- The nodes that the statements of some code come from are in the order of their numbers. -/
theorem Code.origins_sublist (c : Code) (base : Nat) :
    ((c.stations base).filterMap Station.origin).Sublist (List.range' base c.nodeCount) := by
  have hfirst (base : Nat) : [base].Sublist (List.range' base 1) := List.Sublist.refl _
  induction c generalizing base with
  | done => exact List.Sublist.refl _
  | skip x rest ih => exact ih base
  | simple s rest ih =>
    rw [nodeCount]
    exact append_sublist_range' (hfirst base) (ih _) (by omega) (by omega)
  | loop kind hd body closing rest ihb ih | ifThen hd body closing rest ihb ih =>
    rw [nodeCount, stations, List.filterMap_cons_some (f := Station.origin) rfl,
      List.filterMap_append]
    have hinner (first : Nat) := append_sublist_range' (ihb first) (ih (first + body.nodeCount))
      (Nat.le_refl _) (Nat.add_assoc _ _ _)
    exact append_sublist_range' (hfirst base) (hinner _) (by omega) (by omega)
  | ifThenElse hd body closing e other otherClosing rest ihb iho ih =>
    rw [nodeCount, stations, List.filterMap_cons_some (f := Station.origin) rfl,
      List.filterMap_append, List.filterMap_append]
    have hlast (first : Nat) := append_sublist_range' (iho first) (ih (first + other.nodeCount))
      (Nat.le_refl _) (Nat.add_assoc _ _ _)
    have hinner (first : Nat) := append_sublist_range' (ihb first)
      (hlast (first + body.nodeCount + 1)) (Nat.le_succ _)
      (show _ = first + (body.nodeCount + 1 + (other.nodeCount + rest.nodeCount)) by omega)
    exact append_sublist_range' (hfirst base) (hinner _) (by omega) (by omega)

/-- No statement becomes an entry or an exit. -/
theorem Code.kind_ne (c : Code) (base : Nat) :
    ∀ v ∈ c.stations base, v.kind ≠ .entry ∧ v.kind ≠ .exit := by
  induction c generalizing base with
  | done => exact fun _ hv => absurd hv List.not_mem_nil
  | skip x rest ih => exact ih base
  | simple s rest ih =>
    refine List.forall_mem_cons.mpr ⟨?_, ih _⟩
    cases s <;> simp [Simple.station, Simple.flowKind]
  | loop kind hd body closing rest ihb ih =>
    refine List.forall_mem_cons.mpr ⟨?_, List.forall_mem_append.mpr ⟨ihb _, ih _⟩⟩
    cases kind <;> simp [LoopKind.flowKind, Header.station]
  | ifThen hd body closing rest ihb ih =>
    refine List.forall_mem_cons.mpr ⟨?_, List.forall_mem_append.mpr ⟨ihb _, ih _⟩⟩
    simp [Header.station]
  | ifThenElse hd body closing e other otherClosing rest ihb iho ih =>
    refine List.forall_mem_cons.mpr ⟨?_,
      List.forall_mem_append.mpr ⟨ihb _, List.forall_mem_append.mpr ⟨iho _, ih _⟩⟩⟩
    simp [Header.station]

namespace Function

variable {f : Function} {id i j origin : Nat} {v w : Station} {layout : Layout}

/-- No two nodes of the graph of a function come from the same node of the syntax tree. -/
theorem eq_of_origin (hi : (f.stations id)[i]? = some v) (hj : (f.stations id)[j]? = some w)
    (hv : v.origin = some origin) (hw : w.origin = some origin) : i = j := by
  have hsublist : ((f.stations id).filterMap Station.origin).Sublist
      (List.range' id (2 + f.startOutline.size + f.code.nodeCount)) := by
    rw [stations, List.filterMap_cons_some (f := Station.origin) rfl, List.filterMap_append,
      show [exitStation].filterMap Station.origin = [] from rfl, List.append_nil]
    have hentry : [id].Sublist (List.range' id 1) := List.Sublist.refl _
    exact append_sublist_range' hentry (f.code.origins_sublist _) (by omega) (by omega)
  have hpairs := List.pairwise_filterMap.mp (hsublist.nodup List.nodup_range')
  obtain ⟨hlt, rfl⟩ := List.getElem?_eq_some_iff.mp hi
  obtain ⟨hlt', rfl⟩ := List.getElem?_eq_some_iff.mp hj
  rcases Nat.lt_trichotomy i j with hij | rfl | hij
  · exact absurd rfl (List.pairwise_iff_getElem.mp hpairs i j hlt hlt' hij _ hv _ hw)
  · rfl
  · exact absurd rfl (List.pairwise_iff_getElem.mp hpairs j i hlt' hlt hij _ hw _ hv)

theorem length_stations (f : Function) (id : Nat) :
    (f.stations id).length = f.code.statementCount + 2 := by
  rw [stations, List.length_cons, List.length_append, Code.length_stations]
  rfl

theorem length_edges (layout : Layout) (c : Code) :
    (layout.edges c).length = c.statementCount + 2 := by
  cases layout with
  | chained =>
    rw [Layout.edges, chained, List.length_append, List.length_modify, List.length_cons,
      Code.length_chainedEdges]
    rfl
  | joined =>
    rw [Layout.edges, joined, List.length_cons, List.length_append, Code.length_joinedEdges]
    rfl

/-- The nodes of the graph of a function have their stations and their successors from two lists. -/
theorem node?_graph_eq_some_iff {v : Flow.Node} : (f.graph layout id).node? i = some v ↔
    (f.stations id)[i]? = some v.station ∧ (layout.edges f.code)[i]? = some v.successors := by
  rw [Graph.node?, graph, List.getElem?_toArray, List.getElem?_zipWith]
  cases v with
  | mk station successors =>
    cases (f.stations id)[i]? <;> cases (layout.edges f.code)[i]? <;> simp

theorem exists_node?_graph (layout : Layout) (h : (f.stations id)[i]? = some v) :
    ∃ w, (f.graph layout id).node? i = some w ∧ w.station = v := by
  obtain ⟨hlt, rfl⟩ := List.getElem?_eq_some_iff.mp h
  have hrow : i < (layout.edges f.code).length := by
    rwa [length_edges, ← f.length_stations id]
  exact ⟨⟨_, (layout.edges f.code)[i]⟩,
    node?_graph_eq_some_iff.mpr ⟨h, List.getElem?_eq_getElem hrow⟩, rfl⟩

theorem map_successors_graph (layout : Layout) (id : Nat) (f : Function) :
    (f.graph layout id).nodes.toList.map Flow.Node.successors = layout.edges f.code := by
  rw [graph, map_successors_zipWith]
  rw [length_stations, length_edges]

theorem successors_graph (layout : Layout) (id : Nat) (f : Function) (i : Nat) :
    (f.graph layout id).successors i = (layout.edges f.code)[i]?.getD [] := by
  rw [← map_successors_graph layout id f, List.getElem?_map, Graph.successors, Graph.node?,
    Array.getElem?_toList]

theorem size_graph (layout : Layout) (id : Nat) (f : Function) :
    (f.graph layout id).size = f.code.statementCount + 2 := by
  rw [Graph.size, graph, List.size_toArray, List.length_zipWith, length_stations, length_edges,
    Nat.min_self]

theorem exit_graph (layout : Layout) (id : Nat) (f : Function) :
    (f.graph layout id).exit = f.code.statementCount + 1 := by
  rw [Graph.exit, size_graph]
  rfl

/-- A node of the graph of a function is its entry, its exit or a statement. -/
theorem node?_cases {v : Flow.Node} (hv : (f.graph layout id).node? i = some v) :
    (i = Graph.entry ∧ v.station = entryStation id) ∨
      (i = (f.graph layout id).exit ∧ v.station = exitStation) ∨
      (f.code.Numbers 1 i ∧ v.station.kind ≠ .entry ∧ v.station.kind ≠ .exit) := by
  have hstation := (node?_graph_eq_some_iff.mp hv).1
  have hlt := (List.getElem?_eq_some_iff.mp hstation).1
  rw [f.length_stations] at hlt
  rw [exit_graph]
  cases i with
  | zero => exact .inl ⟨rfl, (Option.some.inj hstation).symm⟩
  | succ i =>
    rw [stations, List.getElem?_cons_succ] at hstation
    by_cases hexit : i = f.code.statementCount
    · subst hexit
      rw [← f.code.length_stations (id + 2 + f.startOutline.size),
        List.getElem?_concat_length] at hstation
      exact .inr (.inl ⟨rfl, (Option.some.inj hstation).symm⟩)
    · have hin : i < f.code.statementCount := by omega
      rw [List.getElem?_append_left (by rwa [f.code.length_stations])] at hstation
      exact .inr (.inr ⟨⟨by omega, by omega⟩, f.code.kind_ne _ _ (List.mem_of_getElem? hstation)⟩)

theorem numbered (f : Function) (layout : Layout) (id : Nat) : (f.graph layout id).Numbered := by
  have hsize : (f.graph layout id).nodes.size = f.code.statementCount + 2 := f.size_graph layout id
  have hexit := f.exit_graph layout id
  have hpos : Graph.entry < (f.graph layout id).exit := by
    rw [hexit]
    exact Nat.zero_lt_succ _
  constructor
  case entry_lt_exit => exact hpos
  case dense =>
    intro i
    rw [hexit, Graph.node?, Option.isSome_iff_ne_none, ne_eq, Array.getElem?_eq_none_iff, hsize]
    omega
  case entry_iff =>
    intro i v hv
    rcases node?_cases hv with ⟨rfl, hstation⟩ | ⟨rfl, hstation⟩ | ⟨hin, hentry, -⟩
    · simp [hstation, entryStation]
    · simp [hstation, exitStation, Nat.ne_of_gt hpos]
    · have hne : i ≠ Graph.entry := Nat.ne_of_gt hin.1
      simp [hentry, hne]
  case exit_iff =>
    intro i v hv
    rcases node?_cases hv with ⟨rfl, hstation⟩ | ⟨rfl, hstation⟩ | ⟨hin, -, hexit'⟩
    · simp [hstation, entryStation, Nat.ne_of_lt hpos]
    · simp [hstation, exitStation]
    · have hne : i ≠ (f.graph layout id).exit := by
        have hbound := hin.2
        omega
      simp [hexit', hne]

end Function

/-! ## Functions -/

/-- If the entry is marked, no edge leads out of the marked nodes, and all of these are reached, then the
    marks say what is reached. -/
theorem Flow.Graph.reaches_iff_of_marks {g : Graph} {marks : List Bool}
    (hentry : marks[Graph.entry]? = some true)
    (hclosed : ∀ a b, b ∈ g.successors a → marks[a]? = some true → marks[b]? = some true)
    (hreached : ∀ m, marks[m]? = some true → g.Reaches Graph.entry m) (m : Nat) :
    g.Reaches Graph.entry m ↔ marks[m]? = some true := by
  refine ⟨?_, hreached m⟩
  intro h
  induction h with
  | refl => exact hentry
  | tail _ hedge ih => exact hclosed _ _ hedge ih

namespace Function

variable {o more : Outline} {f : Function} {id : Nat} {layout : Layout} {passes : Nat → Prop}

/-- For each node of the graph of a function, whether control can come to it. -/
def marks (layout : Layout) (f : Function) : List Bool :=
  true :: (f.code.live layout true ++ [true])

theorem length_marks (layout : Layout) (f : Function) :
    (f.marks layout).length = f.code.statementCount + 2 := by
  rw [marks, List.length_cons, List.length_append, Code.length_live]
  rfl

/-- The exit is marked. -/
theorem mark_exit (layout : Layout) (f : Function) :
    (f.marks layout)[f.code.statementCount + 1]? = some true := by
  rw [marks, List.getElem?_cons_succ, ← f.code.length_live layout true, List.getElem?_concat_length]

theorem marked {t : Tree} (h : t.Holds id (f.outline ++ more)) (layout : Layout) :
    Code.Marked t (f.stations id).toArray (f.marks layout).toArray layout
      (id + 2 + f.startOutline.size) 1 true f.code :=
  ⟨h.functionCode, (RowsAt.toArray _).tail.left, (RowsAt.toArray _).tail.left⟩

/-- Control comes into a block of a statement just if the statement is marked. -/
theorem entersInner (h : (Tree.ofOutline o).Holds id (f.outline ++ more))
    (hmarks : ∀ m, (f.graph layout id).Reaches Graph.entry m ↔
      (f.marks layout)[m]? = some true) :
    Code.Marked.EntersInner (Tree.ofOutline o) (f.stations id).toArray (f.marks layout).toArray
      ((f.graph layout id).Enters (Tree.ofOutline o) id) := by
  intro i station owner inner hstation hdecision horigin howner hmem
  rw [List.getElem?_toArray] at hstation ⊢
  rw [← hmarks]
  constructor
  · rintro (hbody | ⟨j, v, other, hv, -, horigin', hother, hmem', hreach⟩)
    · -- the body belongs to the function itself, from which the entry comes
      obtain ⟨d, hd, hbodyMem, -⟩ := Tree.of_childOfKind?_eq_some hbody
      have hid : d.id = id := (Tree.get?_ofOutline_eq_some_iff.mp hd).2
      subst hid
      have hsame : owner = d := Tree.parent_unique howner hd hmem hbodyMem
      subst hsame
      have hfirst : (f.stations owner.id)[0]? = some (entryStation owner.id) := rfl
      obtain rfl := eq_of_origin hstation hfirst horigin rfl
      rw [hfirst] at hstation
      obtain rfl := Option.some.inj hstation
      exact absurd hdecision Bool.false_ne_true
    · have hsame : owner = other := Tree.parent_unique howner hother hmem hmem'
      subst hsame
      obtain rfl := eq_of_origin hstation (node?_graph_eq_some_iff.mp hv).1 horigin horigin'
      exact hreach
  · intro hreach
    obtain ⟨v, hv, rfl⟩ := exists_node?_graph layout hstation
    exact .inr ⟨i, v, owner, hv, hdecision, horigin, howner, hmem, hreach⟩

/-- A function that has a statement has a body, in which its statements stand in a row. -/
theorem exists_bodyBlock {n m : Nat} (h : (Tree.ofOutline o).Holds id (f.outline ++ more))
    (hin : f.code.Numbers n m) :
    ∃ block, (Tree.ofOutline o).childOfKind? id .functionBody = some block ∧
      (Tree.ofOutline o).get? block.id = some block ∧ block.label.kind.isBlock = true ∧
      block.children = f.code.outline.rootIds (id + 2 + f.startOutline.size) := by
  have hbody := h.childOfKind?_functionBody
  rw [bodyNode?] at hbody
  cases hb : f.body with
  | none =>
    rw [Function.code, hb] at hin
    exact absurd hin Code.not_numbers_done
  | some b =>
    rw [hb, Option.map_some] at hbody
    obtain ⟨d, -, -, hblock, -⟩ := Tree.of_childOfKind?_eq_some hbody
    have hcode : f.code = b.code := by
      rw [Function.code, hb]
      rfl
    refine ⟨_, hbody, hblock, rfl, ?_⟩
    rw [hcode]

/-- **What the marks of a function say about its graph, the rows of the syntax tree say.** -/
theorem reachesInRows (h : (Tree.ofOutline o).Holds id (f.outline ++ more))
    (hpasses : PassesAs (Tree.ofOutline o) layout passes)
    (hmarks : ∀ m, (f.graph layout id).Reaches Graph.entry m ↔
      (f.marks layout)[m]? = some true) :
    (f.graph layout id).ReachesInRows (Tree.ofOutline o) id passes := by
  have hstands : ∀ m, Graph.entry < m → m < (f.graph layout id).exit →
      ∃ station origin block before, (f.stations id).toArray[m]? = some station ∧
        station.origin = some origin ∧ (Tree.ofOutline o).StandsIn block before origin ∧
          block.label.kind.isBlock = true ∧
            ((∀ s ∈ before, passes s) ∧ (f.graph layout id).Enters (Tree.ofOutline o) id block ↔
              (f.marks layout).toArray[m]? = some true) := by
    intro m hentry hexit
    rw [exit_graph] at hexit
    have hin : f.code.Numbers 1 m := ⟨hentry, by omega⟩
    obtain ⟨block, hbody, hblock, hkind, hrow⟩ := exists_bodyBlock h hin
    refine (f.marked h layout).stands hpasses (entersInner h hmarks) hblock hkind
      (hrow.trans (List.nil_append _).symm) ?_ hin
    have henters : (f.graph layout id).Enters (Tree.ofOutline o) id block := Or.inl hbody
    simp [henters]
  constructor
  · intro m hentry hexit
    obtain ⟨station, origin, block, before, hstation, horigin, hin, hkind, -⟩ := hstands m hentry hexit
    rw [List.getElem?_toArray] at hstation
    obtain ⟨v, hv, rfl⟩ := exists_node?_graph layout hstation
    exact ⟨v, origin, block, before, hv, horigin, hin, hkind⟩
  · intro m v origin block before hentry hexit hv horigin hin
    obtain ⟨station, origin', block', before', hstation, horigin', hin', -, hiff⟩ :=
      hstands m hentry hexit
    rw [List.getElem?_toArray, (node?_graph_eq_some_iff.mp hv).1] at hstation
    obtain rfl := Option.some.inj hstation
    obtain rfl := Option.some.inj (horigin.symm.trans horigin')
    obtain ⟨rfl, rfl⟩ := hin.unique hin'
    rw [hmarks, hiff, List.getElem?_toArray]

end Function

end BraceLang
