import BraceLang.Proofs.Flow.ChainedShape
import BraceLang.Proofs.Flow.Layouts

/-!
# `Proofs.Flow.Chaining` — what each node of the chained graph leads to

The syntax tree alone says what the successors of a statement are, and in which order: the first statements
of its blocks, and then the next statement of its own block. An `if` and a `return` do not go on in their
block. A graph chains as written if its nodes have these successors, and the exit hangs, behind all others,
under the one node to which the way along the last of them leads.

In a body without blocks and without a `return` the statements follow each other to the exit. There is
nothing to join, so the joined layout gives the same graph.

## Contents
- `Tree.chainedBehind` and `Tree.BlockEnds`, and from these `Graph.ChainsAsWritten`.
- `Code.Chained.FollowsTree`, with one lemma for each form of statement, and
  **`Code.Chained.followsTree`**.
- `HangsOn.innerSuccessors_eq`, and **`Function.chainsAsWritten`**.
- `Code.isStraight`, with `Flow.chained_of_isStraight` and `Flow.joined_of_isStraight`.
- `Graph.IsPathThrough`, and `Function.isPathThrough` and `Function.graph_joined_of_isStraight`.
- **`Program.chained_chainsAsWritten`**.
-/

namespace BraceLang

open BraceLang.Flow

/-! ## What the tree says -/

namespace Tree

/-- The statements that the statement `s` leads to, if the statements `after` come behind it in its block. -/
def chainedBehind (t : Tree) (s : Node) (after : List Nat) : List Nat :=
  match s.label.kind with
  | .ifStatement => (t.blockIds s.id .ifBody).head?.toList ++ (t.blockIds s.id .elseBranch).head?.toList
  | .forStatement | .whileStatement => (t.blockIds s.id .loopBody).head?.toList ++ after.head?.toList
  | .returnStatement => []
  | _ => after.head?.toList

/-- The statements `ids` are the last ones of the block `block`. -/
structure BlockEnds (t : Tree) (block : Node) (ids : List Nat) : Prop where
  get_block : t.get? block.id = some block
  isBlock : block.label.kind.isBlock = true
  row : ∃ before, block.children = before ++ ids

/-- The body of a function holds nothing but calls, declarations and assignments. -/
def HasStraightBody (t : Tree) (function : Nat) : Prop :=
  ∀ s ∈ t.blockIds function .functionBody,
    t.kind? s ∈ [some .functionCall, some .variableDeclaration, some .assignment]

instance (t : Tree) (function : Nat) : Decidable (t.HasStraightBody function) :=
  inferInstanceAs (Decidable (∀ s ∈ t.blockIds function .functionBody, _))

end Tree

namespace Flow.Graph

/-- The node `id` of the graph stands for the node `s` of the syntax tree. -/
def StandsFor (g : Graph) (id s : Nat) : Prop :=
  ∃ v, g.node? id = some v ∧ v.station.origin = some s

/-- The successors of a node but for the exit. -/
def innerSuccessors (g : Graph) (id : Nat) : List Nat := (g.successors id).filter (· != g.exit)

/-- The nodes of the graph lead to where the text of the function goes on, in this order, and the exit
    comes last. -/
structure ChainsAsWritten (g : Graph) (t : Tree) (function : Nat) : Prop where
  numbered : g.Numbered
  standsFor_unique : ∀ a b s, g.StandsFor a s → g.StandsFor b s → a = b
  /-- The entry leads to the first statement of the body. -/
  entry : List.Forall₂ g.StandsFor (g.innerSuccessors Graph.entry)
    (t.blockIds function .functionBody).head?.toList
  /-- Each node between the entry and the exit is that of a statement, and leads to where it goes on. -/
  statement : ∀ id, Graph.entry < id → id < g.exit → ∃ v s block after,
    g.node? id = some v ∧ v.station.origin = some s.id ∧ v.station.kind = s.label.kind.flowKind ∧
      t.get? s.id = some s ∧ t.BlockEnds block (s.id :: after) ∧
      List.Forall₂ g.StandsFor (g.innerSuccessors id) (t.chainedBehind s after)
  successors_exit : g.successors g.exit = []
  /-- The exit is the last successor of the node to which the other last successors lead, and of no other. -/
  exit : ∃ last,
    Relation.ReflTransGen (fun a b => (g.innerSuccessors a).getLast? = some b) Graph.entry last ∧
      g.innerSuccessors last = [] ∧
      ∀ id, g.successors id = g.innerSuccessors id ++ if id = last then [g.exit] else []

end Flow.Graph

/-! ## Statements in the tree -/

namespace Tree

variable {t : Tree} {s block : Node} {ids after : List Nat} {id base : Nat}

theorem BlockEnds.tail (h : t.BlockEnds block (id :: ids)) : t.BlockEnds block ids := by
  obtain ⟨hblock, hkind, before, hrow⟩ := h
  exact ⟨hblock, hkind, before ++ [id], hrow.trans (List.append_cons _ _ _)⟩

theorem chainedBehind_loop {kind : LoopKind} (h : s.label.kind = kind.nodeKind) :
    t.chainedBehind s after = (t.blockIds s.id .loopBody).head?.toList ++ after.head?.toList := by
  rw [chainedBehind, h]
  cases kind <;> rfl

theorem chainedBehind_if (h : s.label.kind = .ifStatement) : t.chainedBehind s after =
    (t.blockIds s.id .ifBody).head?.toList ++ (t.blockIds s.id .elseBranch).head?.toList := by
  rw [chainedBehind, h]

namespace Holds

variable {l block otherBlock : Label} {hd : Header} {children siblings body other : Outline}

theorem exists_node (h : t.Holds base (.node l children siblings)) :
    ∃ s : Node, s.id = base ∧ t.get? s.id = some s ∧ s.label.kind = l.kind :=
  ⟨⟨base, l, children.rootIds (base + 1)⟩, rfl, h.root, rfl⟩

/-- In a block of a statement a new row begins. -/
theorem exists_blockEnds (h : t.Holds base (.node l (.node hd.conditionLabel
      (Outline.leaves hd.condition) (.single block body)) siblings)) (hb : block.kind.isBlock = true) :
    ∃ inner, t.BlockEnds inner (body.rootIds (base + 3 + hd.condition.length)) := by
  obtain ⟨-, inner, -, -, -, hinner, hlabel, hchildren⟩ := h.innerBlock
  exact ⟨inner, hinner, by rwa [hlabel], [], hchildren⟩

theorem exists_blockEnds_both (h : t.Holds base (.node l (.node hd.conditionLabel
      (Outline.leaves hd.condition) (.node block body (.single otherBlock other))) siblings))
    (hb : block.kind.isBlock = true) (ho : otherBlock.kind.isBlock = true) :
    (∃ inner, t.BlockEnds inner (body.rootIds (base + 3 + hd.condition.length))) ∧
      ∃ inner, t.BlockEnds inner
        (other.rootIds (base + 3 + hd.condition.length + body.size + 1)) := by
  obtain ⟨-, inner, otherInner, -, -, -, hinner, hlabel, hchildren, -, hinner', hlabel', hchildren'⟩ :=
    h.innerBlocks
  exact ⟨⟨inner, hinner, by rwa [hlabel], [], hchildren⟩,
    otherInner, hinner', by rwa [hlabel'], [], hchildren'⟩

end Holds

end Tree

/-! ## Code in the table of edges -/

namespace Code.Chained

variable {t : Tree} {stations : Array Station} {marks : Array Bool} {rows : Array (List Nat)}
  {base n m : Nat} {live : Bool} {hd : Header} {c body other : Code} {closing otherClosing : Option Token}
  {e : ElseHead} {block : Tree.Node}

/-- The row `n` of the table is that of the node `s` of the tree. -/
def StationOf (stations : Array Station) (n s : Nat) : Prop :=
  ∃ v, stations[n]? = some v ∧ v.origin = some s

/-- The row `n` of the tables is that of a statement, and the successors there are those that the tree
    says. -/
def FollowsTree (t : Tree) (stations : Array Station) (rows : Array (List Nat)) (n : Nat) : Prop :=
  ∃ v row s block after, stations[n]? = some v ∧ rows[n]? = some row ∧ v.origin = some s.id ∧
    v.kind = s.label.kind.flowKind ∧ t.get? s.id = some s ∧ t.BlockEnds block (s.id :: after) ∧
    List.Forall₂ (StationOf stations) row (t.chainedBehind s after)

/-- The way into some code leads to the first statement of it. -/
theorem heads_stand (hm : Code.Marked t stations marks .chained base n live c) :
    List.Forall₂ (StationOf stations) (c.heads n) (c.outline.rootIds base).head?.toList := by
  induction c generalizing base n live with
  | done => exact .nil
  | skip x rest ih => exact ih hm.skip
  | _ => exact .cons ⟨_, hm.stations.head, rfl⟩ .nil

theorem followsTree_simple {s : Simple} (hc : Chained t stations marks rows base n live (.simple s c))
    (hrow : t.BlockEnds block ((Code.simple s c).outline.rootIds base)) :
    FollowsTree t stations rows n := by
  obtain ⟨hstation, -, -⟩ := hc.toMarked.simple
  obtain ⟨htable, hrest⟩ := hc.simple
  have hnext := heads_stand hrest.toMarked
  refine ⟨_, _, ⟨base, s.label, s.parts.rootIds (base + 1)⟩, block, _, hstation, htable, rfl, ?_,
    hc.tree.root, hrow, ?_⟩
  · cases s <;> rfl
  · cases s with
    | ret keyword value semicolon => exact .nil
    | _ => exact hnext

theorem followsTree_loop {kind : LoopKind}
    (hc : Chained t stations marks rows base n live (.loop kind hd body closing c))
    (hrow : t.BlockEnds block ((Code.loop kind hd body closing c).outline.rootIds base)) :
    FollowsTree t stations rows n := by
  obtain ⟨hstation, -, -⟩ := hc.toMarked.loop
  obtain ⟨htable, hbody, hrest⟩ := hc.loop
  have hids := hc.tree.blockIds_loop
  have hnext := List.rel_append (heads_stand hbody.toMarked) (heads_stand hrest.toMarked)
  rw [outline, Outline.rootIds_oneBlock, size_outline] at hrow
  obtain ⟨s, rfl, hs, hkind⟩ := hc.tree.exists_node
  refine ⟨_, _, s, block, _, hstation, htable, rfl, ?_, hs, hrow, ?_⟩
  · rw [hkind]
    cases kind <;> rfl
  · rw [Tree.chainedBehind_loop hkind, hids]
    exact hnext

theorem followsTree_ifThen (hc : Chained t stations marks rows base n live (.ifThen hd body closing c))
    (hrow : t.BlockEnds block ((Code.ifThen hd body closing c).outline.rootIds base)) :
    FollowsTree t stations rows n := by
  obtain ⟨hstation, -, -⟩ := hc.toMarked.ifThen
  obtain ⟨htable, hbody, -⟩ := hc.ifThen
  obtain ⟨hids, hnone⟩ := hc.tree.blockIds_ifThen
  have hnext := heads_stand hbody.toMarked
  rw [outline, Outline.rootIds_oneBlock] at hrow
  obtain ⟨s, rfl, hs, hkind⟩ := hc.tree.exists_node
  refine ⟨_, _, s, block, _, hstation, htable, rfl, ?_, hs, hrow, ?_⟩
  · rw [hkind]
    rfl
  · rw [Tree.chainedBehind_if hkind, hids, hnone]
    simpa using hnext

theorem followsTree_ifThenElse
    (hc : Chained t stations marks rows base n live (.ifThenElse hd body closing e other otherClosing c))
    (hrow : t.BlockEnds block
      ((Code.ifThenElse hd body closing e other otherClosing c).outline.rootIds base)) :
    FollowsTree t stations rows n := by
  obtain ⟨hstation, -, -⟩ := hc.toMarked.ifThenElse
  obtain ⟨htable, hbody, hother, -⟩ := hc.ifThenElse
  obtain ⟨hids, hids'⟩ := hc.tree.blockIds_ifThenElse
  have hnext := List.rel_append (heads_stand hbody.toMarked) (heads_stand hother.toMarked)
  rw [outline, Outline.rootIds_twoBlocks] at hrow
  obtain ⟨s, rfl, hs, hkind⟩ := hc.tree.exists_node
  refine ⟨_, _, s, block, _, hstation, htable, rfl, ?_, hs, hrow, ?_⟩
  · rw [hkind]
    rfl
  · rw [Tree.chainedBehind_if hkind, hids, hids']
    exact hnext

/-- **The successors of all statements in the table are those that the tree says.** -/
theorem followsTree (hc : Chained t stations marks rows base n live c)
    (hrow : t.BlockEnds block (c.outline.rootIds base)) (hin : c.Numbers n m) :
    FollowsTree t stations rows m := by
  -- behind a statement its row goes on, and in a block of it another one begins
  induction c generalizing base n live block with
  | done => exact absurd hin not_numbers_done
  | skip x rest ih => exact ih hc.skip hrow hin
  | simple s rest ih =>
    rcases numbers_simple.mp hin with rfl | hin
    · exact hc.followsTree_simple hrow
    · exact ih hc.simple.2 hrow.tail hin
  | loop kind hd body closing rest ihb ih =>
    obtain ⟨-, hbody, hrest⟩ := hc.loop
    rcases numbers_loop.mp hin with rfl | hin | hin
    · exact hc.followsTree_loop hrow
    · obtain ⟨inner, hinner⟩ := hc.tree.exists_blockEnds rfl
      exact ihb hbody hinner hin
    · rw [outline, Outline.rootIds_oneBlock, size_outline] at hrow
      exact ih hrest hrow.tail hin
  | ifThen hd body closing rest ihb ih =>
    obtain ⟨-, hbody, hrest⟩ := hc.ifThen
    rcases numbers_ifThen.mp hin with rfl | hin | hin
    · exact hc.followsTree_ifThen hrow
    · obtain ⟨inner, hinner⟩ := hc.tree.exists_blockEnds rfl
      exact ihb hbody hinner hin
    · rw [outline, Outline.rootIds_oneBlock, size_outline] at hrow
      exact ih hrest hrow.tail hin
  | ifThenElse hd body closing e other otherClosing rest ihb iho ih =>
    obtain ⟨-, hbody, hother, hrest⟩ := hc.ifThenElse
    obtain ⟨⟨inner, hinner⟩, otherInner, hotherInner⟩ := hc.tree.exists_blockEnds_both rfl rfl
    rw [size_outline] at hotherInner
    rcases numbers_ifThenElse.mp hin with rfl | hin | hin | hin
    · exact hc.followsTree_ifThenElse hrow
    · exact ihb hbody hinner hin
    · exact iho hother hotherInner hin
    · rw [outline, Outline.rootIds_twoBlocks, size_outline, size_outline] at hrow
      exact ih hrest hrow.tail hin

end Code.Chained

/-! ## Functions -/

namespace Function

variable {o more : Outline} {t : Tree} {f : Function} {id a : Nat}

/-- Before the exit is hung on, the successors of the nodes are those of the table. -/
theorem HangsOn.innerSuccessors_eq {last : Nat} (hlast : f.HangsOn id last)
    (h : t.Holds id (f.outline ++ more)) (a : Nat) :
    (f.graph .chained id).innerSuccessors a = f.code.chainedTable[a]?.getD [] := by
  have hexit := f.exit_graph .chained id
  have hlength := f.code.length_chainedTable
  rw [Graph.innerSuccessors, hlast.successors]
  by_cases ha : a = last
  · rw [if_pos ha, ha, hlast.row]
    simp
  · rw [if_neg ha]
    cases hrow : f.code.chainedTable[a]? with
    | none => rfl
    | some row =>
      -- no row of the table leads to the exit
      refine List.filter_eq_self.mpr fun b hb => ?_
      have hlt := (leadsOn_chainedTable h hrow b hb).2
      exact bne_iff_ne.mpr (by omega)

theorem standsFor_iff {layout : Layout} {s : Nat} :
    (f.graph layout id).StandsFor a s ↔ Code.Chained.StationOf (f.stations id).toArray a s := by
  constructor
  · rintro ⟨v, hv, horigin⟩
    exact ⟨v.station, by rw [List.getElem?_toArray, (node?_graph_eq_some_iff.mp hv).1], horigin⟩
  · rintro ⟨v, hv, horigin⟩
    rw [List.getElem?_toArray] at hv
    obtain ⟨w, hw, rfl⟩ := exists_node?_graph layout hv
    exact ⟨w, hw, horigin⟩

/-- **The chained graph of a function chains as the function is written.** -/
theorem chainsAsWritten (h : (Tree.ofOutline o).Holds id (f.outline ++ more)) :
    (f.graph .chained id).ChainsAsWritten (Tree.ofOutline o) id := by
  obtain ⟨last, hlast⟩ := f.exists_hangsOn h
  have hinner := hlast.innerSuccessors_eq h
  have hexit := f.exit_graph .chained id
  have hlength := f.code.length_chainedTable
  have hstands (ids origins : List Nat)
      (hstations : List.Forall₂ (Code.Chained.StationOf (f.stations id).toArray) ids origins) :
      List.Forall₂ (f.graph .chained id).StandsFor ids origins :=
    hstations.imp fun a s => standsFor_iff.mpr
  constructor
  case numbered => exact f.numbered .chained id
  case standsFor_unique =>
    rintro a b s ⟨v, hv, hvorigin⟩ ⟨w, hw, hworigin⟩
    exact eq_of_origin (node?_graph_eq_some_iff.mp hv).1 (node?_graph_eq_some_iff.mp hw).1 hvorigin
      hworigin
  case entry =>
    rw [hinner, h.blockIds_functionBody]
    exact hstands _ _ (Code.Chained.heads_stand (chained h).toMarked)
  case statement =>
    intro a hentry hlt
    have hin : f.code.Numbers 1 a := ⟨hentry, by omega⟩
    obtain ⟨body, -, hbody, hkind, hchildren⟩ := exists_bodyBlock h hin
    obtain ⟨v, row, s, block, after, hv, htable, horigin, hnodeKind, hs, hblock, hrow⟩ :=
      (chained h).followsTree ⟨hbody, hkind, [], hchildren⟩ hin
    rw [List.getElem?_toArray] at hv htable
    obtain ⟨w, hw, rfl⟩ := exists_node?_graph .chained hv
    refine ⟨w, s, block, after, hw, horigin, hnodeKind, hs, hblock, ?_⟩
    rw [hinner, htable]
    exact hstands _ _ hrow
  case successors_exit =>
    have hlt := hlast.lt
    rw [hlast.successors, if_neg (by omega), List.getElem?_eq_none (by omega)]
    rfl
  case exit =>
    refine ⟨last, ?_, by rw [hinner, hlast.row]; rfl, ?_⟩
    · refine Relation.ReflTransGen.mono ?_ _ _ hlast.way
      intro a b hnext
      obtain ⟨row, hrow, hb⟩ := Option.bind_eq_some_iff.mp hnext
      rw [hinner, hrow]
      exact hb
    · intro a
      rw [hlast.successors, hinner]
      by_cases ha : a = last
      · rw [if_pos ha, if_pos ha, ha, hlast.row]
        rfl
      · rw [if_neg ha, if_neg ha, List.append_nil]

end Function

/-! ## Straight code -/

/-- The rows of `count` nodes of which the first leads to the node `n`, and each to the next one. -/
def Flow.links (n count : Nat) : List (List Nat) := (List.range' n count).map ([·])

theorem Flow.length_links (n count : Nat) : (links n count).length = count := by
  rw [links, List.length_map, List.length_range']

theorem Flow.links_succ (n count : Nat) : links n (count + 1) = [n] :: links (n + 1) count := by
  rw [links, List.range'_succ]
  rfl

theorem Flow.links_concat (n count : Nat) : links n (count + 1) = links n count ++ [[n + count]] := by
  rw [links, List.range'_1_concat, List.map_append]
  rfl

theorem Flow.getElem?_links {n count i : Nat} (h : i < count) : (links n count)[i]? = some [n + i] := by
  rw [links, List.getElem?_map, List.getElem?_range' h, Nat.one_mul]
  rfl

namespace Code

variable {t : Tree} {base n : Nat} {c : Code}

/-- Whether the code has no blocks, and control goes on behind each statement of it. -/
def isStraight : Code → Bool
  | done => true
  | skip _ rest => rest.isStraight
  | simple s rest => !s.isReturn && rest.isStraight
  | loop .. | ifThen .. | ifThenElse .. => false

theorem isStraight_of_kinds (h : t.Holds base c.outline) (hkinds : ∀ s ∈ c.outline.rootIds base,
    t.kind? s ∈ [some .functionCall, some .variableDeclaration, some .assignment]) :
    c.isStraight = true := by
  induction c generalizing base with
  | done => rfl
  | skip x rest ih => exact ih h hkinds
  | simple s rest ih =>
    obtain ⟨hfirst, hrest⟩ := List.forall_mem_cons.mp hkinds
    rw [h.kind?] at hfirst
    rw [isStraight, ih h.beside hrest, Bool.and_true]
    cases s with
    | ret => exact absurd hfirst (by simp [Simple.label, Label.covering])
    | _ => rfl
  | loop kind hd body closing rest _ _ =>
    have hkind : t.kind? base = some kind.nodeKind := h.kind?
    have hfirst := hkinds base List.mem_cons_self
    rw [hkind] at hfirst
    cases kind <;> exact absurd hfirst (by decide)
  | ifThen hd body closing rest _ _ | ifThenElse hd body closing e other otherClosing rest _ _ _ =>
    have hkind : t.kind? base = some .ifStatement := h.kind?
    have hfirst := hkinds base List.mem_cons_self
    rw [hkind] at hfirst
    exact absurd hfirst (by decide)

theorem chainedEdges_of_isStraight (h : c.isStraight = true) (n : Nat) :
    c.heads n :: c.chainedEdges n = links n c.statementCount ++ [[]] := by
  induction c generalizing n with
  | done => rfl
  | skip x rest ih => exact ih h n
  | simple s rest ih =>
    obtain ⟨hret, hrest⟩ := Bool.and_eq_true_iff.mp h
    rw [chainedEdges, if_neg (by simpa using hret), ih hrest, statementCount, Nat.add_comm 1,
      links_succ]
    rfl
  | _ => exact absurd h Bool.false_ne_true

theorem joinedEdges_of_isStraight (h : c.isStraight = true) (exit next n : Nat) :
    [c.entryOr n next] :: c.joinedEdges exit next n = links n c.statementCount ++ [[next]] := by
  induction c generalizing n with
  | done => rfl
  | skip x rest ih => exact ih h n
  | simple s rest ih =>
    obtain ⟨hret, hrest⟩ := Bool.and_eq_true_iff.mp h
    rw [joinedEdges, if_neg (by simpa using hret), ih hrest, statementCount, Nat.add_comm 1,
      links_succ]
    rfl
  | _ => exact absurd h Bool.false_ne_true

/-- The statements of straight code are the nodes of the graph from the first one on. -/
theorem Marked.forall₂_stationOf {stations : Array Station} {marks : Array Bool} {layout : Layout}
    {live : Bool} (hm : Marked t stations marks layout base n live c) (h : c.isStraight = true) :
    List.Forall₂ (Chained.StationOf stations) (List.range' n c.statementCount)
      (c.outline.rootIds base) := by
  induction c generalizing base n live with
  | done => exact .nil
  | skip x rest ih => exact ih hm.skip h
  | simple s rest ih =>
    obtain ⟨hstation, -, hrest⟩ := hm.simple
    rw [statementCount, Nat.add_comm 1, List.range'_succ]
    exact .cons ⟨_, hstation, rfl⟩ (ih hrest (Bool.and_eq_true_iff.mp h).2)
  | _ => exact absurd h Bool.false_ne_true

end Code

namespace Flow

variable {c : Code}

theorem joined_of_isStraight (h : c.isStraight = true) :
    joined c = links 1 (c.statementCount + 1) ++ [[]] := by
  rw [joined, ← List.cons_append, Code.joinedEdges_of_isStraight h, links_concat, Nat.add_comm 1]

/-- Along links the way leads from node to node, as far as the fuel lasts. -/
theorem follow_links (fuel : Nat) {id count : Nat} (hid : id ≤ count) :
    follow (links 1 count ++ [[]]).toArray fuel id = min (id + fuel) count := by
  induction fuel generalizing id with
  | zero => exact (Nat.min_eq_left hid).symm
  | succ fuel ih =>
    rw [follow, List.getElem?_toArray]
    rcases Nat.eq_or_lt_of_le hid with rfl | hlt
    · have hrow : (links 1 id ++ [[]])[(links 1 id).length]? = some [] := List.getElem?_concat_length
      rw [length_links] at hrow
      rw [hrow]
      exact (Nat.min_eq_right (Nat.le_add_right _ _)).symm
    · rw [List.getElem?_append_left (by rwa [length_links]), getElem?_links hlt]
      show follow _ fuel (1 + id) = _
      rw [ih (by omega)]
      omega

theorem chained_of_isStraight (h : c.isStraight = true) :
    chained c = links 1 (c.statementCount + 1) ++ [[]] := by
  have hlength := length_links 1 c.statementCount
  have hlast : follow (links 1 c.statementCount ++ [[]]).toArray
      (links 1 c.statementCount ++ [[]]).length Graph.entry = c.statementCount := by
    rw [Graph.entry, follow_links _ (Nat.zero_le _), List.length_append, hlength, Nat.zero_add]
    exact Nat.min_eq_right (Nat.le_succ _)
  rw [chained, Code.chainedEdges_of_isStraight h, hlast, List.modify_eq_take_drop,
    List.take_left' hlength, List.drop_left' hlength, links_concat, Nat.add_comm 1]
  rfl

end Flow

/-! ## Straight bodies -/

/-- The graph is a single path from the entry through the nodes of some statements to the exit. -/
structure Flow.Graph.IsPathThrough (g : Graph) (statements : List Nat) : Prop where
  exit_eq : g.exit = statements.length + 1
  stands : List.Forall₂ g.StandsFor (List.range' 1 statements.length) statements
  successors : ∀ id, id < g.exit → g.successors id = [id + 1]

namespace Function

variable {t : Tree} {more : Outline} {f : Function} {id : Nat}

theorem isPathThrough (h : t.Holds id (f.outline ++ more)) (hstraight : f.code.isStraight = true) :
    (f.graph .chained id).IsPathThrough (t.blockIds id .functionBody) := by
  have hstations := (chained h).toMarked.forall₂_stationOf hstraight
  have hlength := hstations.length_eq
  rw [List.length_range'] at hlength
  have hexit := f.exit_graph .chained id
  rw [h.blockIds_functionBody]
  constructor
  case exit_eq => rw [hexit, hlength]
  case stands =>
    rw [← hlength]
    exact hstations.imp fun a s => standsFor_iff.mpr
  case successors =>
    intro a ha
    have hlt : a < (links 1 (f.code.statementCount + 1)).length := by
      rw [length_links, ← hexit]
      exact ha
    rw [successors_graph, Layout.edges, chained_of_isStraight hstraight, List.getElem?_append_left hlt,
      getElem?_links (by rwa [length_links] at hlt), Nat.add_comm 1]
    rfl

/-- In straight code there is nothing to join. -/
theorem graph_joined_of_isStraight (hstraight : f.code.isStraight = true) :
    f.graph .joined id = f.graph .chained id := by
  rw [graph, graph, Layout.edges, Layout.edges, joined_of_isStraight hstraight,
    chained_of_isStraight hstraight]

end Function

namespace Program

variable {limit : Nat} {tokens : List Token} {p : Program} {name : String}

/-- **The chained graph of every function that is declared chains as the function is written.** If its body
    holds nothing but calls, declarations and assignments, the graph is a single path through them, and
    the joined graph is the same. -/
theorem chained_chainsAsWritten (h : Program.read limit tokens = .ok p)
    (hname : ∃ d ∈ p.tree.functions, d.label.text = name) :
    ∃ d g, p.tree.declaration? name = some d ∧ p.tree.graph? .chained name = .ok (some g) ∧
      d ∈ p.tree.functions ∧ d.label.text = name ∧ g.ChainsAsWritten p.tree d.id ∧
      (p.tree.HasStraightBody d.id → g.IsPathThrough (p.tree.blockIds d.id .functionBody) ∧
        p.tree.graph? .joined name = .ok (some g)) := by
  obtain ⟨id, f, more, hfunction, hholds, hd, hmem, hlabel⟩ := p.exists_function_of_declared hname
  have hgraph (layout : Layout) : p.tree.graph? layout name = .ok (some (f.graph layout id)) := by
    rw [p.graph?_tree h, Program.graph?, hfunction]
    rfl
  refine ⟨f.node id, f.graph .chained id, hd, hgraph .chained, hmem, hlabel,
    Function.chainsAsWritten hholds, ?_⟩
  intro hbody
  have hkinds : p.tree.HasStraightBody id := hbody
  rw [Tree.HasStraightBody, hholds.blockIds_functionBody] at hkinds
  have hstraight := Code.isStraight_of_kinds hholds.functionCode hkinds
  refine ⟨Function.isPathThrough hholds hstraight, ?_⟩
  rw [hgraph .joined, Function.graph_joined_of_isStraight hstraight]

/-- A function with a declaration, a call and an assignment. -/
def threeInARow : List Token := (tokenize "void f() \x7b int a = 1; g(a); a = 2; \x7d").tokens

theorem straight_threeInARow : ∃ p, Program.read 3 threeInARow = .ok p ∧
    ∃ d, p.tree.declaration? "f" = some d ∧ d ∈ p.tree.functions ∧ d.label.text = "f" ∧
      p.tree.HasStraightBody d.id := by
  have hfound : ((Program.read 3 threeInARow).toOption.bind fun p =>
      (p.tree.declaration? "f").filter fun d =>
        decide (d ∈ p.tree.functions ∧ d.label.text = "f" ∧ p.tree.HasStraightBody d.id)).isSome =
          true := by decide +kernel
  cases hread : Program.read 3 threeInARow with
  | error e =>
    rw [hread] at hfound
    exact absurd hfound Bool.false_ne_true
  | ok p =>
    rw [hread] at hfound
    obtain ⟨d, hd⟩ := Option.isSome_iff_exists.mp hfound
    obtain ⟨hd, hspec⟩ := Option.filter_eq_some_iff.mp hd
    exact ⟨p, rfl, d, hd, of_decide_eq_true hspec⟩

/-- The statements of `threeInARow` and those of `returnInLoop` follow each other as they are written. -/
theorem chained_chainsAsWritten_threeInARow :
    (∃ p d g, Program.read 3 threeInARow = .ok p ∧ p.tree.graph? .chained "f" = .ok (some g) ∧
      g.ChainsAsWritten p.tree d ∧ g.IsPathThrough (p.tree.blockIds d .functionBody) ∧
        p.tree.graph? .joined "f" = .ok (some g)) ∧
    ∃ p d g, Program.read 3 returnInLoop = .ok p ∧ p.tree.graph? .chained "f" = .ok (some g) ∧
      g.ChainsAsWritten p.tree d := by
  constructor
  · obtain ⟨p, hread, d, hd, hmem, hlabel, hstraight⟩ := straight_threeInARow
    obtain ⟨d', g, hd', hg, -, -, hchains, hpath⟩ := chained_chainsAsWritten hread ⟨d, hmem, hlabel⟩
    obtain rfl := Option.some.inj (hd.symm.trans hd')
    obtain ⟨hpath, hjoined⟩ := hpath hstraight
    exact ⟨p, d.id, g, hread, hg, hchains, hpath, hjoined⟩
  · obtain ⟨p, hread, hname⟩ := declared_returnInLoop
    obtain ⟨d, g, -, hg, -, -, hchains, -⟩ := chained_chainsAsWritten hread hname
    exact ⟨p, d.id, g, hread, hg, hchains⟩

end Program

end BraceLang
