import BraceLang.Proofs.Flow.Draft
import BraceLang.Proofs.Tree.Functions

/-!
# `Proofs.Flow.ChainedBuild` — the builder of the chained layout

Walking the blocks of a function adds, for each statement, its node and then the nodes of its
blocks. The statement before it in its block is linked afterwards, when the number of the next one is
known. The nodes that this leaves behind are those that the chained layout reads off the code.

The induction is on the code. What it carries is the row of nodes built so far, of which only the
one of the statement before may still change.

## Contents
- `Code.chainedNodes`, with one equation for each form of statement with blocks.
- `Flow.chainTo`, the change that linking the statement before makes.
- `Tree.Chains`, for the statements of a block, with `Chains.cons`, `Chains.chainsBlock` and `Holds.chains`.
- `follow_append_nil`: a node without successors at the end leads nowhere.
- **`Holds.gives_buildChained`**, for the body of a function.
-/

namespace BraceLang

open BraceLang.Flow

/-! ## The nodes of some code -/

namespace Code

variable {n base : Nat} {h : Header} {body other c : Code} {e : ElseHead}
  {closing otherClosing : Option Token}

/-- The number of the first statement of some code, if it has one, when it would be `n`. -/
def head? (c : Code) (n : Nat) : Option Nat := if c.isEmpty then none else some n

theorem toList_head? (c : Code) (n : Nat) : (c.head? n).toList = c.heads n := by
  rw [head?, heads]
  cases c.isEmpty <;> rfl

/-- The nodes of the statements of some code in the chained layout, when the first of them has the
    number `n` in the graph and `base` in the syntax tree. -/
def chainedNodes (n base : Nat) (c : Code) : List Flow.Node :=
  List.zipWith Flow.Node.mk (c.stations base) (c.chainedEdges n)

theorem length_chainedNodes (c : Code) : (c.chainedNodes n base).length = c.statementCount := by
  rw [chainedNodes, List.length_zipWith, length_stations, length_chainedEdges, Nat.min_self]

theorem zipWith_stations_chainedEdges (c : Code) (stations : List Station)
    (edges : List (List Nat)) :
    List.zipWith Flow.Node.mk (c.stations base ++ stations) (c.chainedEdges n ++ edges) =
      c.chainedNodes n base ++ List.zipWith Flow.Node.mk stations edges :=
  List.zipWith_append (by rw [length_stations, length_chainedEdges])

theorem chainedNodes_loop {kind : LoopKind} :
    (Code.loop kind h body closing c).chainedNodes n base =
      ⟨h.station kind.flowKind kind.keyword base,
          body.heads (n + 1) ++ c.heads (n + 1 + body.statementCount)⟩ ::
        (body.chainedNodes (n + 1) (base + 3 + h.condition.length) ++
          c.chainedNodes (n + 1 + body.statementCount)
            (base + 3 + h.condition.length + body.nodeCount)) := by
  rw [chainedNodes, stations, chainedEdges, List.zipWith_cons_cons, zipWith_stations_chainedEdges]
  rfl

theorem chainedNodes_ifThen : (Code.ifThen h body closing c).chainedNodes n base =
    ⟨h.station .branch HeaderKind.conditional.keyword base, body.heads (n + 1)⟩ ::
      (body.chainedNodes (n + 1) (base + 3 + h.condition.length) ++
        c.chainedNodes (n + 1 + body.statementCount)
          (base + 3 + h.condition.length + body.nodeCount)) := by
  rw [chainedNodes, stations, chainedEdges, List.zipWith_cons_cons, zipWith_stations_chainedEdges]
  rfl

theorem chainedNodes_ifThenElse :
    (Code.ifThenElse h body closing e other otherClosing c).chainedNodes n base =
      ⟨h.station .branch HeaderKind.conditional.keyword base,
          body.heads (n + 1) ++ other.heads (n + 1 + body.statementCount)⟩ ::
        (body.chainedNodes (n + 1) (base + 3 + h.condition.length) ++
          (other.chainedNodes (n + 1 + body.statementCount)
              (base + 3 + h.condition.length + body.nodeCount + 1) ++
            c.chainedNodes (n + 1 + body.statementCount + other.statementCount)
              (base + 3 + h.condition.length + body.nodeCount + 1 + other.nodeCount))) := by
  rw [chainedNodes, stations, chainedEdges, List.zipWith_cons_cons, zipWith_stations_chainedEdges,
    zipWith_stations_chainedEdges]
  rfl

end Code

/-! ## Linking the statement before -/

namespace Flow

variable {nodes more : List Node} {n : Nat} {v : Node}

/-- The nodes after a statement has been linked to the one that comes next in its block, if there
    are two such statements. -/
def chainTo (previous next : Option Nat) (nodes : List Node) : List Node :=
  match previous, next with
  | some previous, some next => nodes.modify previous (Tree.chain next)
  | _, _ => nodes

theorem chainTo_none (previous : Option Nat) (nodes : List Node) :
    chainTo previous none nodes = nodes := by
  cases previous <;> rfl

theorem length_chainTo (previous next : Option Nat) (nodes : List Node) :
    (chainTo previous next nodes).length = nodes.length := by
  cases previous <;> cases next <;> simp [chainTo, List.length_modify]

/-- A node that goes on to the statement behind it gets that as its last successor. -/
theorem chainTo_of_goesOn (hn : nodes.length = n) (hbranch : v.station.kind ≠ .branch)
    (hret : v.station.kind ≠ .ret) (next : Option Nat) (more : List Node) :
    chainTo (some n) next (nodes ++ v :: more) =
      nodes ++ ⟨v.station, v.successors ++ next.toList⟩ :: more := by
  subst hn
  cases next with
  | none => rw [chainTo_none, Option.toList_none, List.append_nil]
  | some next =>
    rw [chainTo, modify_append_cons, Tree.chain, if_neg (not_or.mpr ⟨hbranch, hret⟩)]
    rfl

/-- A decision between branches and a `return` stay as they are. -/
theorem chainTo_of_stops (hn : nodes.length = n)
    (hv : v.station.kind = .branch ∨ v.station.kind = .ret) (next : Option Nat)
    (more : List Node) : chainTo (some n) next (nodes ++ v :: more) = nodes ++ v :: more := by
  subst hn
  cases next with
  | none => rw [chainTo_none]
  | some next => rw [chainTo, modify_append_cons, Tree.chain, if_pos hv]

end Flow

/-! ## The statements of a block -/

namespace Tree

variable {t : Tree} {fuel n : Nat} {nodes added : List Flow.Node} {returns : List Nat}
  {block : Nat → Build (Option Nat)} {ends : Option Nat × Option Nat}

/-- A step of a block, when it is known what building its statement adds. -/
theorem gives_chainedStep {statement : Node} {id : Nat} (hnode : t.node id = .ok statement)
    (hprevious : ∀ p ∈ ends.2, p < nodes.length)
    (hstatement : Gives (t.chainedStatement block statement) (.ofNodes nodes returns) n
      (.ofNodes (nodes ++ added) returns)) :
    Gives (t.chainedStep block ends id) (.ofNodes nodes returns) (ends.1 <|> some n, some n)
      (.ofNodes (chainTo ends.2 (some n) nodes ++ added) returns) := by
  refine (gives_lift hnode _).bind (hstatement.bind ?_)
  obtain ⟨first, previous⟩ := ends
  cases previous with
  | none => exact gives_pure _ _
  | some previous =>
    have hlink := gives_modifyNode previous (chain n) (nodes ++ added) returns
    rw [modify_append_of_lt (hprevious previous rfl)] at hlink
    exact hlink.bind (gives_pure _ _)

/-- The block builder gives the first number of some code and adds the nodes of the code. -/
def ChainsBlock (block : Nat → Build (Option Nat)) (id base : Nat) (c : Code) : Prop :=
  ∀ nodes returns, Gives (block id) (.ofNodes nodes returns) (c.head? nodes.length)
    (.ofNodes (nodes ++ c.chainedNodes nodes.length base) returns)

/-- The statement has a block of this kind, and building it adds its nodes and links the statement
    to the first of them. -/
theorem gives_chainedBranch {kind : NodeKind} {origin id base : Nat} {c : Code}
    {v : Flow.Node} (hid : (t.childOfKind? origin kind).map Node.id = some id)
    (hblock : ChainsBlock block id base c) (hn : (nodes ++ v :: added).length = n) :
    Gives (t.chainedBranch block nodes.length origin kind)
      (.ofNodes (nodes ++ v :: added) returns) ()
      (.ofNodes (nodes ++ ⟨v.station, v.successors ++ c.heads n⟩ :: (added ++ c.chainedNodes n base))
        returns) := by
  subst hn
  obtain ⟨body, hbody, rfl⟩ := Option.map_eq_some_iff.mp hid
  rw [chainedBranch, hbody]
  refine (hblock _ _).bind ?_
  rw [← Code.toList_head?, List.append_assoc, List.cons_append]
  cases c.head? (nodes ++ v :: added).length with
  | none =>
    rw [Option.toList_none, List.append_nil]
    exact gives_pure _ _
  | some head => exact gives_addEdge rfl head v _ returns

/-- A statement without a block of this kind. -/
theorem gives_chainedBranch_none {kind : NodeKind} {origin id : Nat} {d : Draft}
    (hbody : t.childOfKind? origin kind = none) :
    Gives (t.chainedBranch block id origin kind) d () d := by
  rw [chainedBranch, hbody]
  exact gives_pure _ _

/-- Building the statements of some code behind others of their block gives the first number of the
    block, links the statement before them, and adds the nodes of the code. -/
def Chains (t : Tree) (fuel base : Nat) (c : Code) : Prop :=
  ∀ ends nodes returns, (∀ p ∈ ends.2, p < nodes.length) → ∃ last,
    Gives ((c.outline.rootIds base).foldlM (t.chainedStep (t.chainedBlock fuel)) ends)
      (.ofNodes nodes returns) (ends.1 <|> c.head? nodes.length, last)
      (.ofNodes (chainTo ends.2 (c.head? nodes.length) nodes ++
        c.chainedNodes nodes.length base) returns)

theorem Chains.chainsBlock {id base : Nat} {c : Code} {l : Label} {siblings : Outline}
    (hc : t.Chains fuel base c) (hbase : base = id + 1)
    (h : t.Holds id (.node l c.outline siblings)) :
    ChainsBlock (t.chainedBlock (fuel + 1)) id base c := by
  subst hbase
  intro nodes returns
  obtain ⟨last, hfold⟩ := hc (none, none) nodes returns (by simp)
  exact (gives_lift h.node_eq _).bind (hfold.bind (gives_pure _ _))

/-- A statement whose blocks have `k` statements, and the code behind it. The node `v` of the
    statement has become `v'` when the code behind it has been built, which `hrow` says. -/
theorem Chains.cons {statement : Node} {base next k : Nat} {c : Code} {v v' : Flow.Node}
    {inner : List Flow.Node} (hc : t.Chains fuel next c) (hnode : t.node base = .ok statement)
    (hprevious : ∀ p ∈ ends.2, p < nodes.length)
    (hstatement : Gives (t.chainedStatement (t.chainedBlock fuel) statement)
      (.ofNodes nodes returns) nodes.length (.ofNodes (nodes ++ v :: inner) returns))
    (hk : inner.length = k)
    (hrow : ∀ front : List Flow.Node, front.length = nodes.length →
      chainTo (some nodes.length) (c.head? (nodes.length + 1 + k)) (front ++ v :: inner) =
        front ++ v' :: inner) :
    ∃ last, Gives
      ((base :: c.outline.rootIds next).foldlM (t.chainedStep (t.chainedBlock fuel)) ends)
      (.ofNodes nodes returns) (ends.1 <|> some nodes.length, last)
      (.ofNodes (chainTo ends.2 (some nodes.length) nodes ++
        v' :: (inner ++ c.chainedNodes (nodes.length + 1 + k) next)) returns) := by
  subst hk
  have hstep := gives_chainedStep hnode hprevious hstatement
  have hlength := length_chainTo ends.2 (some nodes.length) nodes
  have hall : (chainTo ends.2 (some nodes.length) nodes ++ v :: inner).length =
      nodes.length + 1 + inner.length := by
    rw [List.length_append, List.length_cons, hlength]
    omega
  obtain ⟨last, hrest⟩ := hc (ends.1 <|> some nodes.length, some nodes.length)
    (chainTo ends.2 (some nodes.length) nodes ++ v :: inner) returns (by
      intro p hp
      obtain rfl := Option.mem_some_iff.mp hp
      omega)
  rw [hall, hrow _ hlength, List.append_assoc, List.cons_append] at hrest
  have hfirst : ((ends.1 <|> some nodes.length) <|>
      c.head? (nodes.length + 1 + inner.length)) = (ends.1 <|> some nodes.length) := by
    cases ends.1 <;> rfl
  dsimp only at hrest
  rw [hfirst] at hrest
  rw [List.foldlM_cons]
  exact ⟨last, hstep.bind hrest⟩

/-- A statement with blocks, when it is known what building its blocks adds. -/
theorem Holds.gives_chainedStatement {base : Nat} {l : Label} {hd : Header}
    {blocks siblings : Outline} {ids : List Nat} {kind : Flow.Kind} {keyword : String}
    {kinds : List NodeKind} {d : Draft}
    (h : t.Holds base
      (.node l (.node hd.conditionLabel (Outline.leaves hd.condition) blocks) siblings))
    (hheader : header? l.kind = some (kind, keyword, kinds))
    (hblocks : Gives (kinds.forM (t.chainedBranch block nodes.length base))
      (.ofNodes (nodes ++ [⟨hd.station kind keyword base, []⟩]) returns) () d) :
    Gives (t.chainedStatement block ⟨base, l, ids⟩) (.ofNodes nodes returns) nodes.length d := by
  rw [chainedStatement, hheader]
  exact (h.gives_pushHeader kind keyword ids nodes returns).bind (hblocks.bind (gives_pure _ _))

/-! One lemma for each form of statement: what building it adds, if the block builder does what it
should on its blocks. -/

namespace Holds

variable {base : Nat} {s : Simple} {hd : Header} {body other c : Code}
  {closing otherClosing : Option Token} {e : ElseHead} {l : Label} {ids : List Nat}

theorem gives_chainedSimple (h : t.Holds base (Code.simple s c).outline) (hs : s.HasValue) :
    Gives (t.chainedStatement block ⟨base, s.label, ids⟩) (.ofNodes nodes returns) nodes.length
      (.ofNodes (nodes ++ [⟨s.station base, []⟩]) returns) := by
  have hsimple : header? s.label.kind = none := by cases s <;> rfl
  rw [chainedStatement, hsimple]
  exact h.gives_pushSimple hs ids nodes returns

theorem gives_chainedLoop {kind : LoopKind}
    (h : t.Holds base (Code.loop kind hd body closing c).outline)
    (hbody : ChainsBlock block (base + 2 + hd.condition.length) (base + 3 + hd.condition.length)
      body) :
    Gives (t.chainedStatement block
        ⟨base, .covering kind.nodeKind none hd.keyword (blockLast hd.brace body closing), ids⟩)
      (.ofNodes nodes returns) nodes.length
      (.ofNodes (nodes ++
        ⟨hd.station kind.flowKind kind.keyword base, body.heads (nodes.length + 1)⟩ ::
          body.chainedNodes (nodes.length + 1) (base + 3 + hd.condition.length)) returns) := by
  have hheader : header? kind.nodeKind = some (kind.flowKind, kind.keyword, [.loopBody]) := by
    cases kind <;> rfl
  exact h.gives_chainedStatement hheader
    ((gives_chainedBranch h.loopBlock hbody List.length_append).bind (gives_pure _ _))

theorem gives_chainedIfThen (h : t.Holds base (Code.ifThen hd body closing c).outline)
    (hbody : ChainsBlock block (base + 2 + hd.condition.length) (base + 3 + hd.condition.length)
      body) :
    Gives (t.chainedStatement block
        ⟨base, .covering .ifStatement none hd.keyword (blockLast hd.brace body closing), ids⟩)
      (.ofNodes nodes returns) nodes.length
      (.ofNodes (nodes ++
        ⟨hd.station .branch HeaderKind.conditional.keyword base, body.heads (nodes.length + 1)⟩ ::
          body.chainedNodes (nodes.length + 1) (base + 3 + hd.condition.length)) returns) := by
  obtain ⟨hblock, hnone⟩ := h.ifThenBlock
  exact h.gives_chainedStatement rfl ((gives_chainedBranch hblock hbody List.length_append).bind
    ((gives_chainedBranch_none hnone).bind (gives_pure _ _)))

theorem gives_chainedIfThenElse
    (h : t.Holds base (Code.ifThenElse hd body closing e other otherClosing c).outline)
    (hbody : ChainsBlock block (base + 2 + hd.condition.length) (base + 3 + hd.condition.length)
      body)
    (hother : ChainsBlock block (base + 3 + hd.condition.length + body.nodeCount)
      (base + 3 + hd.condition.length + body.nodeCount + 1) other) :
    Gives (t.chainedStatement block
        ⟨base, .covering .ifStatement none hd.keyword (elseLast e other otherClosing), ids⟩)
      (.ofNodes nodes returns) nodes.length
      (.ofNodes (nodes ++
        ⟨hd.station .branch HeaderKind.conditional.keyword base,
          body.heads (nodes.length + 1) ++ other.heads (nodes.length + 1 + body.statementCount)⟩ ::
          (body.chainedNodes (nodes.length + 1) (base + 3 + hd.condition.length) ++
            other.chainedNodes (nodes.length + 1 + body.statementCount)
              (base + 3 + hd.condition.length + body.nodeCount + 1))) returns) := by
  obtain ⟨hblock, hotherBlock⟩ := h.ifThenElseBlocks
  have hmiddle (row : Flow.Node) : (nodes ++ row ::
      body.chainedNodes (nodes.length + 1) (base + 3 + hd.condition.length)).length =
        nodes.length + 1 + body.statementCount := by
    rw [List.length_append, List.length_cons, Code.length_chainedNodes]
    omega
  exact h.gives_chainedStatement rfl ((gives_chainedBranch hblock hbody List.length_append).bind
    ((gives_chainedBranch hotherBlock hother (hmiddle _)).bind (gives_pure _ _)))

/-- **The chained builder adds the nodes that the chained layout reads off the code.** -/
theorem chains (h : t.Holds base c.outline) (hv : c.HasValues) (hfuel : c.nodeCount ≤ fuel) :
    t.Chains fuel base c := by
  induction c generalizing base fuel with
  | done =>
    intro ends nodes returns hprevious
    have hends : (ends.1 <|> Code.done.head? nodes.length) = ends.1 := by cases ends.1 <;> rfl
    rw [hends, show Code.done.head? nodes.length = none from rfl, chainTo_none,
      show Code.done.chainedNodes nodes.length base = [] from rfl, List.append_nil]
    exact ⟨ends.2, gives_pure _ _⟩
  | skip x c ih => exact ih h hv hfuel
  | simple s c ih =>
    rw [Code.nodeCount] at hfuel
    intro ends nodes returns hprevious
    have hbranch : (s.station base).kind ≠ .branch := by
      cases s <;> simp [Simple.station, Simple.flowKind]
    have hret : s.isReturn = true ↔ (s.station base).kind = .ret := by
      cases s <;> simp [Simple.isReturn, Simple.station, Simple.flowKind]
    refine (ih h.beside hv.2 (by omega)).cons h.node_eq hprevious (h.gives_chainedSimple hv.1)
      List.length_nil ?_
    intro front hfront
    by_cases hs : s.isReturn = true
    · rw [chainTo_of_stops hfront (.inr (hret.mp hs)), if_pos hs]
    · rw [chainTo_of_goesOn hfront hbranch (hs ∘ hret.mpr), if_neg hs, Code.toList_head?]
      rfl
  | loop kind hd body closing c ihb ihc =>
    rw [Code.nodeCount] at hfuel
    obtain ⟨fuel, rfl⟩ : ∃ k, fuel = k + 1 := ⟨fuel - 1, by omega⟩
    obtain ⟨hbody, hbeside, -⟩ := h.oneBlock
    have hbuild := (ihb hbody hv.1 (show _ ≤ fuel by omega)).chainsBlock (by omega) h.header.1
    rw [Code.size_outline] at hbeside
    intro ends nodes returns hprevious
    rw [Code.chainedNodes_loop, Code.outline, Outline.rootIds_oneBlock, Code.size_outline]
    refine (ihc hbeside hv.2 (by omega)).cons h.node_eq hprevious (h.gives_chainedLoop hbuild)
      body.length_chainedNodes ?_
    intro front hfront
    have hkind : kind.flowKind ≠ .branch ∧ kind.flowKind ≠ .ret := by
      cases kind <;> simp [LoopKind.flowKind]
    rw [chainTo_of_goesOn hfront hkind.1 hkind.2, Code.toList_head?]
  | ifThen hd body closing c ihb ihc =>
    rw [Code.nodeCount] at hfuel
    obtain ⟨fuel, rfl⟩ : ∃ k, fuel = k + 1 := ⟨fuel - 1, by omega⟩
    obtain ⟨hbody, hbeside, -⟩ := h.oneBlock
    have hbuild := (ihb hbody hv.1 (show _ ≤ fuel by omega)).chainsBlock (by omega) h.header.1
    rw [Code.size_outline] at hbeside
    intro ends nodes returns hprevious
    rw [Code.chainedNodes_ifThen, Code.outline, Outline.rootIds_oneBlock, Code.size_outline]
    refine (ihc hbeside hv.2 (by omega)).cons h.node_eq hprevious (h.gives_chainedIfThen hbuild)
      body.length_chainedNodes ?_
    intro front hfront
    exact chainTo_of_stops hfront (.inl rfl) _ _
  | ifThenElse hd body closing e other otherClosing c ihb iho ihc =>
    rw [Code.nodeCount] at hfuel
    obtain ⟨fuel, rfl⟩ : ∃ k, fuel = k + 1 := ⟨fuel - 1, by omega⟩
    obtain ⟨hbody, hother, hbeside, -⟩ := h.twoBlocks
    have hbuild := (ihb hbody hv.1 (show _ ≤ fuel by omega)).chainsBlock (by omega) h.header.1
    have hsecond := h.secondBlock
    rw [Code.size_outline] at hother hbeside hsecond
    rw [Code.size_outline] at hbeside
    have hbuildOther := (iho hother hv.2.1 (show _ ≤ fuel by omega)).chainsBlock rfl hsecond
    intro ends nodes returns hprevious
    rw [Code.chainedNodes_ifThenElse, Code.outline, Outline.rootIds_twoBlocks, Code.size_outline,
      Code.size_outline, ← List.append_assoc (body.chainedNodes _ _),
      Nat.add_assoc (_ + 1) body.statementCount]
    refine (ihc hbeside hv.2.2 (by omega)).cons h.node_eq hprevious
      (h.gives_chainedIfThenElse hbuild hbuildOther) ?_ ?_
    · rw [List.length_append, Code.length_chainedNodes, Code.length_chainedNodes]
    · intro front hfront
      exact chainTo_of_stops hfront (.inl rfl) _ _

end Holds

end Tree

/-! ## The way of the last successors -/

namespace Code

variable {n m : Nat} {c : Code} {row : List Nat}

theorem of_mem_heads (h : m ∈ c.heads n) : n ≤ m ∧ m < n + c.statementCount := by
  rw [heads] at h
  split at h
  · exact absurd h List.not_mem_nil
  · next hc =>
    obtain rfl := List.mem_singleton.mp h
    have hpos := statementCount_pos (Bool.eq_false_iff.mpr hc)
    omega

/-- Every successor of a statement is the number of a statement. -/
theorem of_mem_chainedEdges (hrow : row ∈ c.chainedEdges n) (hm : m ∈ row) :
    n ≤ m ∧ m < n + c.statementCount := by
  induction c generalizing n with
  | done => exact absurd hrow List.not_mem_nil
  | skip x c ih => exact ih hrow
  | simple s c ih =>
    rw [statementCount]
    rcases List.mem_cons.mp hrow with rfl | hrest
    · split at hm
      · exact absurd hm List.not_mem_nil
      · have := of_mem_heads hm
        omega
    · have := ih hrest
      omega
  | loop kind hd body closing c ihb ihc =>
    rw [statementCount]
    rcases List.mem_cons.mp hrow with rfl | hrows
    · rcases List.mem_append.mp hm with hm | hm <;> have := of_mem_heads hm <;> omega
    · rcases List.mem_append.mp hrows with hbody | hrest
      · have := ihb hbody
        omega
      · have := ihc hrest
        omega
  | ifThen hd body closing c ihb ihc =>
    rw [statementCount]
    rcases List.mem_cons.mp hrow with rfl | hrows
    · have := of_mem_heads hm
      omega
    · rcases List.mem_append.mp hrows with hbody | hrest
      · have := ihb hbody
        omega
      · have := ihc hrest
        omega
  | ifThenElse hd body closing e other otherClosing c ihb iho ihc =>
    rw [statementCount]
    rcases List.mem_cons.mp hrow with rfl | hrows
    · rcases List.mem_append.mp hm with hm | hm <;> have := of_mem_heads hm <;> omega
    · rcases List.mem_append.mp hrows with hbody | hrows
      · have := ihb hbody
        omega
      · rcases List.mem_append.mp hrows with hother | hrest
        · have := iho hother
          omega
        · have := ihc hrest
          omega

end Code

namespace Flow

variable {edges : List (List Nat)} {id : Nat}

/-- A last node without successors changes nothing about the way. -/
theorem follow_append_nil (edges : List (List Nat)) (fuel id : Nat) :
    follow (edges ++ [[]]).toArray fuel id = follow edges.toArray fuel id := by
  induction fuel generalizing id with
  | zero => rfl
  | succ fuel ih =>
    have hstep : (edges ++ [[]])[id]?.bind List.getLast? = edges[id]?.bind List.getLast? := by
      rcases Nat.lt_trichotomy id edges.length with hlt | rfl | hgt
      · rw [List.getElem?_append_left hlt]
      · rw [List.getElem?_concat_length, List.getElem?_eq_none (Nat.le_refl _)]
        rfl
      · have hbehind : (edges ++ [[]]).length ≤ id := by rwa [List.length_append]
        rw [List.getElem?_eq_none hbehind, List.getElem?_eq_none (Nat.le_of_lt hgt)]
    simp only [follow, List.getElem?_toArray, hstep, ih]

/-- The way never leaves a table whose entries are numbers in it. -/
theorem follow_lt (hedges : ∀ row ∈ edges, ∀ m ∈ row, m < edges.length) (fuel : Nat)
    (hid : id < edges.length) : follow edges.toArray fuel id < edges.length := by
  induction fuel generalizing id with
  | zero => exact hid
  | succ fuel ih =>
    rw [follow]
    split
    · next next hnext =>
      obtain ⟨row, hrow, hlast⟩ := Option.bind_eq_some_iff.mp hnext
      rw [List.getElem?_toArray] at hrow
      exact ih (hedges row (List.mem_of_getElem? hrow) next (List.mem_of_getLast? hlast))
    · exact hid

/-- Giving a node another successor is giving its row of successors another entry. -/
theorem modify_zipWith (stations : List Station) (edges : List (List Nat)) (id target : Nat) :
    (List.zipWith Node.mk stations edges).modify id (·.addSuccessor target) =
      List.zipWith Node.mk stations (edges.modify id (· ++ [target])) := by
  induction stations generalizing edges id with
  | nil => simp only [List.zipWith_nil_left, List.modify_nil]
  | cons station stations ih =>
    cases edges with
    | nil => simp only [List.zipWith_nil_right, List.modify_nil]
    | cons row edges =>
      cases id with
      | zero => rfl
      | succ id => simp only [List.zipWith_cons_cons, List.modify_succ_cons, ih]

/-- The rows of successors of a table of nodes. -/
theorem map_successors_zipWith {stations : List Station} {edges : List (List Nat)}
    (h : stations.length = edges.length) :
    (List.zipWith Node.mk stations edges).map Node.successors = edges := by
  induction stations generalizing edges with
  | nil => rw [List.length_eq_zero_iff.mp h.symm, List.zipWith_nil_left, List.map_nil]
  | cons station stations ih =>
    cases edges with
    | nil => exact absurd h (Nat.succ_ne_zero _)
    | cons row edges => rw [List.zipWith_cons_cons, List.map_cons, ih (Nat.succ.inj h)]

/-- Hanging the exit on the node at which the last successors end. -/
theorem gives_hangExit {stations : List Station} {edges : List (List Nat)} {entry exit : Nat}
    (h : stations.length = edges.length) (hexit : edges.length = exit)
    (hlast : follow edges.toArray edges.length entry < edges.length) (returns : List Nat) :
    Gives (Tree.hangExit entry) (.ofNodes (List.zipWith Node.mk stations edges) returns) ()
      (.ofNodes (List.zipWith Node.mk (stations ++ [exitStation])
        (edges.modify (follow edges.toArray edges.length entry) (· ++ [exit]) ++ [[]]))
        returns) := by
  subst hexit
  have hnodes : (List.zipWith Node.mk stations edges).length = edges.length := by
    rw [List.length_zipWith, h, Nat.min_self]
  have hall : List.zipWith Node.mk (stations ++ [exitStation]) (edges ++ [[]]) =
      List.zipWith Node.mk stations edges ++ [⟨exitStation, []⟩] := by
    rw [List.zipWith_append h]
    rfl
  have hrows : (List.zipWith Node.mk stations edges ++ [Node.mk exitStation []]).toArray.map
      Node.successors = (edges ++ [[]]).toArray := by
    have hlength : (stations ++ [exitStation]).length = (edges ++ [[]]).length := by
      rw [List.length_append, List.length_append, h]
      rfl
    rw [List.map_toArray, ← hall, map_successors_zipWith hlength]
  have hpush := gives_push exitStation (List.zipWith Node.mk stations edges) returns
  have hlink := gives_modifyNode
    (follow (edges ++ [[]]).toArray edges.length entry) (·.addSuccessor edges.length)
    (List.zipWith Node.mk stations edges ++ [⟨exitStation, []⟩]) returns
  rw [hnodes] at hpush
  rw [follow_append_nil, modify_append_of_lt (hnodes.symm ▸ hlast), modify_zipWith] at hlink
  rw [List.zipWith_append (by rw [List.length_modify, h])]
  refine hpush.bind ((gives_get _).bind ?_)
  show Gives (addEdge (follow (Array.map _ (List.toArray _)) _ _) _) _ _ _
  rw [hrows, follow_append_nil]
  exact hlink

end Flow

/-! ## A function -/

namespace Tree.Holds

variable {t : Tree} {id : Nat} {f : Function} {more : Outline}

/-- Building the body of a function adds its nodes and links the entry to the first of them. -/
theorem gives_chainedBody (h : t.Holds id (f.outline ++ more)) (hv : f.code.HasValues)
    (station : Station) (returns : List Nat) :
    Gives (t.chainedBranch (t.chainedBlock t.size) Graph.entry id .functionBody)
      (.ofNodes [⟨station, []⟩] returns) ()
      (.ofNodes (⟨station, f.code.heads 1⟩ ::
        f.code.chainedNodes 1 (id + 2 + f.startOutline.size)) returns) := by
  have hchild := h.childOfKind?_functionBody
  rw [Function.bodyNode?] at hchild
  rcases h.functionBody with ⟨hb, hcode⟩ | ⟨b, fuel, hb, hbody, hsize, hle⟩
  · rw [hb] at hchild
    rw [hcode]
    exact gives_chainedBranch_none hchild
  · rw [hb] at hchild
    have hblock := (h.functionCode.chains hv hle).chainsBlock (by omega) hbody
    have hbranch : Gives (t.chainedBranch _ ([] : List Flow.Node).length id .functionBody)
        (.ofNodes ([] ++ ⟨station, []⟩ :: []) returns) () _ :=
      gives_chainedBranch (by rw [hchild]; rfl) hblock rfl
    rw [hsize]
    exact hbranch

/-- **The chained builder builds the chained graph.** -/
theorem gives_buildChained (h : t.Holds id (f.outline ++ more)) (hv : f.code.HasValues) :
    Gives (t.buildFunction .chained id) (.ofNodes [] []) ()
      (.ofNodes (f.graph .chained id).nodes.toList []) := by
  have hbody := h.gives_chainedBody hv (entryStation id) []
  have hlength : (entryStation id :: f.code.stations (id + 2 + f.startOutline.size)).length =
      (f.code.heads 1 :: f.code.chainedEdges 1).length := by
    rw [List.length_cons, List.length_cons, Code.length_stations, Code.length_chainedEdges]
  have hexit : (f.code.heads 1 :: f.code.chainedEdges 1).length = f.code.statementCount + 1 := by
    rw [List.length_cons, Code.length_chainedEdges]
  have hedges : ∀ row ∈ f.code.heads 1 :: f.code.chainedEdges 1, ∀ m ∈ row,
      m < (f.code.heads 1 :: f.code.chainedEdges 1).length := by
    intro row hrow m hm
    rw [hexit]
    rcases List.mem_cons.mp hrow with rfl | hrow
    · have := Code.of_mem_heads hm
      omega
    · have := Code.of_mem_chainedEdges hrow hm
      omega
  have hhang := gives_hangExit hlength hexit (follow_lt hedges _ (Nat.zero_lt_succ _)) []
  exact (gives_push (entryStation id) [] []).bind (hbody.bind hhang)

end Tree.Holds

end BraceLang
