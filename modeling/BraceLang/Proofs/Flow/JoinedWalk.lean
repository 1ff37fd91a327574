import BraceLang.Proofs.Flow.Execution
import BraceLang.Proofs.Tree.Functions

/-!
# `Proofs.Flow.JoinedWalk` — the joined graph runs as the text reads

The walk along the joined graph of a function and the run along its syntax tree visit the same
statements, whatever the conditions come to.

The proof is a simulation in lock step. `Laid` says that some code stands both in the tree and in
the graph, and `Pending` relates what the run still has to do to the node that the walk stands at:
either nothing and the exit, or the statements of some laid code and then something that belongs to
the node behind that code. A visit keeps the relation, so an induction on the number of visits
gives the whole run.

## Contents
- `Code.joinedNodes`, the nodes of some code in the joined layout, and `Laid`.
- `Pending`, with one lemma for each form of statement.
- `walk_eq_run`, for any number of visits, and **`Function.walk_joined`**.
-/

namespace BraceLang

open BraceLang.Flow

variable {t : Tree} {g : Graph} {base n next visits : Nat} {rest : List Nat}
  {outcomes : Stream' Bool}

/-! ## Code that stands in the tree and in the graph -/

/-- The nodes of the statements of some code in the joined layout, when the first of them has the
    number `n` in the graph and `base` in the syntax tree. -/
def Code.joinedNodes (exit next n base : Nat) (c : Code) : List Flow.Node :=
  List.zipWith Flow.Node.mk (c.stations base) (c.joinedEdges exit next n)

namespace Code

variable {exit : Nat} {h : Header} {body c : Code} {closing : Option Token}

theorem length_joinedNodes (c : Code) :
    (c.joinedNodes exit next n base).length = c.statementCount := by
  rw [joinedNodes, List.length_zipWith, length_stations, length_joinedEdges, Nat.min_self]

theorem zipWith_stations_append (c : Code) (stations : List Station) (edges : List (List Nat)) :
    List.zipWith Flow.Node.mk (c.stations base ++ stations) (c.joinedEdges exit next n ++ edges) =
      c.joinedNodes exit next n base ++ List.zipWith Flow.Node.mk stations edges :=
  List.zipWith_append (by rw [length_stations, length_joinedEdges])

/-- The rows of some code come before those of the code behind it. -/
theorem rows_append {table : Array Flow.Node} {row : Nat} {c : Code} {stations : List Station}
    {edges : List (List Nat)} (h : RowsAt table row (List.zipWith Flow.Node.mk
      (c.stations base ++ stations) (c.joinedEdges exit next n ++ edges))) :
    RowsAt table row (c.joinedNodes exit next n base) ∧
      RowsAt table (row + c.statementCount) (List.zipWith Flow.Node.mk stations edges) := by
  rw [zipWith_stations_append] at h
  have hright := h.right
  rw [length_joinedNodes] at hright
  exact ⟨h.left, hright⟩

/-- Code without a statement has no node in the tree. -/
theorem rootIds_eq_nil_iff (c : Code) : c.outline.rootIds base = [] ↔ c.isEmpty = true := by
  induction c with
  | skip _ rest ih => exact ih
  | _ => simp [outline, Outline.rootIds, isEmpty]

end Code

theorem Tree.Holds.kind? {l : Label} {children siblings : Outline}
    (h : t.Holds base (.node l children siblings)) : t.kind? base = some l.kind := by
  rw [Tree.kind?, h.root, Option.map_some]

/-! The statements of its blocks, as the tree has them at the node of a statement. -/

namespace Tree.Holds

variable {h : Header} {body other c : Code} {closing otherClosing : Option Token} {e : ElseHead}

theorem blockIds_loop {kind : LoopKind}
    (ho : t.Holds base (Code.loop kind h body closing c).outline) :
    t.blockIds base .loopBody = body.outline.rootIds (base + 3 + h.condition.length) := by
  obtain ⟨-, -, ids, hchildren⟩ := ho.oneBlock
  rw [Tree.blockIds, Tree.childOfKind?, hchildren]
  rfl

theorem blockIds_ifThen (ho : t.Holds base (Code.ifThen h body closing c).outline) :
    t.blockIds base .ifBody = body.outline.rootIds (base + 3 + h.condition.length) ∧
      t.blockIds base .elseBranch = [] := by
  obtain ⟨-, -, ids, hchildren⟩ := ho.oneBlock
  constructor
  · rw [Tree.blockIds, Tree.childOfKind?, hchildren]
    rfl
  · rw [Tree.blockIds, Tree.childOfKind?, hchildren]
    rfl

theorem blockIds_ifThenElse
    (ho : t.Holds base (Code.ifThenElse h body closing e other otherClosing c).outline) :
    t.blockIds base .ifBody = body.outline.rootIds (base + 3 + h.condition.length) ∧
      t.blockIds base .elseBranch =
        other.outline.rootIds (base + 3 + h.condition.length + body.nodeCount + 1) := by
  obtain ⟨-, -, -, ids, hchildren⟩ := ho.twoBlocks
  constructor
  · rw [Tree.blockIds, Tree.childOfKind?, hchildren]
    rfl
  · rw [Tree.blockIds, Tree.childOfKind?, hchildren, Code.size_outline]
    rfl

theorem blockIds_functionBody {id : Nat} {f : Function} {more : Outline}
    (ho : t.Holds id (f.outline ++ more)) :
    t.blockIds id .functionBody = f.code.outline.rootIds (id + 2 + f.startOutline.size) := by
  rw [Tree.blockIds, ho.childOfKind?_functionBody, Function.bodyNode?, Function.code]
  cases f.body <;> rfl

end Tree.Holds

/-- The code stands in the syntax tree from the number `base` on and in the joined graph from the
    number `n` on, where control goes to `next` behind it. -/
structure Laid (t : Tree) (g : Graph) (base n next : Nat) (c : Code) : Prop where
  tree : t.Holds base c.outline
  graph : RowsAt g.nodes n (c.joinedNodes g.exit next n base)
  before_exit : n + c.statementCount ≤ g.exit

namespace Laid

/-- The exit is behind all statements. -/
theorem ne_exit {c : Code} (h : Laid t g base n next c) (hc : c.isEmpty = false) : n ≠ g.exit := by
  have hpos := c.statementCount_pos hc
  have hbefore := h.before_exit
  omega

theorem skip {x : Token} {c : Code} (h : Laid t g base n next (.skip x c)) :
    Laid t g base n next c :=
  ⟨h.tree, h.graph, h.before_exit⟩

theorem simple {s : Simple} {c : Code} (h : Laid t g base n next (.simple s c)) :
    g.node? n = some ⟨s.station base, [if s.isReturn then g.exit else c.entryOr (n + 1) next]⟩ ∧
      Laid t g (base + 1 + s.parts.size) (n + 1) next c := by
  have hg : RowsAt g.nodes n (_ :: c.joinedNodes g.exit next (n + 1) (base + 1 + s.parts.size)) :=
    h.graph
  have hb := h.before_exit
  simp only [Code.statementCount] at hb
  exact ⟨hg.head, h.tree.beside, hg.tail, by omega⟩

theorem loop {kind : LoopKind} {h : Header} {body c : Code} {closing : Option Token}
    (hl : Laid t g base n next (.loop kind h body closing c)) :
    g.node? n = some ⟨h.station kind.flowKind kind.keyword base,
        body.heads (n + 1) ++ [c.entryOr (n + 1 + body.statementCount) next]⟩ ∧
      Laid t g (base + 3 + h.condition.length) (n + 1) n body ∧
      Laid t g (base + 3 + h.condition.length + body.nodeCount)
        (n + 1 + body.statementCount) next c := by
  have hb := hl.before_exit
  simp only [Code.statementCount] at hb
  have hg := hl.graph
  rw [Code.joinedNodes, Code.stations, Code.joinedEdges, List.zipWith_cons_cons] at hg
  obtain ⟨hbodyRows, hrestRows⟩ := Code.rows_append hg.tail
  obtain ⟨hbody, hbeside, -⟩ := hl.tree.oneBlock
  rw [Code.size_outline] at hbeside
  exact ⟨hg.head, ⟨hbody, hbodyRows, by omega⟩, hbeside, hrestRows, by omega⟩

theorem ifThen {h : Header} {body c : Code} {closing : Option Token}
    (hl : Laid t g base n next (.ifThen h body closing c)) :
    let join := c.entryOr (n + 1 + body.statementCount) next
    g.node? n = some ⟨h.station .branch HeaderKind.conditional.keyword base,
        body.heads (n + 1) ++ [join]⟩ ∧
      Laid t g (base + 3 + h.condition.length) (n + 1) join body ∧
      Laid t g (base + 3 + h.condition.length + body.nodeCount)
        (n + 1 + body.statementCount) next c := by
  have hb := hl.before_exit
  simp only [Code.statementCount] at hb
  have hg := hl.graph
  rw [Code.joinedNodes, Code.stations, Code.joinedEdges, List.zipWith_cons_cons] at hg
  obtain ⟨hbodyRows, hrestRows⟩ := Code.rows_append hg.tail
  obtain ⟨hbody, hbeside, -⟩ := hl.tree.oneBlock
  rw [Code.size_outline] at hbeside
  exact ⟨hg.head, ⟨hbody, hbodyRows, by omega⟩, hbeside, hrestRows, by omega⟩

theorem ifThenElse {h : Header} {body other c : Code} {closing otherClosing : Option Token}
    {e : ElseHead} (hl : Laid t g base n next (.ifThenElse h body closing e other otherClosing c)) :
    let middle := n + 1 + body.statementCount
    let join := c.entryOr (middle + other.statementCount) next
    g.node? n = some ⟨h.station .branch HeaderKind.conditional.keyword base,
        if body.isEmpty && other.isEmpty then [join]
        else [body.entryOr (n + 1) join, other.entryOr middle join]⟩ ∧
      Laid t g (base + 3 + h.condition.length) (n + 1) join body ∧
      Laid t g (base + 3 + h.condition.length + body.nodeCount + 1) middle join other ∧
      Laid t g (base + 3 + h.condition.length + body.nodeCount + 1 + other.nodeCount)
        (middle + other.statementCount) next c := by
  have hb := hl.before_exit
  simp only [Code.statementCount] at hb
  have hg := hl.graph
  rw [Code.joinedNodes, Code.stations, Code.joinedEdges, List.zipWith_cons_cons] at hg
  obtain ⟨hbodyRows, hg'⟩ := Code.rows_append hg.tail
  obtain ⟨hotherRows, hrestRows⟩ := Code.rows_append hg'
  obtain ⟨hbody, hother, hbeside, -⟩ := hl.tree.twoBlocks
  rw [Code.size_outline] at hother hbeside
  rw [Code.size_outline] at hbeside
  exact ⟨hg.head, ⟨hbody, hbodyRows, by omega⟩, ⟨hother, hotherRows, by omega⟩, hbeside, hrestRows,
    by omega⟩

end Laid

/-! ## What is still to be done, and where the walk stands -/

/-- The statements `todo` are what is left of a run when the walk stands at the node `id`. -/
inductive Pending (t : Tree) (g : Graph) : List Nat → Nat → Prop
  | finished : Pending t g [] g.exit
  | code {base n next : Nat} {c : Code} {todo : List Nat} :
      Laid t g base n next c → Pending t g todo next →
      Pending t g (c.outline.rootIds base ++ todo) (c.entryOr n next)

/-- The simulation up to a number of visits. -/
def Agrees (t : Tree) (g : Graph) (visits : Nat) : Prop :=
  ∀ outcomes todo id, Pending t g todo id →
    g.walk visits outcomes id = some (t.run visits outcomes todo)

/-! ## One visit

For each form of statement: what the run does at it, and that the walk does the same if they agree
on all shorter runs. -/

/-- The walk visits a node and goes on from the one that control goes to. -/
theorem Flow.Graph.walk_visit {id origin : Nat} {v : Flow.Node} (hid : id ≠ g.exit)
    (hv : g.node? id = some v) (ho : v.station.origin = some origin)
    (hnext : v.next? outcomes.head = some next) :
    g.walk (visits + 1) outcomes id =
      (g.walk visits (if v.station.kind.isDecision then outcomes.tail else outcomes) next).map
        (·.visit origin) := by
  rw [walk, if_neg hid, hv, Option.bind_some, ho, Option.bind_some, hnext, Option.bind_some]

theorem Tree.run_simple {id : Nat} {s : Simple} (hkind : t.kind? id = some s.label.kind) :
    t.run (visits + 1) outcomes (id :: rest) =
      if s.isReturn then ⟨[id], true⟩ else (t.run visits outcomes rest).visit id := by
  rw [run, hkind]
  cases s <;> rfl

theorem Tree.run_loop {id : Nat} {kind : LoopKind} (hkind : t.kind? id = some kind.nodeKind) :
    t.run (visits + 1) outcomes (id :: rest) =
      (t.run visits outcomes.tail
        ((if outcomes.head && !(t.blockIds id .loopBody).isEmpty then
          t.blockIds id .loopBody ++ [id] else []) ++ rest)).visit id := by
  rw [run, hkind]
  cases kind <;> rfl

theorem Tree.run_if {id : Nat} (hkind : t.kind? id = some .ifStatement) :
    t.run (visits + 1) outcomes (id :: rest) =
      (t.run visits outcomes.tail
        (t.blockIds id (if outcomes.head then .ifBody else .elseBranch) ++ rest)).visit id := by
  rw [run, hkind]

theorem Agrees.simple {s : Simple} {c : Code} (ih : Agrees t g visits)
    (hl : Laid t g base n next (.simple s c)) (hp : Pending t g rest next) :
    g.walk (visits + 1) outcomes n =
      some (t.run (visits + 1) outcomes ((Code.simple s c).outline.rootIds base ++ rest)) := by
  have hne : n ≠ g.exit := hl.ne_exit rfl
  have hkind : t.kind? base = some s.label.kind := hl.tree.kind?
  have hdecision : (s.station base).kind.isDecision = false := by cases s <;> rfl
  obtain ⟨hnode, hrest⟩ := hl.simple
  have hnext : Flow.Node.next? ⟨s.station base, [if s.isReturn then g.exit
      else c.entryOr (n + 1) next]⟩ outcomes.head =
      some (if s.isReturn then g.exit else c.entryOr (n + 1) next) := by
    simp [Flow.Node.next?, hdecision]
  rw [Graph.walk_visit hne hnode rfl hnext, hdecision, Code.outline, Outline.rootIds,
    List.cons_append, Tree.run_simple hkind]
  by_cases hr : s.isReturn = true
  · -- the walk goes to the exit, whatever was left to be done
    rw [if_pos hr, if_pos hr]
    simp only [Bool.false_eq_true, if_false]
    rw [ih outcomes [] g.exit .finished]
    cases visits <;> rfl
  · rw [if_neg hr, if_neg hr]
    simp only [Bool.false_eq_true, if_false]
    rw [ih outcomes _ _ (.code hrest hp), Option.map_some]

/-- At a decision that leads into some code and behind it, control enters the code if the condition
    holds and there is something to enter. -/
theorem Flow.Node.next?_heads {station : Station} {c : Code} {first behind : Nat} {outcome : Bool}
    (hd : station.kind.isDecision = true) :
    Flow.Node.next? ⟨station, c.heads first ++ [behind]⟩ outcome =
      some (if outcome && !c.isEmpty then first else behind) := by
  rw [next?, if_pos hd, Code.heads]
  cases c.isEmpty <;> cases outcome <;> rfl

/-- At a decision between two codes, control enters the one or the other, and what is behind them
    if there is nothing to enter. -/
theorem Flow.Node.next?_branches {station : Station} {c other : Code} {first middle behind : Nat}
    {outcome : Bool} (hd : station.kind.isDecision = true) :
    Flow.Node.next? ⟨station, if c.isEmpty && other.isEmpty then [behind]
      else [c.entryOr first behind, other.entryOr middle behind]⟩ outcome =
      some (if outcome then c.entryOr first behind else other.entryOr middle behind) := by
  rw [next?, if_pos hd, Code.entryOr, Code.entryOr]
  cases c.isEmpty <;> cases other.isEmpty <;> cases outcome <;> rfl

/-- The ids of a block are missing just if the code of the block has no statement. -/
theorem Code.isEmpty_rootIds (c : Code) : (c.outline.rootIds base).isEmpty = c.isEmpty := by
  rw [Bool.eq_iff_iff, List.isEmpty_iff, c.rootIds_eq_nil_iff]

theorem Agrees.loop {kind : LoopKind} {h : Header} {body c : Code} {closing : Option Token}
    (ih : Agrees t g visits) (hl : Laid t g base n next (.loop kind h body closing c))
    (hp : Pending t g rest next) :
    g.walk (visits + 1) outcomes n =
      some (t.run (visits + 1) outcomes
        ((Code.loop kind h body closing c).outline.rootIds base ++ rest)) := by
  have hne : n ≠ g.exit := hl.ne_exit rfl
  have hkind : t.kind? base = some kind.nodeKind := hl.tree.kind?
  have hdecision : (h.station kind.flowKind kind.keyword base).kind.isDecision = true := by
    cases kind <;> rfl
  obtain ⟨hnode, hbody, hrest⟩ := hl.loop
  have hblock := hl.tree.blockIds_loop
  rw [Graph.walk_visit hne hnode rfl (Flow.Node.next?_heads hdecision), if_pos hdecision,
    Code.outline, Outline.rootIds_oneBlock, Code.size_outline, List.cons_append,
    Tree.run_loop hkind, hblock, body.isEmpty_rootIds]
  by_cases hgo : (outcomes.head && !body.isEmpty) = true
  · -- into the body, with the loop itself as what comes behind it
    have hfull : body.isEmpty = false := by simp at hgo; exact hgo.2
    have hin : n + 1 = body.entryOr (n + 1) n := by rw [Code.entryOr, hfull]; rfl
    have hback : Pending t g
        ((Code.loop kind h body closing c).outline.rootIds base ++ rest) n := .code hl hp
    rw [if_pos hgo, if_pos hgo, hin, ih _ _ _ (.code hbody hback), Code.outline,
      Outline.rootIds_oneBlock, Code.size_outline, List.append_assoc]
    rfl
  · rw [if_neg hgo, if_neg hgo, ih _ _ _ (.code hrest hp)]
    rfl

theorem Agrees.ifThen {h : Header} {body c : Code} {closing : Option Token}
    (ih : Agrees t g visits) (hl : Laid t g base n next (.ifThen h body closing c))
    (hp : Pending t g rest next) :
    g.walk (visits + 1) outcomes n =
      some (t.run (visits + 1) outcomes
        ((Code.ifThen h body closing c).outline.rootIds base ++ rest)) := by
  have hne : n ≠ g.exit := hl.ne_exit rfl
  have hkind : t.kind? base = some .ifStatement := hl.tree.kind?
  have hdecision : (h.station .branch HeaderKind.conditional.keyword base).kind.isDecision = true :=
    rfl
  obtain ⟨hnode, hbody, hrest⟩ := hl.ifThen
  obtain ⟨hblock, hother⟩ := hl.tree.blockIds_ifThen
  rw [Graph.walk_visit hne hnode rfl (Flow.Node.next?_heads hdecision), if_pos hdecision,
    Code.outline, Outline.rootIds_oneBlock, Code.size_outline, List.cons_append,
    Tree.run_if hkind]
  -- Both ways lead to the join, the one through the body if there is something in it.
  have hbehind := Pending.code hrest hp
  by_cases hgo : outcomes.head = true
  · have hin : ∀ behind, (if outcomes.head && !body.isEmpty then n + 1 else behind) =
        body.entryOr (n + 1) behind := by
      intro behind
      rw [hgo, Code.entryOr]
      cases body.isEmpty <;> rfl
    rw [hin, if_pos hgo, hblock, ih _ _ _ (.code hbody hbehind)]
    rfl
  · rw [if_neg (by simp [hgo]), if_neg hgo, hother, ih _ _ _ hbehind]
    rfl

theorem Agrees.ifThenElse {h : Header} {body other c : Code} {closing otherClosing : Option Token}
    {e : ElseHead} (ih : Agrees t g visits)
    (hl : Laid t g base n next (.ifThenElse h body closing e other otherClosing c))
    (hp : Pending t g rest next) :
    g.walk (visits + 1) outcomes n =
      some (t.run (visits + 1) outcomes
        ((Code.ifThenElse h body closing e other otherClosing c).outline.rootIds base ++
          rest)) := by
  have hne : n ≠ g.exit := hl.ne_exit rfl
  have hkind : t.kind? base = some .ifStatement := hl.tree.kind?
  have hdecision : (h.station .branch HeaderKind.conditional.keyword base).kind.isDecision = true :=
    rfl
  obtain ⟨hnode, hbody, hother, hrest⟩ := hl.ifThenElse
  obtain ⟨hblock, hotherBlock⟩ := hl.tree.blockIds_ifThenElse
  have hbehind := Pending.code hrest hp
  rw [Graph.walk_visit hne hnode rfl (Flow.Node.next?_branches hdecision), if_pos hdecision,
    Code.outline, Outline.rootIds_twoBlocks, Code.size_outline, Code.size_outline,
    List.cons_append, Tree.run_if hkind]
  by_cases hgo : outcomes.head = true
  · rw [if_pos hgo, if_pos hgo, hblock, ih _ _ _ (.code hbody hbehind)]
    rfl
  · rw [if_neg hgo, if_neg hgo, hotherBlock, ih _ _ _ (.code hother hbehind)]
    rfl

/-! ## The whole run -/

/-- The first visit of a run that still has some laid code to do. Tokens that belong to no
    statement stand neither in the tree nor in the graph, so it is the first statement that
    counts; code without any is passed over. -/
theorem Agrees.code {c : Code} (ih : Agrees t g visits) (hl : Laid t g base n next c)
    (hp : Pending t g rest next)
    (hrest : g.walk (visits + 1) outcomes next = some (t.run (visits + 1) outcomes rest)) :
    g.walk (visits + 1) outcomes (c.entryOr n next) =
      some (t.run (visits + 1) outcomes (c.outline.rootIds base ++ rest)) := by
  induction c with
  | done => exact hrest
  | skip x c ihc => exact ihc hl.skip
  | simple s c => exact ih.simple hl hp
  | loop kind h body closing c => exact ih.loop hl hp
  | ifThen h body closing c => exact ih.ifThen hl hp
  | ifThenElse h body closing e other otherClosing c => exact ih.ifThenElse hl hp

/-- **The simulation.** The walk from a node and the run of what is left there agree, for any
    number of visits. -/
theorem walk_eq_run (t : Tree) (g : Graph) (visits : Nat) : Agrees t g visits := by
  -- Without a visit left, only a run that has nothing to do is at its end, and only there is the
  -- walk at the exit. With one left, what is pending is passed over up to its first statement.
  induction visits with
  | zero =>
    intro outcomes todo id h
    induction h with
    | finished => rw [Graph.walk, beq_self_eq_true, Tree.run]
    | @code base n next c todo hl hp ih =>
      by_cases hc : c.isEmpty = true
      · rw [Code.entryOr, if_pos hc, c.rootIds_eq_nil_iff.mpr hc]
        exact ih
      · have hne : n ≠ g.exit := hl.ne_exit (Bool.eq_false_iff.mpr hc)
        rw [Code.entryOr, if_neg hc, Graph.walk, beq_eq_false_iff_ne.mpr hne]
        cases hids : c.outline.rootIds base with
        | nil => exact absurd (c.rootIds_eq_nil_iff.mp hids) hc
        | cons id ids => rfl
  | succ visits ihv =>
    intro outcomes todo id h
    induction h with
    | finished => rw [Graph.walk, if_pos rfl, Tree.run]
    | code hl hp ih => exact ihv.code hl hp ih

/-! ## Functions -/

/-- The nodes of the joined graph of a function: its entry, its statements and its exit. -/
theorem Function.nodes_joined (f : Function) (id : Nat) :
    (f.graph .joined id).nodes = (⟨entryStation id, [f.code.entryOr 1 (f.code.statementCount + 1)]⟩
      :: (f.code.joinedNodes (f.code.statementCount + 1) (f.code.statementCount + 1) 1
        (id + 2 + f.startOutline.size) ++ [⟨exitStation, []⟩])).toArray := by
  rw [graph, stations, Layout.edges, joined, List.zipWith_cons_cons, Code.zipWith_stations_append]
  rfl

theorem Function.exit_joined (f : Function) (id : Nat) :
    (f.graph .joined id).exit = f.code.statementCount + 1 := by
  rw [Graph.exit, Graph.size, nodes_joined, List.size_toArray, List.length_cons,
    List.length_append, Code.length_joinedNodes]
  rfl

/-- The body of a function stands in the tree and in the graph, with the exit behind it. -/
theorem Function.laid {f : Function} {id : Nat} {more : Outline}
    (h : t.Holds id (f.outline ++ more)) :
    Laid t (f.graph .joined id) (id + 2 + f.startOutline.size) 1 (f.graph .joined id).exit
      f.code := by
  have hg := RowsAt.toArray (⟨entryStation id, [f.code.entryOr 1 (f.code.statementCount + 1)]⟩
    :: (f.code.joinedNodes (f.code.statementCount + 1) (f.code.statementCount + 1) 1
      (id + 2 + f.startOutline.size) ++ [⟨exitStation, []⟩]))
  rw [← f.nodes_joined id] at hg
  refine ⟨h.functionCode, ?_, ?_⟩
  · rw [f.exit_joined]
    exact hg.tail.left
  · rw [f.exit_joined]
    omega

/-- **The joined graph of a function runs as the function does.** A walk along it from the entry visits the
    function first and then what a run of its body visits. -/
theorem Function.walk_joined {f : Function} {id : Nat} {more : Outline}
    (h : t.Holds id (f.outline ++ more)) (visits : Nat) (outcomes : Stream' Bool) :
    (f.graph .joined id).walk (visits + 1) outcomes Graph.entry =
      some ((t.run visits outcomes (t.blockIds id .functionBody)).visit id) := by
  have hpending : Pending t (f.graph .joined id)
      (f.code.outline.rootIds (id + 2 + f.startOutline.size) ++ [])
      (f.code.entryOr 1 (f.graph .joined id).exit) := .code (Function.laid h) .finished
  have hids := h.blockIds_functionBody
  have hentry : (f.graph .joined id).node? Graph.entry =
      some ⟨entryStation id, [f.code.entryOr 1 (f.graph .joined id).exit]⟩ := by
    rw [f.exit_joined, Graph.node?, f.nodes_joined]
    rfl
  have hne : Graph.entry ≠ (f.graph .joined id).exit := by
    rw [f.exit_joined]
    exact (Nat.succ_ne_zero _).symm
  rw [List.append_nil, ← hids] at hpending
  -- The entry is visited first; from there on the whole body is pending, with the exit behind it.
  rw [Graph.walk_visit hne hentry rfl rfl]
  show Option.map _ (Graph.walk _ _ outcomes _) = _
  rw [walk_eq_run _ _ _ _ _ _ hpending]
  rfl

end BraceLang
