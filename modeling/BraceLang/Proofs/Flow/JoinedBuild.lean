import BraceLang.Proofs.Flow.Draft
import BraceLang.Proofs.Flow.JoinedWalk

/-!
# `Proofs.Flow.JoinedBuild` — the builder of the joined layout

While the joined graph of some code is built, it is not known where control goes behind the code, nor
which number the exit will have. `Code.openNodes` are the nodes of the code for any such places, also
for none. Before they are known they are none, and linking the open ends of the code puts one there.

The induction is on the code. What it carries is the row of nodes built so far together with what
it becomes when the open ends of the statement before are linked.

## Contents
- `Code.openNodes`, with `openNodes_eq_joinedNodes`, and the open ends `Code.tails` and
  `Code.returnIds`.
- `Flow.linkAll`, and `Flow.Leads`: linking these ends is to name the place behind.
- `Code.ends` and `Code.turns_returnIds`, for any code.
- `Tree.Joins` and `Holds.joins`, for the statements of a block.
- **`Holds.gives_buildJoined`**, for the body of a function.
-/

namespace BraceLang

open BraceLang.Flow

/-! ## Nodes with open ends -/

namespace Code

variable {c : Code} {n base : Nat}

/-- Where control enters some code of which the first statement has the number `n`. Code without
    statements hands over to `nexts`. -/
def entriesOr (c : Code) (n : Nat) (nexts : List Nat) : List Nat :=
  if c.isEmpty then nexts else [n]

/-- The nodes of the statements of some code in the joined layout, when the first of them has the
    number `n` in the graph and `base` in the syntax tree. Control goes to `nexts` behind the code and
    to `exits` behind a `return`. -/
def openNodes (exits nexts : List Nat) (n base : Nat) : Code → List Flow.Node
  | done => []
  | skip _ rest => rest.openNodes exits nexts n base
  | simple s rest =>
    ⟨s.station base, if s.isReturn then exits else rest.entriesOr (n + 1) nexts⟩ ::
      rest.openNodes exits nexts (n + 1) (base + 1 + s.parts.size)
  | loop kind h body _ rest =>
    let inner := base + 3 + h.condition.length
    let after := n + 1 + body.statementCount
    ⟨h.station kind.flowKind kind.keyword base,
        body.heads (n + 1) ++ rest.entriesOr after nexts⟩ ::
      (body.openNodes exits [n] (n + 1) inner ++
        rest.openNodes exits nexts after (inner + body.nodeCount))
  | ifThen h body _ rest =>
    let inner := base + 3 + h.condition.length
    let after := n + 1 + body.statementCount
    let joins := rest.entriesOr after nexts
    ⟨h.station .branch HeaderKind.conditional.keyword base, body.heads (n + 1) ++ joins⟩ ::
      (body.openNodes exits joins (n + 1) inner ++
        rest.openNodes exits nexts after (inner + body.nodeCount))
  | ifThenElse h body _ _ other _ rest =>
    let inner := base + 3 + h.condition.length
    let otherInner := inner + body.nodeCount + 1
    let middle := n + 1 + body.statementCount
    let after := middle + other.statementCount
    let joins := rest.entriesOr after nexts
    ⟨h.station .branch HeaderKind.conditional.keyword base,
        if body.isEmpty && other.isEmpty then joins
        else body.entriesOr (n + 1) joins ++ other.entriesOr middle joins⟩ ::
      (body.openNodes exits joins (n + 1) inner ++ other.openNodes exits joins middle otherInner ++
        rest.openNodes exits nexts after (otherInner + other.nodeCount))

theorem entriesOr_singleton (c : Code) (n next : Nat) :
    c.entriesOr n [next] = [c.entryOr n next] := by
  rw [entriesOr, entryOr]
  split <;> rfl

/-- When both places are known, the nodes are those of the joined layout. -/
theorem openNodes_eq_joinedNodes (exit next n base : Nat) (c : Code) :
    c.openNodes [exit] [next] n base = c.joinedNodes exit next n base := by
  induction c generalizing next n base with
  | done => rfl
  | skip x c ih => exact ih next n base
  | simple s c ih =>
    rw [openNodes, ih, entriesOr_singleton, ← apply_ite (f := fun m => [m])]
    rfl
  | loop kind h body closing c ihb ihc =>
    symm
    rw [joinedNodes, stations, joinedEdges, List.zipWith_cons_cons, zipWith_stations_append]
    simp only [openNodes, entriesOr_singleton, ihb, ihc]
    rfl
  | ifThen h body closing c ihb ihc =>
    symm
    rw [joinedNodes, stations, joinedEdges, List.zipWith_cons_cons, zipWith_stations_append]
    simp only [openNodes, entriesOr_singleton, ihb, ihc]
    rfl
  | ifThenElse h body closing e other otherClosing c ihb iho ihc =>
    symm
    rw [joinedNodes, stations, joinedEdges, List.zipWith_cons_cons, zipWith_stations_append,
      zipWith_stations_append]
    simp only [openNodes, entriesOr_singleton, ihb, iho, ihc, List.append_assoc]
    rfl

theorem length_openNodes (exits nexts : List Nat) (n base : Nat) (c : Code) :
    (c.openNodes exits nexts n base).length = c.statementCount := by
  induction c generalizing nexts n base <;> simp_all [openNodes, statementCount] <;> omega

/-- The open ends of an `if` with two branches that has the number `n`, and of its branches. -/
def branchTails (n : Nat) (body other : List Tail) (bodyEmpty otherEmpty : Bool) : List Tail :=
  (if bodyEmpty && !otherEmpty then [.fallthrough n] else []) ++ (body ++ other) ++
    (if otherEmpty then [.next n] else [])

/-- The open ends behind some code of which the first statement has the number `n`. -/
def tails (n : Nat) : Code → List Tail
  | done => []
  | skip _ rest => rest.tails n
  | simple s rest =>
    if rest.isEmpty then if s.isReturn then [] else [.next n] else rest.tails (n + 1)
  | loop _ _ body _ rest =>
    if rest.isEmpty then [.next n] else rest.tails (n + 1 + body.statementCount)
  | ifThen _ body _ rest =>
    if rest.isEmpty then body.tails (n + 1) ++ [.next n]
    else rest.tails (n + 1 + body.statementCount)
  | ifThenElse _ body _ _ other _ rest =>
    let middle := n + 1 + body.statementCount
    if rest.isEmpty then
      branchTails n (body.tails (n + 1)) (other.tails middle) body.isEmpty other.isEmpty
    else rest.tails (middle + other.statementCount)

/-- The numbers of the `return` statements of some code of which the first statement has the
    number `n`. -/
def returnIds (n : Nat) : Code → List Nat
  | done => []
  | skip _ rest => rest.returnIds n
  | simple s rest => (if s.isReturn then [n] else []) ++ rest.returnIds (n + 1)
  | loop _ _ body _ rest | ifThen _ body _ rest =>
    body.returnIds (n + 1) ++ rest.returnIds (n + 1 + body.statementCount)
  | ifThenElse _ body _ _ other _ rest =>
    let middle := n + 1 + body.statementCount
    body.returnIds (n + 1) ++ other.returnIds middle ++
      rest.returnIds (middle + other.statementCount)

end Code

/-! ## Linking open ends -/

namespace Flow

variable {nodes more : List Node} {n target : Nat} {v : Node}

/-- The nodes after an open end has been linked. -/
def linkTail (target : Nat) (nodes : List Node) : Tail → List Node
  | .next id => nodes.modify id (·.addSuccessor target)
  | .fallthrough id => nodes.modify id fun v => { v with successors := target :: v.successors }

/-- The nodes after some open ends have been linked, one after the other. -/
def linkAll (target : Nat) (tails : List Tail) (nodes : List Node) : List Node :=
  tails.foldl (linkTail target) nodes

theorem linkAll_append (first second : List Tail) (nodes : List Node) :
    linkAll target (first ++ second) nodes = linkAll target second (linkAll target first nodes) :=
  List.foldl_append

theorem gives_link (target : Nat) (tails : List Tail) (nodes : List Node) (returns : List Nat) :
    Gives (tails.forM (Tail.link target)) (.ofNodes nodes returns) ()
      (.ofNodes (linkAll target tails nodes) returns) := by
  induction tails generalizing nodes with
  | nil => exact gives_pure _ _
  | cons tail tails ih =>
    have hfirst : Gives (tail.link target) (.ofNodes nodes returns) ()
        (.ofNodes (linkTail target nodes tail) returns) := by
      cases tail <;> exact gives_modifyNode _ _ nodes returns
    exact hfirst.bind (ih _)

/-- Linking the open ends `tails` turns the nodes `part`, the first of which has the number `n`, into
    `part'` and changes no other node. -/
def Turns (target n : Nat) (tails : List Tail) (part part' : List Node) : Prop :=
  ∀ nodes more, nodes.length = n →
    linkAll target tails (nodes ++ (part ++ more)) = nodes ++ (part' ++ more)

namespace Turns

variable {part part' part'' second second' : List Node} {tails tails' : List Tail} {after : Nat}

theorem nil : Turns target n [] part part := fun _ _ _ => rfl

/-- An end that becomes the last successor. -/
theorem next : Turns target n [.next n] (v :: part)
    (⟨v.station, v.successors ++ [target]⟩ :: part) := by
  rintro nodes more rfl
  exact modify_append_cons nodes (part ++ more) v _

/-- An end that becomes the first successor. -/
theorem fallthrough : Turns target n [.fallthrough n] (v :: part)
    (⟨v.station, target :: v.successors⟩ :: part) := by
  rintro nodes more rfl
  exact modify_append_cons nodes (part ++ more) v _

/-- Some ends after others. -/
theorem trans (h : Turns target n tails part part') (h' : Turns target n tails' part' part'') :
    Turns target n (tails ++ tails') part part'' := by
  intro nodes more hn
  rw [linkAll_append, h nodes more hn, h' nodes more hn]

/-- A node in front that has none of the ends. -/
theorem cons (h : Turns target (n + 1) tails part part') :
    Turns target n tails (v :: part) (v :: part') := by
  intro nodes more hn
  have hin := h (nodes ++ [v]) more (by rw [List.length_append, hn]; rfl)
  rwa [List.append_assoc, List.append_assoc] at hin

/-- Two parts side by side. -/
theorem append (h : Turns target n tails part part') (hafter : n + part'.length = after)
    (h' : Turns target after tails' second second') :
    Turns target n (tails ++ tails') (part ++ second) (part' ++ second') := by
  intro nodes more hn
  have hbehind := h' (nodes ++ part') more (by rw [List.length_append, hn, hafter])
  rw [List.append_assoc, List.append_assoc] at hbehind
  rw [linkAll_append, List.append_assoc, h nodes _ hn, hbehind, List.append_assoc]

end Turns

/-- The nodes `part` from the number `n` on depend on where control goes behind them, and have the
    open ends `tails`: to link these is to put the place there. -/
structure Leads (n size : Nat) (tails : List Tail) (part : List Nat → List Node) : Prop where
  length : ∀ nexts, (part nexts).length = size
  turns : ∀ target, Turns target n tails (part []) (part [target])

end Flow

namespace Code

variable {c body other rest : Code} {n after base size : Nat} {own : List Tail}
  {exits : List Nat} {part : List Nat → List Flow.Node} {station : Station}

theorem openNodes_of_isEmpty (hc : c.isEmpty = true) (exits nexts : List Nat) (n base : Nat) :
    c.openNodes exits nexts n base = [] := by
  induction c with
  | done => rfl
  | skip x c ih => exact ih hc
  | _ => exact absurd hc Bool.false_ne_true

theorem tails_of_isEmpty (c : Code) (hc : c.isEmpty = true) (n : Nat) : c.tails n = [] := by
  induction c with
  | done => rfl
  | skip x c ih => exact ih hc
  | _ => exact absurd hc Bool.false_ne_true

/-- The open ends of some code are all that its nodes miss of the place behind it. -/
def Ends (c : Code) (exits : List Nat) (n base : Nat) : Prop :=
  Leads n c.statementCount (c.tails n) fun nexts => c.openNodes exits nexts n base

theorem leads_simple (s : Simple) : Leads n 1 (if s.isReturn then [] else [.next n])
    fun nexts => [⟨s.station base, if s.isReturn then exits else nexts⟩] where
  length _ := rfl
  turns target := by
    cases s.isReturn
    · exact .next
    · exact .nil

theorem leads_loop : Leads n (1 + body.statementCount) [.next n]
    fun nexts => ⟨station, body.heads (n + 1) ++ nexts⟩ ::
      body.openNodes exits [n] (n + 1) base where
  length _ := by rw [List.length_cons, length_openNodes, Nat.add_comm]
  turns target := by
    rw [List.append_nil]
    exact .next

theorem leads_ifThen (hbody : body.Ends exits (n + 1) base) :
    Leads n (1 + body.statementCount) (body.tails (n + 1) ++ [.next n])
      fun nexts => ⟨station, body.heads (n + 1) ++ nexts⟩ ::
        body.openNodes exits nexts (n + 1) base where
  length _ := by rw [List.length_cons, length_openNodes, Nat.add_comm]
  turns target := by
    rw [List.append_nil]
    exact (hbody.turns target).cons.trans .next

theorem leads_ifThenElse {otherBase : Nat} (hbody : body.Ends exits (n + 1) base)
    (hother : other.Ends exits (n + 1 + body.statementCount) otherBase) :
    Leads n (1 + body.statementCount + other.statementCount)
      (branchTails n (body.tails (n + 1)) (other.tails (n + 1 + body.statementCount))
        body.isEmpty other.isEmpty)
      fun nexts => ⟨station, if body.isEmpty && other.isEmpty then nexts
          else body.entriesOr (n + 1) nexts ++
            other.entriesOr (n + 1 + body.statementCount) nexts⟩ ::
        (body.openNodes exits nexts (n + 1) base ++
          other.openNodes exits nexts (n + 1 + body.statementCount) otherBase) where
  length _ := by
    rw [List.length_cons, List.length_append, length_openNodes, length_openNodes]
    omega
  turns target := by
    -- the ends inside the branches, whatever the row of the `if` itself is
    have hbranches (v : Flow.Node) := ((hbody.turns target).append (congrArg _ (hbody.length _))
      (hother.turns target)).cons (v := v)
    rw [branchTails]
    simp only [entriesOr]
    cases body.isEmpty <;> cases other.isEmpty
    · exact (hbranches _).trans .nil
    · exact (hbranches _).trans .next
    · exact (Turns.fallthrough.trans (hbranches _)).trans .nil
    · exact (hbranches _).trans .next

/-- A statement and the code behind it. -/
theorem leads_cons (hafter : after = n + size) (hown : Leads n size own part)
    (hrest : rest.Ends exits after base) :
    Leads n (size + rest.statementCount) (if rest.isEmpty then own else rest.tails after)
      fun nexts => part (rest.entriesOr after nexts) ++ rest.openNodes exits nexts after base where
  length nexts := by rw [List.length_append, hown.length, length_openNodes]
  turns target := by
    by_cases hc : rest.isEmpty = true
    · simp only [hc, if_true, entriesOr, openNodes_of_isEmpty hc, List.append_nil]
      exact hown.turns target
    · simp only [hc, if_false, entriesOr, Bool.false_eq_true]
      exact Turns.nil.append (by rw [hown.length, hafter]) (hrest.turns target)

/-- **Linking the open ends of some code puts the place behind it into its nodes.** -/
theorem ends (exits : List Nat) (n base : Nat) (c : Code) : c.Ends exits n base := by
  induction c generalizing n base with
  | done => exact ⟨fun _ => rfl, fun _ => .nil⟩
  | skip x c ih => exact ih n base
  | simple s c ih => exact leads_cons rfl (leads_simple s) (ih _ _)
  | loop kind h body closing c ihb ihc =>
    exact leads_cons (Nat.add_assoc _ _ _) leads_loop (ihc _ _)
  | ifThen h body closing c ihb ihc =>
    exact leads_cons (Nat.add_assoc _ _ _) (leads_ifThen (ihb _ _)) (ihc _ _)
  | ifThenElse h body closing e other otherClosing c ihb iho ihc =>
    have hafter : n + 1 + body.statementCount + other.statementCount =
        n + (1 + body.statementCount + other.statementCount) := by omega
    exact leads_cons hafter (leads_ifThenElse (ihb _ _) (iho _ _)) (ihc _ _)

/-- **Linking the `return` statements of some code puts the exit into its nodes.** -/
theorem turns_returnIds (exit : Nat) (nexts : List Nat) (n base : Nat) (c : Code) :
    Turns exit n ((c.returnIds n).map .next) (c.openNodes [] nexts n base)
      (c.openNodes [exit] nexts n base) := by
  induction c generalizing nexts n base with
  | done => exact .nil
  | skip x c ih => exact ih nexts n base
  | simple s c ih =>
    have hown : Turns exit n ((if s.isReturn then [n] else []).map .next)
        [⟨s.station base, if s.isReturn then [] else c.entriesOr (n + 1) nexts⟩]
        [⟨s.station base, if s.isReturn then [exit] else c.entriesOr (n + 1) nexts⟩] := by
      cases s.isReturn
      · exact .nil
      · exact .next
    rw [returnIds, List.map_append]
    exact hown.append rfl (ih _ _ _)
  | loop kind h body closing c ihb ihc =>
    rw [returnIds, List.map_append]
    exact ((ihb _ _ _).append (by rw [length_openNodes]) (ihc _ _ _)).cons
  | ifThen h body closing c ihb ihc =>
    rw [returnIds, List.map_append]
    exact ((ihb _ _ _).append (by rw [length_openNodes]) (ihc _ _ _)).cons
  | ifThenElse h body closing e other otherClosing c ihb iho ihc =>
    rw [returnIds, List.map_append, List.map_append]
    refine (((ihb _ _ _).append (by rw [length_openNodes]) (iho _ _ _)).append ?_
      (ihc _ _ _)).cons
    rw [List.length_append, length_openNodes, length_openNodes, Nat.add_assoc (n + 1)]

end Code

/-! ## The statements of a block -/

/-- What building some code gives: where control enters it and its open ends. -/
def Code.fragment? (c : Code) (n : Nat) : Option Fragment :=
  if c.isEmpty then none else some ⟨n, c.tails n⟩

namespace Tree

variable {t : Tree} {fuel n : Nat} {nodes added linked : List Flow.Node} {returns returns' : List Nat}
  {block : Nat → Build (Option Fragment)} {before : Option Fragment} {own : List Tail}

/-- The open ends of what has been built of a block. -/
def openTails (before : Option Fragment) : List Tail := (before.map Fragment.tails).getD []

/-- A step of a block, when it is known what building its statement adds. -/
theorem gives_joinedStep {statement : Node} {id : Nat} (hnode : t.node id = .ok statement)
    (hstatement : Gives (t.joinedStatement block statement) (.ofNodes nodes returns) ⟨n, own⟩
      (.ofNodes (nodes ++ added) returns'))
    (hlinked : linkAll n (openTails before) (nodes ++ added) = linked ++ added) :
    Gives (t.joinedStep block before id) (.ofNodes nodes returns)
      (some ⟨(before.map Fragment.head).getD n, own⟩) (.ofNodes (linked ++ added) returns') := by
  rw [← hlinked]
  refine (gives_lift hnode _).bind (hstatement.bind ?_)
  cases before with
  | none => exact gives_pure _ _
  | some before => exact (gives_link n before.tails _ _).bind (gives_pure _ _)

/-- The block builder gives the way into some code and its open ends, and adds the nodes of the
    code. -/
def JoinsBlock (block : Nat → Build (Option Fragment)) (id base : Nat) (c : Code) : Prop :=
  ∀ nodes returns n, nodes.length = n → Gives (block id) (.ofNodes nodes returns) (c.fragment? n)
    (.ofNodes (nodes ++ c.openNodes [] [] n base) (returns ++ c.returnIds n))

/-- Building the statements of some code behind others of their block links the open ends of these,
    and adds the nodes of the code. -/
def Joins (t : Tree) (fuel base : Nat) (c : Code) : Prop :=
  ∀ before part n returns, Leads 0 n (openTails before) part →
    Gives ((c.outline.rootIds base).foldlM (t.joinedStep (t.joinedBlock fuel)) before)
      (.ofNodes (part []) returns)
      (if c.isEmpty then before else some ⟨(before.map Fragment.head).getD n, c.tails n⟩)
      (.ofNodes (part (c.entriesOr n []) ++ c.openNodes [] [] n base) (returns ++ c.returnIds n))

theorem Joins.joinsBlock {id base : Nat} {c : Code} {l : Label} {siblings : Outline}
    (hc : t.Joins fuel base c) (hbase : base = id + 1)
    (h : t.Holds id (.node l c.outline siblings)) :
    JoinsBlock (t.joinedBlock (fuel + 1)) id base c := by
  subst hbase
  intro nodes returns n hn
  exact (gives_lift h.node_eq _).bind
    (hc none (fun _ => nodes) n returns ⟨fun _ => hn, fun _ => .nil⟩)

/-- A statement, of which the nodes are `part`, and the code behind it. -/
theorem Joins.cons {statement : Node} {base next size after : Nat} {c : Code} {ids : List Nat}
    {front part : List Nat → List Flow.Node} (hc : t.Joins fuel next c)
    (hnode : t.node base = .ok statement) (hafter : after = n + size)
    (hfront : Leads 0 n (openTails before) front) (hpart : Leads n size own part)
    (hstatement : Gives (t.joinedStatement (t.joinedBlock fuel) statement)
      (.ofNodes (front []) returns) ⟨n, own⟩
      (.ofNodes (front [] ++ part []) (returns ++ ids))) :
    Gives ((base :: c.outline.rootIds next).foldlM (t.joinedStep (t.joinedBlock fuel)) before)
      (.ofNodes (front []) returns)
      (some ⟨(before.map Fragment.head).getD n, if c.isEmpty then own else c.tails after⟩)
      (.ofNodes (front [n] ++ (part (c.entriesOr after []) ++ c.openNodes [] [] after next))
        (returns ++ (ids ++ c.returnIds after))) := by
  have hlinked := hfront.turns n [] (part []) rfl
  have hstep := gives_joinedStep hnode hstatement hlinked
  have hnext : Leads 0 after own fun nexts => front [n] ++ part nexts := by
    constructor
    · intro nexts
      rw [List.length_append, hfront.length, hpart.length, hafter]
    · intro target
      exact Turns.nil.append (by rw [hfront.length, Nat.zero_add]) (hpart.turns target)
  have hrest := hc (some ⟨(before.map Fragment.head).getD n, own⟩) _ after (returns ++ ids) hnext
  have hvalue (head : Nat) : (if c.isEmpty then some (Fragment.mk head own)
      else some ⟨((some (Fragment.mk head own)).map Fragment.head).getD after, c.tails after⟩) =
      some ⟨head, if c.isEmpty then own else c.tails after⟩ := by
    cases c.isEmpty <;> rfl
  rw [hvalue, List.append_assoc, List.append_assoc] at hrest
  rw [List.foldlM_cons]
  exact hstep.bind hrest

/-- The statement has a block of this kind. -/
theorem gives_joinedBranch {kind : NodeKind} {origin id base : Nat} {c : Code}
    (hid : (t.childOfKind? origin kind).map Node.id = some id) (hblock : JoinsBlock block id base c)
    (hn : nodes.length = n) (returns : List Nat) :
    Gives (t.joinedBranch block origin kind) (.ofNodes nodes returns) (c.fragment? n)
      (.ofNodes (nodes ++ c.openNodes [] [] n base) (returns ++ c.returnIds n)) := by
  obtain ⟨body, hbody, rfl⟩ := Option.map_eq_some_iff.mp hid
  rw [joinedBranch, hbody]
  exact hblock nodes returns n hn

/-- A statement without a block of this kind. -/
theorem gives_joinedBranch_none {kind : NodeKind} {origin : Nat} {d : Draft}
    (hbody : t.childOfKind? origin kind = none) :
    Gives (t.joinedBranch block origin kind) d none d := by
  rw [joinedBranch, hbody]
  exact gives_pure _ _

/-- A loop, when its body `c` has been built. -/
theorem gives_joinedLoop {origin base : Nat} {c : Code} {v : Flow.Node} (hn : nodes.length = n)
    (hbody : Gives (t.joinedBranch block origin .loopBody) (.ofNodes (nodes ++ [v]) returns)
      (c.fragment? (n + 1))
      (.ofNodes (nodes ++ v :: c.openNodes [] [] (n + 1) base) returns')) :
    Gives (t.joinedLoop block n origin) (.ofNodes (nodes ++ [v]) returns) ⟨n, [.next n]⟩
      (.ofNodes (nodes ++ ⟨v.station, v.successors ++ c.heads (n + 1)⟩ ::
        c.openNodes [] [n] (n + 1) base) returns') := by
  refine hbody.bind ?_
  rw [Code.fragment?, Code.heads]
  cases hc : c.isEmpty
  · -- the body leads back to the loop
    have hlink := gives_link n (c.tails (n + 1))
      (nodes ++ [⟨v.station, v.successors ++ [n + 1]⟩] ++ (c.openNodes [] [] (n + 1) base ++ []))
      returns'
    rw [(c.ends [] (n + 1) base).turns n _ [] (by rw [List.length_append, hn]; rfl),
      List.append_nil, List.append_nil, List.append_assoc, List.append_assoc] at hlink
    exact (gives_addEdge hn (n + 1) v _ returns').bind (hlink.bind (gives_pure _ _))
  · rw [Code.openNodes_of_isEmpty hc, Code.openNodes_of_isEmpty hc]
    simp only [if_true, List.append_nil]
    exact gives_pure _ _

/-- An `if`, when its branches `body` and `other` have been built. -/
theorem gives_joinedIf {origin middle : Nat} {body other : Code} {v : Flow.Node} {d : Draft}
    (hn : nodes.length = n)
    (hbody : Gives (t.joinedBranch block origin .ifBody) (.ofNodes (nodes ++ [v]) returns)
      (body.fragment? (n + 1)) d)
    (hother : Gives (t.joinedBranch block origin .elseBranch) d (other.fragment? middle)
      (.ofNodes (nodes ++ v :: added) returns')) :
    Gives (t.joinedIf block n origin) (.ofNodes (nodes ++ [v]) returns)
      ⟨n, Code.branchTails n (body.tails (n + 1)) (other.tails middle) body.isEmpty other.isEmpty⟩
      (.ofNodes (nodes ++ ⟨v.station,
        v.successors ++ (body.heads (n + 1) ++ other.heads middle)⟩ :: added) returns') := by
  have hedge (w : Flow.Node) (target : Nat) := gives_addEdge hn target w added returns'
  refine hbody.bind (hother.bind ?_)
  rw [Code.fragment?, Code.fragment?, Code.heads, Code.heads, Code.branchTails]
  cases hb : body.isEmpty <;> cases ho : other.isEmpty <;>
    simp only [Bool.false_eq_true, Bool.not_false, Bool.not_true, Bool.and_self, Bool.and_true,
      Bool.and_false, if_true, if_false, List.nil_append, List.append_nil]
  · rw [← List.append_assoc]
    exact (hedge v (n + 1)).bind ((hedge _ middle).bind (gives_pure _ _))
  · rw [other.tails_of_isEmpty ho, List.append_nil]
    exact (hedge v (n + 1)).bind (gives_pure _ _)
  · rw [body.tails_of_isEmpty hb, List.nil_append]
    exact (hedge v middle).bind (gives_pure _ _)
  · rw [body.tails_of_isEmpty hb, other.tails_of_isEmpty ho]
    exact gives_pure _ _

/-! One lemma for each form of statement: what building it adds, if the block builder does what it
should on its blocks. -/

namespace Holds

variable {base : Nat} {s : Simple} {hd : Header} {body other c : Code}
  {closing otherClosing : Option Token} {e : ElseHead} {l : Label} {ids : List Nat}

theorem gives_joinedSimple (h : t.Holds base (Code.simple s c).outline) (hs : s.HasValue)
    (hn : nodes.length = n) :
    Gives (t.joinedStatement block ⟨base, s.label, ids⟩) (.ofNodes nodes returns)
      ⟨n, if s.isReturn then [] else [.next n]⟩
      (.ofNodes (nodes ++ [⟨s.station base, []⟩])
        (returns ++ if s.isReturn then [n] else [])) := by
  subst hn
  have hpush := h.gives_pushSimple hs ids nodes returns
  have hsimple : header? s.label.kind = none := by cases s <;> rfl
  rw [joinedStatement, hsimple]
  refine hpush.bind ?_
  cases s with
  | ret keyword value semicolon => rfl
  | _ =>
    show Gives _ _ _ (.ofNodes _ (returns ++ []))
    rw [List.append_nil]
    exact gives_pure _ _

theorem gives_joinedLoop {kind : LoopKind}
    (h : t.Holds base (Code.loop kind hd body closing c).outline)
    (hbody : JoinsBlock block (base + 2 + hd.condition.length) (base + 3 + hd.condition.length)
      body) (hn : nodes.length = n) :
    Gives (t.joinedStatement block
        ⟨base, .covering kind.nodeKind none hd.keyword (blockLast hd.brace body closing), ids⟩)
      (.ofNodes nodes returns) ⟨n, [.next n]⟩
      (.ofNodes (nodes ++ ⟨hd.station kind.flowKind kind.keyword base, body.heads (n + 1) ++ []⟩ ::
        body.openNodes [] [n] (n + 1) (base + 3 + hd.condition.length))
        (returns ++ body.returnIds (n + 1))) := by
  subst hn
  have hfront : (nodes ++ [Flow.Node.mk (hd.station kind.flowKind kind.keyword base) []]).length =
    nodes.length + 1 := List.length_append
  have hbranch := gives_joinedBranch h.loopBlock hbody hfront returns
  rw [List.append_assoc] at hbranch
  have hloop := Tree.gives_joinedLoop rfl hbranch
  have hpush := h.gives_pushHeader kind.flowKind kind.keyword ids nodes returns
  rw [List.append_nil]
  cases kind <;> exact hpush.bind hloop

theorem gives_joinedIfThen (h : t.Holds base (Code.ifThen hd body closing c).outline)
    (hbody : JoinsBlock block (base + 2 + hd.condition.length) (base + 3 + hd.condition.length)
      body) (hn : nodes.length = n) :
    Gives (t.joinedStatement block
        ⟨base, .covering .ifStatement none hd.keyword (blockLast hd.brace body closing), ids⟩)
      (.ofNodes nodes returns) ⟨n, body.tails (n + 1) ++ [.next n]⟩
      (.ofNodes (nodes ++
        ⟨hd.station .branch HeaderKind.conditional.keyword base, body.heads (n + 1) ++ []⟩ ::
          body.openNodes [] [] (n + 1) (base + 3 + hd.condition.length))
        (returns ++ body.returnIds (n + 1))) := by
  subst hn
  obtain ⟨hblock, hnone⟩ := h.ifThenBlock
  have hfront : (nodes ++ [Flow.Node.mk (hd.station .branch HeaderKind.conditional.keyword base)
    []]).length = nodes.length + 1 := List.length_append
  have hbranch := gives_joinedBranch hblock hbody hfront returns
  rw [List.append_assoc] at hbranch
  have hotherBranch (d : Draft) : Gives (t.joinedBranch block base .elseBranch) d
    (Code.done.fragment? 0) d := gives_joinedBranch_none hnone
  have hif := gives_joinedIf rfl hbranch (hotherBranch _)
  have htails : Code.branchTails nodes.length (body.tails (nodes.length + 1)) [] body.isEmpty true =
      body.tails (nodes.length + 1) ++ [.next nodes.length] := by
    rw [Code.branchTails, Bool.not_true, Bool.and_false, List.append_nil]
    rfl
  have hpush := h.gives_pushHeader .branch HeaderKind.conditional.keyword ids nodes returns
  rw [← htails]
  exact hpush.bind hif

theorem gives_joinedIfThenElse
    (h : t.Holds base (Code.ifThenElse hd body closing e other otherClosing c).outline)
    (hbody : JoinsBlock block (base + 2 + hd.condition.length) (base + 3 + hd.condition.length)
      body)
    (hother : JoinsBlock block (base + 3 + hd.condition.length + body.nodeCount)
      (base + 3 + hd.condition.length + body.nodeCount + 1) other) (hn : nodes.length = n) :
    Gives (t.joinedStatement block
        ⟨base, .covering .ifStatement none hd.keyword (elseLast e other otherClosing), ids⟩)
      (.ofNodes nodes returns)
      ⟨n, Code.branchTails n (body.tails (n + 1)) (other.tails (n + 1 + body.statementCount))
        body.isEmpty other.isEmpty⟩
      (.ofNodes (nodes ++ ⟨hd.station .branch HeaderKind.conditional.keyword base,
          if body.isEmpty && other.isEmpty then []
          else body.entriesOr (n + 1) [] ++ other.entriesOr (n + 1 + body.statementCount) []⟩ ::
          (body.openNodes [] [] (n + 1) (base + 3 + hd.condition.length) ++
            other.openNodes [] [] (n + 1 + body.statementCount)
              (base + 3 + hd.condition.length + body.nodeCount + 1)))
        (returns ++ (body.returnIds (n + 1) ++ other.returnIds (n + 1 + body.statementCount)))) := by
  subst hn
  obtain ⟨hblock, hotherBlock⟩ := h.ifThenElseBlocks
  have hfront : (nodes ++ [Flow.Node.mk (hd.station .branch HeaderKind.conditional.keyword base)
    []]).length = nodes.length + 1 := List.length_append
  have hbranch := gives_joinedBranch hblock hbody hfront returns
  have hmiddle : (nodes ++ [Flow.Node.mk (hd.station .branch HeaderKind.conditional.keyword base) []] ++
      body.openNodes [] [] (nodes.length + 1) (base + 3 + hd.condition.length)).length =
        nodes.length + 1 + body.statementCount := by
    rw [List.length_append, List.length_append, Code.length_openNodes]
    rfl
  have hotherBranch := gives_joinedBranch hotherBlock hother hmiddle
    (returns ++ body.returnIds (nodes.length + 1))
  simp only [List.append_assoc] at hbranch hotherBranch
  have hif := gives_joinedIf rfl hbranch hotherBranch
  have hrow : (if body.isEmpty && other.isEmpty then [] else body.entriesOr (nodes.length + 1) [] ++
      other.entriesOr (nodes.length + 1 + body.statementCount) []) =
      body.heads (nodes.length + 1) ++
        other.heads (nodes.length + 1 + body.statementCount) := by
    rw [Code.entriesOr, Code.entriesOr, Code.heads, Code.heads]
    cases body.isEmpty <;> cases other.isEmpty <;> rfl
  have hpush := h.gives_pushHeader .branch HeaderKind.conditional.keyword ids nodes returns
  rw [hrow]
  exact hpush.bind hif

/-- **The joined builder adds the nodes of the code, with its ends open.** -/
theorem joins (h : t.Holds base c.outline) (hv : c.HasValues) (hfuel : c.nodeCount ≤ fuel) :
    t.Joins fuel base c := by
  induction c generalizing base fuel with
  | done =>
    intro before part n returns hpart
    show Gives _ _ before (.ofNodes (part [] ++ []) (returns ++ []))
    rw [List.append_nil, List.append_nil]
    exact gives_pure _ _
  | skip x c ih => exact ih h hv hfuel
  | simple s c ih =>
    rw [Code.nodeCount] at hfuel
    intro before part n returns hpart
    refine (ih h.beside hv.2 (by omega)).cons h.node_eq rfl hpart (Code.leads_simple s) ?_
    simp only [ite_self]
    exact h.gives_joinedSimple hv.1 (hpart.length _)
  | loop kind hd body closing c ihb ihc =>
    rw [Code.nodeCount] at hfuel
    obtain ⟨fuel, rfl⟩ : ∃ k, fuel = k + 1 := ⟨fuel - 1, by omega⟩
    obtain ⟨hbody, hbeside, -⟩ := h.oneBlock
    have hbuild := (ihb hbody hv.1 (show _ ≤ fuel by omega)).joinsBlock (by omega) h.header.1
    rw [Code.size_outline] at hbeside
    intro before part n returns hpart
    rw [Code.outline, Outline.rootIds_oneBlock, Code.size_outline]
    exact (ihc hbeside hv.2 (by omega)).cons h.node_eq (Nat.add_assoc _ _ _) hpart Code.leads_loop
      (h.gives_joinedLoop hbuild (hpart.length _))
  | ifThen hd body closing c ihb ihc =>
    rw [Code.nodeCount] at hfuel
    obtain ⟨fuel, rfl⟩ : ∃ k, fuel = k + 1 := ⟨fuel - 1, by omega⟩
    obtain ⟨hbody, hbeside, -⟩ := h.oneBlock
    have hbuild := (ihb hbody hv.1 (show _ ≤ fuel by omega)).joinsBlock (by omega) h.header.1
    rw [Code.size_outline] at hbeside
    intro before part n returns hpart
    rw [Code.outline, Outline.rootIds_oneBlock, Code.size_outline]
    exact (ihc hbeside hv.2 (by omega)).cons h.node_eq (Nat.add_assoc _ _ _) hpart
      (Code.leads_ifThen (body.ends _ _ _)) (h.gives_joinedIfThen hbuild (hpart.length _))
  | ifThenElse hd body closing e other otherClosing c ihb iho ihc =>
    rw [Code.nodeCount] at hfuel
    obtain ⟨fuel, rfl⟩ : ∃ k, fuel = k + 1 := ⟨fuel - 1, by omega⟩
    obtain ⟨hbody, hother, hbeside, -⟩ := h.twoBlocks
    have hbuild := (ihb hbody hv.1 (show _ ≤ fuel by omega)).joinsBlock (by omega) h.header.1
    have hsecond := h.secondBlock
    rw [Code.size_outline] at hother hbeside hsecond
    rw [Code.size_outline] at hbeside
    have hbuildOther := (iho hother hv.2.1 (show _ ≤ fuel by omega)).joinsBlock rfl hsecond
    intro before part n returns hpart
    rw [Code.outline, Outline.rootIds_twoBlocks, Code.size_outline, Code.size_outline]
    have hafter : n + 1 + body.statementCount + other.statementCount =
        n + (1 + body.statementCount + other.statementCount) := by omega
    exact (ihc hbeside hv.2.2 (by omega)).cons h.node_eq hafter hpart
      (Code.leads_ifThenElse (body.ends _ _ _) (other.ends _ _ _))
      (h.gives_joinedIfThenElse hbuild hbuildOther (hpart.length _))

end Holds

end Tree

/-! ## A function -/

namespace Tree

variable {entry exit base : Nat} {c : Code} {returns : List Nat} {x : Flow.Node}

/-- Linking the body, when it has been built behind the entry, to the exit. -/
theorem gives_linkExit (station : Station) (c : Code) (exit base : Nat) (returns : List Nat) :
    Gives (linkExit Graph.entry exit (c.fragment? 1))
      (.ofNodes (⟨station, []⟩ :: (c.openNodes [] [] 1 base ++ [x])) returns) ()
      (.ofNodes (⟨station, [c.entryOr 1 exit]⟩ :: (c.openNodes [] [exit] 1 base ++ [x]))
        returns) := by
  have hedge (target : Nat) (more : List Flow.Node) :=
    gives_addEdge (show ([] : List Flow.Node).length = Graph.entry from rfl) target ⟨station, []⟩
      more returns
  rw [Code.fragment?, Code.entryOr]
  cases hc : c.isEmpty
  · have hlink := gives_link exit (c.tails 1)
      ([⟨station, [1]⟩] ++ (c.openNodes [] [] 1 base ++ [x])) returns
    rw [(c.ends [] 1 base).turns exit _ [x] rfl] at hlink
    exact (hedge 1 _).bind hlink
  · rw [Code.openNodes_of_isEmpty hc, Code.openNodes_of_isEmpty hc]
    exact hedge exit [x]

/-- Linking some nodes, one after the other. -/
theorem gives_addEdges (ids : List Nat) (target : Nat) (nodes : List Flow.Node)
    (returns : List Nat) :
    Gives (ids.forM fun id => addEdge id target) (.ofNodes nodes returns) ()
      (.ofNodes (linkAll target (ids.map .next) nodes) returns) := by
  induction ids generalizing nodes with
  | nil => exact gives_pure _ _
  | cons id ids ih => exact (gives_modifyNode id _ nodes returns).bind (ih _)

namespace Holds

variable {t : Tree} {id : Nat} {f : Function} {more : Outline}

/-- Building the body of a function adds its nodes, with its ends open. -/
theorem gives_joinedBody (h : t.Holds id (f.outline ++ more)) (hv : f.code.HasValues)
    (v : Flow.Node) (returns : List Nat) :
    Gives (t.joinedBranch (t.joinedBlock t.size) id .functionBody) (.ofNodes [v] returns)
      (f.code.fragment? 1)
      (.ofNodes (v :: f.code.openNodes [] [] 1 (id + 2 + f.startOutline.size))
        (returns ++ f.code.returnIds 1)) := by
  have hchild := h.childOfKind?_functionBody
  rw [Function.bodyNode?] at hchild
  rcases h.functionBody with ⟨hb, hcode⟩ | ⟨b, fuel, hb, hbody, hsize, hle⟩
  · rw [hb] at hchild
    rw [hcode]
    show Gives _ _ _ (.ofNodes _ (returns ++ []))
    rw [List.append_nil]
    exact gives_joinedBranch_none hchild
  · rw [hb] at hchild
    have hblock := (h.functionCode.joins hv hle).joinsBlock (by omega) hbody
    rw [hsize]
    exact gives_joinedBranch (by rw [hchild]; rfl) hblock rfl returns

/-- **The joined builder builds the joined graph.** -/
theorem gives_buildJoined (h : t.Holds id (f.outline ++ more)) (hv : f.code.HasValues) :
    Gives (t.buildFunction .joined id) (.ofNodes [] []) ()
      (.ofNodes (f.graph .joined id).nodes.toList (f.code.returnIds 1)) := by
  have hbody := h.gives_joinedBody hv ⟨entryStation id, []⟩ []
  generalize hbase : id + 2 + f.startOutline.size = base at hbody
  have hpush := gives_push exitStation (⟨entryStation id, []⟩ :: f.code.openNodes [] [] 1 base)
    (f.code.returnIds 1)
  have hexit : (Flow.Node.mk (entryStation id) [] :: f.code.openNodes [] [] 1 base).length =
      f.code.statementCount + 1 := by rw [List.length_cons, Code.length_openNodes]
  rw [hexit] at hpush
  have hlink := gives_linkExit (x := ⟨exitStation, []⟩) (entryStation id) f.code
    (f.code.statementCount + 1) base (f.code.returnIds 1)
  have hreturns := gives_addEdges (f.code.returnIds 1) (f.code.statementCount + 1)
    ([⟨entryStation id, [f.code.entryOr 1 (f.code.statementCount + 1)]⟩] ++
      (f.code.openNodes [] [f.code.statementCount + 1] 1 base ++ [⟨exitStation, []⟩]))
    (f.code.returnIds 1)
  rw [f.code.turns_returnIds _ _ 1 base _ _ rfl, Code.openNodes_eq_joinedNodes] at hreturns
  have hgraph : (f.graph .joined id).nodes.toList =
      ⟨entryStation id, [f.code.entryOr 1 (f.code.statementCount + 1)]⟩ ::
        (f.code.joinedNodes (f.code.statementCount + 1) (f.code.statementCount + 1) 1 base ++
          [⟨exitStation, []⟩]) := by
    subst hbase
    exact congrArg (_ :: ·) (Code.zipWith_stations_append f.code [exitStation] [[]])
  rw [hgraph]
  exact (gives_push (entryStation id) [] []).bind (hbody.bind (hpush.bind (hlink.bind
    ((gives_get _).bind hreturns))))

end Holds

end Tree

end BraceLang
