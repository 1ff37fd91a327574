import BraceLang.Proofs.Flow.Reach
import BraceLang.Proofs.Flow.TreeGraph

/-!
# `Proofs.Flow.ChainedShape` — the chained graph is a forest

In the chained layout a statement hangs under what stands right before it: the statement before it in
its block, or the one that the block belongs to. Nothing hangs under two statements, so the edges make
up a forest, and they all lead to greater numbers. An `if` and a `return` end their row, and what
comes after them there hangs under nothing.

The exit hangs under the end of the way that goes from the entry along the last successors. The way ends
at a node that has no successors, so the exit is the only successor there.

## Contents
- `Graph.inDegree` and `Graph.ChainedShape`, what is said about the graph.
- `Code.Chained`, code that stands in the table of the chained edges, with one lemma for each form of
  statement, and from these `Chained.statement` and `Chained.reaches`.
- `Code.count_chainedEdges_le`: nothing is listed twice.
- `Flow.follow_end`, where the way along the last successors ends.
- **`Program.chained_shape`**.
-/

namespace BraceLang

open BraceLang.Flow

namespace Flow.Graph

/-- The number of edges that lead to a node. -/
def inDegree (g : Graph) (id : Nat) : Nat := (g.nodes.toList.flatMap (·.successors)).count id

/-- The shape of the chained graph of the function that has the number `function` in the syntax tree. -/
structure ChainedShape (g : Graph) (t : Tree) (function : Nat) : Prop where
  numbered : g.Numbered
  /-- Edges lead to greater numbers. -/
  forward : ∀ a b, b ∈ g.successors a → a < b ∧ b ≤ g.exit
  /-- The way along the last successors ends. -/
  lastEnds : ∀ id, id ≤ g.exit → ∃ last, g.successors last = [] ∧
    Relation.ReflTransGen (fun a b => (g.successors a).getLast? = some b) id last
  inDegree_le : ∀ id, g.inDegree id ≤ 1
  inDegree_entry : g.inDegree entry = 0
  inDegree_exit : g.inDegree g.exit = 1
  successors_exit : g.successors g.exit = []
  reaches_exit : g.Reaches entry g.exit
  successors_ret : ∀ id v, g.node? id = some v → v.station.kind = .ret →
    v.successors = [] ∨ v.successors = [g.exit]
  length_branch : ∀ id v, g.node? id = some v → v.station.kind = .branch → v.successors.length ≤ 2
  /-- Control comes to a statement just if it comes into the block of it and the block has neither an
      `if` nor a `return` before it. -/
  reaches : g.ReachesInRows t function fun s =>
    t.kind? s ≠ some .ifStatement ∧ t.kind? s ≠ some .returnStatement

end Flow.Graph

/-! ## Code in the table of edges -/

/-- An edge between two nodes would lead forward, and from a marked node to a marked one. -/
def LeadsOn (marks : Array Bool) (a b : Nat) : Prop :=
  a < b ∧ (marks[a]? = some true → marks[b]? = some true)

/-- The list `row` may stand as the successors of a statement that has the number `a` in the graph. -/
structure ChainedRow (marks : Array Bool) (a : Nat) (v : Station) (row : List Nat) : Prop where
  ret : v.kind = .ret → row = []
  branch : v.kind = .branch → row.length ≤ 2
  leadsOn : ∀ b ∈ row, LeadsOn marks a b

theorem Code.length_heads_le (c : Code) (n : Nat) : (c.heads n).length ≤ 1 := by
  unfold heads
  split <;> simp

/-- Marked code whose successors in the chained layout stand in a table from the number `n` on. -/
structure Code.Chained (t : Tree) (stations : Array Station) (marks : Array Bool)
    (rows : Array (List Nat)) (base n : Nat) (live : Bool) (c : Code) : Prop extends
    Code.Marked t stations marks .chained base n live c where
  rows : RowsAt rows n (c.chainedEdges n)

namespace Code.Chained

variable {t : Tree} {stations : Array Station} {marks : Array Bool} {rows : Array (List Nat)}
  {base n a : Nat} {live : Bool} {h : Header} {body other c : Code}
  {closing otherClosing : Option Token} {e : ElseHead}

theorem skip {x : Token} (hc : Chained t stations marks rows base n live (.skip x c)) :
    Chained t stations marks rows base n live c :=
  ⟨hc.toMarked.skip, hc.rows⟩

theorem simple {s : Simple} (hc : Chained t stations marks rows base n live (.simple s c)) :
    rows[n]? = some (if s.isReturn then [] else c.heads (n + 1)) ∧
      Chained t stations marks rows (base + 1 + s.parts.size) (n + 1) (live && !s.isReturn) c := by
  obtain ⟨-, -, hrest⟩ := hc.toMarked.simple
  exact ⟨hc.rows.head, hrest, hc.rows.tail⟩

theorem loop {kind : LoopKind}
    (hc : Chained t stations marks rows base n live (.loop kind h body closing c)) :
    rows[n]? = some (body.heads (n + 1) ++ c.heads (n + 1 + body.statementCount)) ∧
      Chained t stations marks rows (base + 3 + h.condition.length) (n + 1) live body ∧
      Chained t stations marks rows (base + 3 + h.condition.length + body.nodeCount)
        (n + 1 + body.statementCount) live c := by
  obtain ⟨-, -, hbody, hrest⟩ := hc.toMarked.loop
  obtain ⟨hrows, hrows'⟩ := hc.rows.tail.split (body.length_chainedEdges _)
  exact ⟨hc.rows.head, ⟨hbody, hrows⟩, hrest, hrows'⟩

theorem ifThen (hc : Chained t stations marks rows base n live (.ifThen h body closing c)) :
    rows[n]? = some (body.heads (n + 1)) ∧
      Chained t stations marks rows (base + 3 + h.condition.length) (n + 1) live body ∧
      Chained t stations marks rows (base + 3 + h.condition.length + body.nodeCount)
        (n + 1 + body.statementCount) (live && false) c := by
  obtain ⟨-, -, hbody, hrest⟩ := hc.toMarked.ifThen
  obtain ⟨hrows, hrows'⟩ := hc.rows.tail.split (body.length_chainedEdges _)
  exact ⟨hc.rows.head, ⟨hbody, hrows⟩, hrest, hrows'⟩

theorem ifThenElse (hc : Chained t stations marks rows base n live
      (.ifThenElse h body closing e other otherClosing c)) :
    rows[n]? = some (body.heads (n + 1) ++ other.heads (n + 1 + body.statementCount)) ∧
      Chained t stations marks rows (base + 3 + h.condition.length) (n + 1) live body ∧
      Chained t stations marks rows (base + 3 + h.condition.length + body.nodeCount + 1)
        (n + 1 + body.statementCount) live other ∧
      Chained t stations marks rows
        (base + 3 + h.condition.length + body.nodeCount + 1 + other.nodeCount)
        (n + 1 + body.statementCount + other.statementCount) (live && false) c := by
  obtain ⟨-, -, hbody, hother, hrest⟩ := hc.toMarked.ifThenElse
  obtain ⟨hrows, hmore⟩ := hc.rows.tail.split (body.length_chainedEdges _)
  obtain ⟨hrows', hrows''⟩ := hmore.split (other.length_chainedEdges _)
  exact ⟨hc.rows.head, ⟨hbody, hrows⟩, ⟨hother, hrows'⟩, hrest, hrows''⟩

/-- The ways into the code of a block and into the code behind a statement lead on from the statement. -/
theorem leadsOn_heads {around : Bool} (hc : Chained t stations marks rows base n live c) (han : a < n)
    (hmark : marks[a]? = some around) (hlive : around = true → live = true) :
    ∀ b ∈ c.heads n, LeadsOn marks a b := by
  intro b hb
  refine ⟨Nat.lt_of_lt_of_le han (of_mem_heads hb).1, ?_⟩
  intro ha
  rw [mark_of_mem_heads hc.marks hb, hlive (Option.some.inj (hmark.symm.trans ha))]

/-- Every statement has a station and a row of successors that may stand there. -/
theorem statement (hc : Chained t stations marks rows base n live c) (ha : c.Numbers n a) :
    ∃ v row, stations[a]? = some v ∧ rows[a]? = some row ∧ ChainedRow marks a v row := by
  induction c generalizing base n live with
  | done => exact absurd ha not_numbers_done
  | skip x rest ih => exact ih hc.skip ha
  | simple s rest ih =>
    obtain ⟨hstation, hmark, -⟩ := hc.toMarked.simple
    obtain ⟨hrow, hrest⟩ := hc.simple
    rcases numbers_simple.mp ha with rfl | ha
    · have hleads := hrest.leadsOn_heads (Nat.lt_succ_self _) hmark
      refine ⟨_, _, hstation, hrow, ?_⟩
      cases s <;> constructor <;> simp_all [Simple.station, Simple.flowKind, Simple.isReturn]
    · exact ih hrest ha
  | loop kind hd body closing rest ihb ih =>
    obtain ⟨hstation, hmark, -⟩ := hc.toMarked.loop
    obtain ⟨hrow, hbody, hrest⟩ := hc.loop
    rcases numbers_loop.mp ha with rfl | ha | ha
    · have hleads : ∀ b ∈ body.heads (a + 1) ++ rest.heads (a + 1 + body.statementCount),
          LeadsOn marks a b :=
        List.forall_mem_append.mpr ⟨hbody.leadsOn_heads (Nat.lt_succ_self _) hmark id,
          hrest.leadsOn_heads (Nat.lt_add_right _ (Nat.lt_succ_self _)) hmark id⟩
      refine ⟨_, _, hstation, hrow, ?_, ?_, hleads⟩
      · intro hkind
        cases kind <;> cases hkind
      · intro hkind
        cases kind <;> cases hkind
    · exact ihb hbody ha
    · exact ih hrest ha
  | ifThen hd body closing rest ihb ih =>
    obtain ⟨hstation, hmark, -⟩ := hc.toMarked.ifThen
    obtain ⟨hrow, hbody, hrest⟩ := hc.ifThen
    rcases numbers_ifThen.mp ha with rfl | ha | ha
    · refine ⟨_, _, hstation, hrow, ?_, ?_, ?_⟩
      · intro hkind
        cases hkind
      · intro _
        exact Nat.le_succ_of_le (body.length_heads_le _)
      · exact hbody.leadsOn_heads (Nat.lt_succ_self _) hmark id
    · exact ihb hbody ha
    · exact ih hrest ha
  | ifThenElse hd body closing e other otherClosing rest ihb iho ih =>
    obtain ⟨hstation, hmark, -⟩ := hc.toMarked.ifThenElse
    obtain ⟨hrow, hbody, hother, hrest⟩ := hc.ifThenElse
    rcases numbers_ifThenElse.mp ha with rfl | ha | ha | ha
    · refine ⟨_, _, hstation, hrow, ?_, ?_, ?_⟩
      · intro hkind
        cases hkind
      · intro _
        rw [List.length_append]
        exact Nat.add_le_add (body.length_heads_le _) (other.length_heads_le _)
      · exact List.forall_mem_append.mpr ⟨hbody.leadsOn_heads (Nat.lt_succ_self _) hmark id,
          hother.leadsOn_heads (Nat.lt_add_right _ (Nat.lt_succ_self _)) hmark id⟩
    · exact ihb hbody ha
    · exact iho hother ha
    · exact ih hrest ha

/-- Every marked statement is reached, by whatever goes along the edges and comes to the beginning of
    the code if that is marked. -/
theorem reaches {reached : Nat → Prop}
    (hstep : ∀ a b row, rows[a]? = some row → b ∈ row → reached a → reached b)
    (hc : Chained t stations marks rows base n live c)
    (hin : live = true → ∀ b ∈ c.heads n, reached b) (ha : c.Numbers n a)
    (hmark : marks[a]? = some true) : reached a := by
  induction c generalizing base n live with
  | done => exact absurd ha not_numbers_done
  | skip x rest ih => exact ih hc.skip hin ha
  | simple s rest ih =>
    obtain ⟨-, hmark', -⟩ := hc.toMarked.simple
    obtain ⟨hrow, hrest⟩ := hc.simple
    have hn : live = true → reached n := fun hlive => hin hlive n (List.mem_singleton_self n)
    rcases numbers_simple.mp ha with rfl | ha
    · exact hn (Option.some.inj (hmark'.symm.trans hmark))
    · refine ih hrest ?_ ha
      intro hlive b hb
      obtain ⟨hlive, hret⟩ := Bool.and_eq_true_iff.mp hlive
      refine hstep n b _ hrow ?_ (hn hlive)
      rwa [if_neg (by simpa using hret)]
  | loop kind hd body closing rest ihb ih =>
    obtain ⟨-, hmark', -⟩ := hc.toMarked.loop
    obtain ⟨hrow, hbody, hrest⟩ := hc.loop
    have hn : live = true → reached n := fun hlive => hin hlive n (List.mem_singleton_self n)
    rcases numbers_loop.mp ha with rfl | ha | ha
    · exact hn (Option.some.inj (hmark'.symm.trans hmark))
    · refine ihb hbody ?_ ha
      intro hlive b hb
      exact hstep n b _ hrow (List.mem_append_left _ hb) (hn hlive)
    · refine ih hrest ?_ ha
      intro hlive b hb
      exact hstep n b _ hrow (List.mem_append_right _ hb) (hn hlive)
  | ifThen hd body closing rest ihb ih =>
    obtain ⟨-, hmark', -⟩ := hc.toMarked.ifThen
    obtain ⟨hrow, hbody, hrest⟩ := hc.ifThen
    have hn : live = true → reached n := fun hlive => hin hlive n (List.mem_singleton_self n)
    rcases numbers_ifThen.mp ha with rfl | ha | ha
    · exact hn (Option.some.inj (hmark'.symm.trans hmark))
    · exact ihb hbody (fun hlive b hb => hstep n b _ hrow hb (hn hlive)) ha
    · exact ih hrest (by simp) ha
  | ifThenElse hd body closing e other otherClosing rest ihb iho ih =>
    obtain ⟨-, hmark', -⟩ := hc.toMarked.ifThenElse
    obtain ⟨hrow, hbody, hother, hrest⟩ := hc.ifThenElse
    have hn : live = true → reached n := fun hlive => hin hlive n (List.mem_singleton_self n)
    rcases numbers_ifThenElse.mp ha with rfl | ha | ha | ha
    · exact hn (Option.some.inj (hmark'.symm.trans hmark))
    · refine ihb hbody ?_ ha
      intro hlive b hb
      exact hstep n b _ hrow (List.mem_append_left _ hb) (hn hlive)
    · refine iho hother ?_ ha
      intro hlive b hb
      exact hstep n b _ hrow (List.mem_append_right _ hb) (hn hlive)
    · exact ih hrest (by simp) ha

end Code.Chained

/-! ## The whole table -/

namespace Code

/-- No statement is listed twice among the successors of statements and the way into the code. -/
theorem count_chainedEdges_le (c : Code) (n m : Nat) :
    (c.heads n).count m + (c.chainedEdges n).flatten.count m ≤
      if n ≤ m ∧ m < n + c.statementCount then 1 else 0 := by
  induction c generalizing n with
  | done => exact Nat.zero_le _
  | skip x rest ih => exact ih n
  | simple s rest ih =>
    have hrest := ih (n + 1)
    have hfirst : (if s.isReturn then [] else rest.heads (n + 1)).count m ≤
        (rest.heads (n + 1)).count m := by
      split
      · exact Nat.zero_le _
      · exact Nat.le_refl _
    show [n].count m + _ ≤ _
    rw [chainedEdges, statementCount, List.flatten_cons, List.count_append, List.count_singleton]
    grind
  | loop kind hd body closing rest ihb ih =>
    have hbody := ihb (n + 1)
    have hrest := ih (n + 1 + body.statementCount)
    show [n].count m + _ ≤ _
    rw [chainedEdges, statementCount, List.flatten_cons, List.flatten_append, List.count_append,
      List.count_append, List.count_append, List.count_singleton]
    grind
  | ifThen hd body closing rest ihb ih =>
    have hbody := ihb (n + 1)
    have hrest := ih (n + 1 + body.statementCount)
    show [n].count m + _ ≤ _
    rw [chainedEdges, statementCount, List.flatten_cons, List.flatten_append, List.count_append,
      List.count_append, List.count_singleton]
    grind
  | ifThenElse hd body closing e other otherClosing rest ihb iho ih =>
    have hbody := ihb (n + 1)
    have hother := iho (n + 1 + body.statementCount)
    have hrest := ih (n + 1 + body.statementCount + other.statementCount)
    show [n].count m + _ ≤ _
    rw [chainedEdges, statementCount, List.flatten_cons, List.flatten_append, List.flatten_append,
      List.count_append, List.count_append, List.count_append, List.count_append, List.count_singleton]
    grind

/-- The successors of all nodes but the exit, before the exit is hung on. -/
def chainedTable (c : Code) : List (List Nat) := c.heads 1 :: c.chainedEdges 1

theorem length_chainedTable (c : Code) : c.chainedTable.length = c.statementCount + 1 := by
  rw [chainedTable, List.length_cons, length_chainedEdges]

end Code

namespace Flow

variable {edges : List (List Nat)} {id : Nat}

/-- In a table whose entries lead forward, the way along the last entries ends at a row without any. -/
theorem follow_end (hedges : ∀ a row, edges[a]? = some row → ∀ b ∈ row, a < b ∧ b < edges.length)
    (fuel : Nat) (hid : id < edges.length) (hfuel : edges.length ≤ id + fuel) :
    edges[follow edges.toArray fuel id]? = some [] ∧
      Relation.ReflTransGen (fun a b => edges[a]?.bind List.getLast? = some b) id
        (follow edges.toArray fuel id) := by
  induction fuel generalizing id with
  | zero => omega
  | succ fuel ih =>
    rw [follow, List.getElem?_toArray]
    cases hnext : edges[id]?.bind List.getLast? with
    | none =>
      refine ⟨?_, .refl⟩
      rw [List.getElem?_eq_getElem hid] at hnext ⊢
      exact congrArg some (List.getLast?_eq_none_iff.mp hnext)
    | some next =>
      obtain ⟨row, hrow, hlast⟩ := Option.bind_eq_some_iff.mp hnext
      obtain ⟨hforward, hinside⟩ := hedges id row hrow next (List.mem_of_getLast? hlast)
      obtain ⟨hend, hway⟩ := ih hinside (by omega)
      exact ⟨hend, .head hnext hway⟩

/-- Giving one row another entry, and adding an empty row, adds the entry to all entries. -/
theorem count_flatten_modify (hid : id < edges.length) (target a : Nat) :
    (edges.modify id (· ++ [target]) ++ [[]]).flatten.count a =
      edges.flatten.count a + [target].count a := by
  induction edges generalizing id with
  | nil => exact absurd hid (Nat.not_lt_zero id)
  | cons row edges ih =>
    cases id with
    | zero =>
      simp only [List.modify_zero_cons, List.cons_append, List.flatten_cons, List.flatten_append,
        List.flatten_nil, List.append_nil, List.count_append]
      omega
    | succ id =>
      have hrest := ih (Nat.lt_of_succ_lt_succ hid)
      rw [List.modify_succ_cons, List.cons_append, List.flatten_cons, List.flatten_cons,
        List.count_append, List.count_append, hrest, Nat.add_assoc]

theorem getD_modify (hid : id < edges.length) (hrow : edges[id]? = some []) (target a : Nat) :
    (edges.modify id (· ++ [target]) ++ [[]])[a]?.getD [] =
      if a = id then [target] else edges[a]?.getD [] := by
  by_cases ha : a < edges.length
  · rw [List.getElem?_append_left (by rwa [List.length_modify]), List.getElem?_modify]
    by_cases hsame : a = id
    · subst hsame
      rw [if_pos rfl, hrow]
      simp
    · rw [if_neg hsame]
      simp [Ne.symm hsame]
  · have hne : a ≠ id := by omega
    rw [if_neg hne, List.getElem?_append_right (by rw [List.length_modify]; omega),
      List.getElem?_eq_none (Nat.le_of_not_lt ha)]
    cases a - (edges.modify id (· ++ [target])).length <;> rfl

end Flow

namespace Function

variable {f : Function} {id a : Nat} {t : Tree} {more : Outline}

theorem chained (h : t.Holds id (f.outline ++ more)) :
    Code.Chained t (f.stations id).toArray (f.marks .chained).toArray f.code.chainedTable.toArray
      (id + 2 + f.startOutline.size) 1 true f.code :=
  ⟨f.marked h .chained, (RowsAt.toArray _).tail⟩

/-- The edges of the table lead on, and to statements only. -/
theorem leadsOn_chainedTable (h : t.Holds id (f.outline ++ more)) {row : List Nat}
    (hrow : f.code.chainedTable[a]? = some row) : ∀ b ∈ row,
      LeadsOn (f.marks .chained).toArray a b ∧ b < f.code.chainedTable.length := by
  obtain ⟨hlt, -⟩ := List.getElem?_eq_some_iff.mp hrow
  rw [f.code.length_chainedTable] at hlt ⊢
  intro b hb
  rcases Nat.eq_zero_or_pos a with rfl | hpos
  · obtain rfl : f.code.heads 1 = row := Option.some.inj hrow
    refine ⟨(chained h).leadsOn_heads Nat.one_pos rfl (fun _ => rfl) b hb, ?_⟩
    have := Code.of_mem_heads hb
    omega
  · obtain ⟨v, row', -, hrow', hspec⟩ := (chained h).statement ⟨hpos, by omega⟩
    rw [List.getElem?_toArray, hrow] at hrow'
    obtain rfl := Option.some.inj hrow'
    refine ⟨hspec.leadsOn b hb, ?_⟩
    obtain ⟨a, rfl⟩ : ∃ k, a = k + 1 := ⟨a - 1, by omega⟩
    have := Code.of_mem_chainedEdges (List.mem_of_getElem? hrow) hb
    omega

/-- The exit is hung on one node, to which the way from the entry along the last successors leads, and
    which has no successor but the exit. -/
structure HangsOn (f : Function) (id last : Nat) : Prop where
  lt : last < f.code.chainedTable.length
  row : f.code.chainedTable[last]? = some []
  way : Relation.ReflTransGen (fun a b => f.code.chainedTable[a]?.bind List.getLast? = some b)
    Graph.entry last
  successors : ∀ a, (f.graph .chained id).successors a =
    if a = last then [(f.graph .chained id).exit] else f.code.chainedTable[a]?.getD []
  inDegree : ∀ a, (f.graph .chained id).inDegree a =
    f.code.chainedTable.flatten.count a + [(f.graph .chained id).exit].count a

theorem exists_hangsOn (h : t.Holds id (f.outline ++ more)) : ∃ last, f.HangsOn id last := by
  have hpos : Graph.entry < f.code.chainedTable.length := Nat.zero_lt_succ _
  have hforward : ∀ a row, f.code.chainedTable[a]? = some row →
      ∀ b ∈ row, a < b ∧ b < f.code.chainedTable.length := by
    intro a row hrow b hb
    obtain ⟨hleads, hlt⟩ := leadsOn_chainedTable h hrow b hb
    exact ⟨hleads.1, hlt⟩
  obtain ⟨hrow, hway⟩ := follow_end hforward _ hpos (Nat.le_add_left _ _)
  have hlt := (List.getElem?_eq_some_iff.mp hrow).1
  refine ⟨_, hlt, hrow, hway, ?_, ?_⟩
  · intro a
    rw [successors_graph, exit_graph]
    exact getD_modify hlt hrow _ a
  · intro a
    rw [Graph.inDegree, List.flatMap, map_successors_graph, exit_graph]
    exact count_flatten_modify hlt _ a

namespace HangsOn

variable {last : Nat} (hlast : f.HangsOn id last)

include hlast

theorem mem_successors_iff {b : Nat} : b ∈ (f.graph .chained id).successors a ↔
    (a = last ∧ b = (f.graph .chained id).exit) ∨
      ∃ row, f.code.chainedTable[a]? = some row ∧ b ∈ row := by
  rw [hlast.successors]
  by_cases ha : a = last
  · subst ha
    simp [hlast.row]
  · rw [if_neg ha]
    cases f.code.chainedTable[a]? <;> simp [ha]

/-- An edge leads on, inside of the graph. -/
theorem leadsOn (h : t.Holds id (f.outline ++ more)) {b : Nat}
    (hb : b ∈ (f.graph .chained id).successors a) :
    LeadsOn (f.marks .chained).toArray a b ∧ b ≤ (f.graph .chained id).exit := by
  have hexit := f.exit_graph .chained id
  have hlength := f.code.length_chainedTable
  rcases hlast.mem_successors_iff.mp hb with ⟨rfl, rfl⟩ | ⟨row, hrow, hbrow⟩
  · have hlt := hlast.lt
    refine ⟨⟨by omega, ?_⟩, Nat.le_refl _⟩
    intro _
    rw [hexit, List.getElem?_toArray]
    exact f.mark_exit .chained
  · obtain ⟨hleads, hlt⟩ := leadsOn_chainedTable h hrow b hbrow
    exact ⟨hleads, by omega⟩

theorem reaches_exit :
    (f.graph .chained id).Reaches Graph.entry (f.graph .chained id).exit := by
  refine Relation.ReflTransGen.tail (b := last) ?_ (hlast.mem_successors_iff.mpr (.inl ⟨rfl, rfl⟩))
  refine Relation.ReflTransGen.mono ?_ _ _ hlast.way
  intro a b hnext
  obtain ⟨row, hrow, hb⟩ := Option.bind_eq_some_iff.mp hnext
  exact hlast.mem_successors_iff.mpr (.inr ⟨row, hrow, List.mem_of_getLast? hb⟩)

/-- What control can come to is what is marked. -/
theorem reaches_iff (h : t.Holds id (f.outline ++ more)) (m : Nat) :
    (f.graph .chained id).Reaches Graph.entry m ↔ (f.marks .chained)[m]? = some true := by
  refine Graph.reaches_iff_of_marks rfl ?_ ?_ m
  · intro a b hb
    have hleads := (hlast.leadsOn h hb).1.2
    rwa [List.getElem?_toArray, List.getElem?_toArray] at hleads
  · intro m hmark
    have hlength : m < f.code.statementCount + 2 := by
      rw [← f.length_marks .chained]
      exact (List.getElem?_eq_some_iff.mp hmark).1
    by_cases hexit : m = f.code.statementCount + 1
    · rw [hexit, ← f.exit_graph .chained id]
      exact hlast.reaches_exit
    · have hstep : ∀ a b row, f.code.chainedTable.toArray[a]? = some row → b ∈ row →
          (f.graph .chained id).Reaches Graph.entry a →
            (f.graph .chained id).Reaches Graph.entry b := by
        intro a b row hrow hb ha
        rw [List.getElem?_toArray] at hrow
        exact ha.tail (hlast.mem_successors_iff.mpr (.inr ⟨row, hrow, hb⟩))
      rcases Nat.eq_zero_or_pos m with rfl | hpos
      · exact .refl
      · rw [← List.getElem?_toArray] at hmark
        refine (chained h).reaches hstep ?_ ⟨hpos, by omega⟩ hmark
        intro _ b hb
        exact hstep Graph.entry b _ rfl hb .refl

/-- What is said about a statement of the function and its successors. -/
theorem statement (h : t.Holds id (f.outline ++ more)) {v : Flow.Node}
    (hv : (f.graph .chained id).node? a = some v) (ha : f.code.Numbers 1 a) :
    (v.station.kind = .ret →
        v.successors = [] ∨ v.successors = [(f.graph .chained id).exit]) ∧
      (v.station.kind = .branch → v.successors.length ≤ 2) := by
  have hsuccessors : (f.graph .chained id).successors a = v.successors := by
    rw [Graph.successors, hv]
    rfl
  obtain ⟨station, row, hstation, hrow, hspec⟩ := (chained h).statement ha
  rw [List.getElem?_toArray] at hstation hrow
  rw [(node?_graph_eq_some_iff.mp hv).1] at hstation
  obtain rfl := Option.some.inj hstation
  rw [hlast.successors] at hsuccessors
  rw [← hsuccessors]
  -- the exit can only be hung on a node that has no other successor
  by_cases hat : a = last
  · rw [if_pos hat]
    exact ⟨fun _ => .inr rfl, fun _ => Nat.le_succ 1⟩
  · rw [if_neg hat, hrow]
    exact ⟨fun hret => .inl (hspec.ret hret), hspec.branch⟩

end HangsOn

end Function

/-- In the chained layout control goes on behind every statement but an `if` and a `return`. -/
theorem Tree.passesAs_chained (t : Tree) : PassesAs t .chained fun s =>
    t.kind? s ≠ some .ifStatement ∧ t.kind? s ≠ some .returnStatement := by
  intro base c h hc
  induction c with
  | done => exact absurd hc Bool.noConfusion
  | skip x rest ih => exact ih h hc
  | simple s rest _ =>
    have hkind : t.kind? base = some s.label.kind := h.kind?
    simp only [hkind]
    cases s <;> simp [Simple.label, Label.covering, Code.goesOn, Simple.isReturn]
  | loop kind hd body closing rest _ _ =>
    have hkind : t.kind? base = some kind.nodeKind := h.kind?
    simp only [hkind]
    cases kind <;> simp [LoopKind.nodeKind, Code.goesOn]
  | ifThen hd body closing rest _ _ | ifThenElse hd body closing e other otherClosing rest _ _ _ =>
    have hkind : t.kind? base = some .ifStatement := h.kind?
    simp [hkind, Code.goesOn]

/-- A way whose steps lead forward and never beyond a bound ends. -/
theorem Flow.Graph.lastEnds_of_forward {g : Graph}
    (hforward : ∀ a b, b ∈ g.successors a → a < b ∧ b ≤ g.exit) (id : Nat) :
    ∃ last, g.successors last = [] ∧
      Relation.ReflTransGen (fun a b => (g.successors a).getLast? = some b) id last := by
  cases hnext : (g.successors id).getLast? with
  | none => exact ⟨id, List.getLast?_eq_none_iff.mp hnext, .refl⟩
  | some next =>
    obtain ⟨hlt, hle⟩ := hforward id next (List.mem_of_getLast? hnext)
    obtain ⟨last, hend, hway⟩ := lastEnds_of_forward hforward next
    exact ⟨last, hend, .head hnext hway⟩
termination_by g.exit - id

/-- The chained graph of a function of a tree has the chained shape. -/
theorem Function.chainedShape {o more : Outline} {f : Function} {id : Nat}
    (h : (Tree.ofOutline o).Holds id (f.outline ++ more)) :
    (f.graph .chained id).ChainedShape (Tree.ofOutline o) id := by
  obtain ⟨last, hlast⟩ := f.exists_hangsOn h
  have hexit := f.exit_graph .chained id
  have hlength := f.code.length_chainedTable
  have hforward : ∀ a b, b ∈ (f.graph .chained id).successors a →
      a < b ∧ b ≤ (f.graph .chained id).exit := by
    intro a b hb
    obtain ⟨hleads, hle⟩ := hlast.leadsOn h hb
    exact ⟨hleads.1, hle⟩
  have hinDegree (a : Nat) : (f.graph .chained id).inDegree a ≤
      if 1 ≤ a ∧ a ≤ f.code.statementCount + 1 then 1 else 0 := by
    have hcount := f.code.count_chainedEdges_le 1 a
    rw [hlast.inDegree, Code.chainedTable, List.flatten_cons, List.count_append, hexit,
      List.count_singleton]
    grind
  have hdegree (a : Nat) : (f.graph .chained id).inDegree a ≤ 1 := by
    refine Nat.le_trans (hinDegree a) ?_
    split
    · exact Nat.le_refl _
    · exact Nat.zero_le _
  have hne : (f.graph .chained id).exit ≠ last := by
    have hlt := hlast.lt
    omega
  constructor
  case numbered => exact f.numbered .chained id
  case forward => exact hforward
  case lastEnds => exact fun a _ => Graph.lastEnds_of_forward hforward a
  case inDegree_le => exact hdegree
  case inDegree_entry =>
    have hle := hinDegree Graph.entry
    rw [if_neg fun hand => Nat.not_succ_le_zero _ hand.1] at hle
    exact Nat.eq_zero_of_le_zero hle
  case inDegree_exit =>
    refine Nat.le_antisymm (hdegree _) ?_
    rw [hlast.inDegree, List.count_singleton_self]
    exact Nat.le_add_left _ _
  case successors_exit =>
    rw [hlast.successors, if_neg hne, List.getElem?_eq_none (by omega)]
    rfl
  case reaches_exit => exact hlast.reaches_exit
  case successors_ret =>
    intro a v hv hkind
    rcases node?_cases hv with ⟨rfl, hstation⟩ | ⟨rfl, hstation⟩ | ⟨ha, -, -⟩
    · simp [hstation, entryStation] at hkind
    · simp [hstation, exitStation] at hkind
    · exact (hlast.statement h hv ha).1 hkind
  case length_branch =>
    intro a v hv hkind
    rcases node?_cases hv with ⟨rfl, hstation⟩ | ⟨rfl, hstation⟩ | ⟨ha, -, -⟩
    · simp [hstation, entryStation] at hkind
    · simp [hstation, exitStation] at hkind
    · exact (hlast.statement h hv ha).2 hkind
  case reaches => exact reachesInRows h (Tree.passesAs_chained _) (hlast.reaches_iff h)

/-- **The chained graph of every function that is declared is a forest** with the exit at the end of the
    way along the last successors, and it says what control comes to. -/
theorem Program.chained_shape {limit : Nat} {tokens : List Token} {p : Program} {name : String}
    (h : Program.read limit tokens = .ok p) (hname : ∃ d ∈ p.tree.functions, d.label.text = name) :
    ∃ d g, p.tree.declaration? name = some d ∧ p.tree.graph? .chained name = .ok (some g) ∧
      d ∈ p.tree.functions ∧ d.label.text = name ∧ g.ChainedShape p.tree d.id := by
  obtain ⟨id, f, more, hholds, hd, hmem, hlabel, hg⟩ := exists_graph_of_declared h .chained hname
  exact ⟨_, _, hd, hg, hmem, hlabel, Function.chainedShape hholds⟩

theorem Program.chained_shape_returnInLoop :
    ∃ p d g, Program.read 3 returnInLoop = .ok p ∧ p.tree.declaration? "f" = some d ∧
      p.tree.graph? .chained "f" = .ok (some g) ∧ d ∈ p.tree.functions ∧ d.label.text = "f" ∧
        g.ChainedShape p.tree d.id := by
  obtain ⟨p, hread, hname⟩ := Program.declared_returnInLoop
  obtain ⟨d, g, hshape⟩ := Program.chained_shape hread hname
  exact ⟨p, d, g, hread, hshape⟩

end BraceLang
