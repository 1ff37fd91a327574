import BraceLang.Proofs.Flow.Reach
import BraceLang.Proofs.Flow.TreeGraph

/-!
# `Proofs.Flow.JoinedShape` — the joined graph has neither dead ends nor traps

In the joined layout every open end is linked, also of code that control never comes to. So every node
but the exit has as many successors as there are ways to go on, and each of them leads to the exit in
the end.

Control comes to a statement if the statements before it in its block can complete. That is what
the language would call reachable as well: `Tree.Completes` says which statements can complete, by
looking at nothing but the syntax tree.

## Contents
- `Tree.Completes`, and `Holds.completes_iff`, how it is read off some code.
- `Graph.JoinedShape`, what is said about the graph.
- `Code.Joined`, code that stands in the table of the joined edges, with one lemma for each form of
  statement, and from these `Joined.statement`, `Joined.leadsOn` and `Joined.reaches`.
- **`Program.joined_shape`**.
-/

namespace BraceLang

open BraceLang.Flow

/-! ## Statements that can complete -/

/-- Control can go on behind the statement. A `return` cannot complete, and an `if` can if all statements
    of one of its blocks can; a block that is missing or has no statements can always complete. -/
inductive Tree.Completes (t : Tree) : Nat → Prop
  | plain {id : Nat} {kind : NodeKind} : t.kind? id = some kind → kind ≠ .ifStatement →
      kind ≠ .returnStatement → Completes t id
  | branch {id : Nat} {block : NodeKind} : t.kind? id = some .ifStatement →
      block = .ifBody ∨ block = .elseBranch → (∀ s ∈ t.blockIds id block, Completes t s) →
      Completes t id

namespace Tree.Holds

variable {t : Tree} {base : Nat} {h : Header} {body other c : Code}
  {closing otherClosing : Option Token} {e : ElseHead}

theorem completes_simple {s : Simple} (ho : t.Holds base (Code.simple s c).outline) :
    t.Completes base ↔ s.isReturn = false := by
  have hkind : t.kind? base = some s.label.kind := ho.kind?
  constructor
  · intro hcompletes
    cases hcompletes with
    | plain hkind' _ hne =>
      obtain rfl := Option.some.inj (hkind.symm.trans hkind')
      cases s <;> simp [Simple.label, Label.covering, Simple.isReturn] at hne ⊢
    | branch hkind' =>
      rw [hkind] at hkind'
      cases s <;> simp [Simple.label, Label.covering] at hkind'
  · intro hret
    refine .plain hkind ?_ ?_ <;> cases s <;>
      simp [Simple.label, Label.covering, Simple.isReturn] at hret ⊢

theorem completes_loop {kind : LoopKind}
    (ho : t.Holds base (Code.loop kind h body closing c).outline) : t.Completes base := by
  have hkind : t.kind? base = some kind.nodeKind := ho.kind?
  refine .plain hkind ?_ ?_ <;> cases kind <;> simp [LoopKind.nodeKind]

theorem completes_ifThen (ho : t.Holds base (Code.ifThen h body closing c).outline) :
    t.Completes base := by
  refine .branch ho.kind? (.inr rfl) ?_
  rw [ho.blockIds_ifThen.2]
  exact fun _ hs => absurd hs List.not_mem_nil

theorem completes_ifThenElse
    (ho : t.Holds base (Code.ifThenElse h body closing e other otherClosing c).outline) :
    t.Completes base ↔
      (∀ s ∈ body.outline.rootIds (base + 3 + h.condition.length), t.Completes s) ∨
        ∀ s ∈ other.outline.rootIds (base + 3 + h.condition.length + body.nodeCount + 1),
          t.Completes s := by
  have hkind : t.kind? base = some .ifStatement := ho.kind?
  obtain ⟨hbody, hother⟩ := ho.blockIds_ifThenElse
  rw [← hbody, ← hother]
  constructor
  · intro hcompletes
    cases hcompletes with
    | plain hkind' hne => exact absurd (Option.some.inj (hkind'.symm.trans hkind)) hne
    | branch _ hblock hall =>
      rcases hblock with rfl | rfl
      · exact .inl hall
      · exact .inr hall
  · rintro (hall | hall)
    · exact .branch hkind (.inl rfl) hall
    · exact .branch hkind (.inr rfl) hall

/-- Control can come to the end of some code just if all its statements can complete. -/
theorem completes_iff (ho : t.Holds base c.outline) :
    (∀ s ∈ c.outline.rootIds base, t.Completes s) ↔ c.completes = true := by
  induction c generalizing base with
  | done => simp [Code.outline, Outline.rootIds, Code.completes]
  | skip x rest ih => exact ih ho
  | simple s rest ih =>
    rw [Code.outline, Outline.rootIds, List.forall_mem_cons, ho.completes_simple, ih ho.beside,
      Code.completes, Bool.and_eq_true, Bool.not_eq_true']
  | loop kind hd body closing rest _ ih =>
    obtain ⟨-, hbeside, -⟩ := ho.oneBlock
    rw [Code.outline, Outline.rootIds_oneBlock, List.forall_mem_cons, ih hbeside, Code.completes]
    exact and_iff_right ho.completes_loop
  | ifThen hd body closing rest _ ih =>
    obtain ⟨-, hbeside, -⟩ := ho.oneBlock
    rw [Code.outline, Outline.rootIds_oneBlock, List.forall_mem_cons, ih hbeside, Code.completes]
    exact and_iff_right ho.completes_ifThen
  | ifThenElse hd body closing e other otherClosing rest ihb iho ih =>
    obtain ⟨hbody, hother, hbeside, -⟩ := ho.twoBlocks
    have hrest := ih hbeside
    rw [Code.size_outline] at hother
    rw [Code.outline, Outline.rootIds_twoBlocks, List.forall_mem_cons, hrest,
      ho.completes_ifThenElse, ihb hbody, iho hother, Code.completes, Bool.and_eq_true,
      Bool.or_eq_true]

end Tree.Holds

/-- In the joined layout control goes on behind every statement that can complete. -/
theorem Tree.passesAs_joined (t : Tree) : PassesAs t .joined t.Completes := by
  intro base c h hc
  induction c with
  | done => exact absurd hc Bool.noConfusion
  | skip x rest ih => exact ih h hc
  | simple s rest _ =>
    rw [h.completes_simple, Code.goesOn, Bool.not_eq_true']
  | loop kind hd body closing rest _ _ => exact iff_of_true h.completes_loop rfl
  | ifThen hd body closing rest _ _ => exact iff_of_true h.completes_ifThen rfl
  | ifThenElse hd body closing e other otherClosing rest _ _ _ =>
    obtain ⟨hbody, hother, -⟩ := h.twoBlocks
    rw [Code.size_outline] at hother
    rw [h.completes_ifThenElse, hbody.completes_iff, hother.completes_iff, ← Bool.or_eq_true]
    rfl

namespace Flow.Graph

/-- The shape of the joined graph of the function that has the number `function` in the syntax tree. -/
structure JoinedShape (g : Graph) (t : Tree) (function : Nat) : Prop where
  numbered : g.Numbered
  /-- Edges lead to nodes. -/
  inside : ∀ a b, b ∈ g.successors a → b ≤ g.exit
  length_plain : ∀ id v, g.node? id = some v →
    v.station.kind ∈ [Kind.entry, .call, .statement, .ret] → v.successors.length = 1
  successors_ret : ∀ id v, g.node? id = some v → v.station.kind = .ret → v.successors = [g.exit]
  length_branch : ∀ id v, g.node? id = some v → v.station.kind = .branch →
    ∃ s, v.station.origin = some s ∧ v.successors.length =
      if t.blockIds s .ifBody = [] ∧ t.blockIds s .elseBranch = [] then 1 else 2
  length_loop : ∀ id v, g.node? id = some v → v.station.kind.isLoop = true →
    ∃ s, v.station.origin = some s ∧ v.successors.length =
      if t.blockIds s .loopBody = [] then 1 else 2
  successors_exit : g.successors g.exit = []
  reaches_exit : ∀ id, id ≤ g.exit → g.Reaches id g.exit
  /-- Control comes to a statement just if it comes into the block of it and all statements before it
      there can complete. -/
  reaches : g.ReachesInRows t function t.Completes

end Flow.Graph

/-! ## Code in the table of edges -/

/-- An edge between two nodes would stay in the graph, and it would lead from a marked node to a marked
    one. -/
def LeadsInside (exit : Nat) (marks : Array Bool) (a b : Nat) : Prop :=
  b ≤ exit ∧ (marks[a]? = some true → marks[b]? = some true)

/-- What the joined layout lists as the successors `row` of a statement, which has the number `a` in
    the graph: as many as there are ways to go on, and none that is less marked than the statement. -/
structure JoinedRow (t : Tree) (exit : Nat) (marks : Array Bool) (a : Nat) (v : Station)
    (row : List Nat) : Prop where
  plain : v.kind.isDecision = false → row.length = 1
  ret : v.kind = .ret → row = [exit]
  branch : v.kind = .branch → ∃ s, v.origin = some s ∧ row.length =
    if t.blockIds s .ifBody = [] ∧ t.blockIds s .elseBranch = [] then 1 else 2
  loop : v.kind.isLoop = true → ∃ s, v.origin = some s ∧ row.length =
    if t.blockIds s .loopBody = [] then 1 else 2
  leadsInside : ∀ b ∈ row, LeadsInside exit marks a b

/-- Marked code whose successors in the joined layout stand in a table from the number `n` on, where
    control goes to `next` behind the code. -/
structure Code.Joined (t : Tree) (stations : Array Station) (marks : Array Bool)
    (rows : Array (List Nat)) (exit base n next : Nat) (live : Bool) (c : Code) : Prop extends
    Code.Marked t stations marks .joined base n live c where
  rows : RowsAt rows n (c.joinedEdges exit next n)

namespace Code

variable {c other : Code} {n middle next b : Nat}

/-- What holds of the first statement of some code and, if it has none, of what is behind the code,
    holds of where control enters the code. -/
theorem entryOr_of {motive : Nat → Prop} (hfirst : c.isEmpty = false → motive n)
    (hnext : c.isEmpty = true → motive next) : motive (c.entryOr n next) := by
  unfold entryOr
  split
  · next hempty => exact hnext hempty
  · next hfull => exact hfirst (Bool.eq_false_iff.mpr hfull)

/-- Of the two ways at a decision between two codes, each is listed. -/
theorem mem_branches : (b ∈ if c.isEmpty && other.isEmpty then [next]
      else [c.entryOr n next, other.entryOr middle next]) ↔
    b = c.entryOr n next ∨ b = other.entryOr middle next := by
  unfold entryOr
  cases c.isEmpty <;> cases other.isEmpty <;> simp

theorem mem_heads (h : c.isEmpty = false) : n ∈ c.heads n := by
  rw [heads, h]
  exact List.mem_singleton_self n

theorem numbers_first (h : c.isEmpty = false) : c.Numbers n n :=
  ⟨Nat.le_refl n, Nat.lt_add_of_pos_right (statementCount_pos h)⟩

end Code

namespace Code.Joined

variable {t : Tree} {stations : Array Station} {marks : Array Bool} {rows : Array (List Nat)}
  {exit base n next a : Nat} {live : Bool} {h : Header} {body other c : Code}
  {closing otherClosing : Option Token} {e : ElseHead}

theorem skip {x : Token} (hc : Joined t stations marks rows exit base n next live (.skip x c)) :
    Joined t stations marks rows exit base n next live c :=
  ⟨hc.toMarked.skip, hc.rows⟩

theorem simple {s : Simple} (hc : Joined t stations marks rows exit base n next live (.simple s c)) :
    rows[n]? = some [if s.isReturn then exit else c.entryOr (n + 1) next] ∧
      Joined t stations marks rows exit (base + 1 + s.parts.size) (n + 1) next
        (live && !s.isReturn) c := by
  obtain ⟨-, -, hrest⟩ := hc.toMarked.simple
  exact ⟨hc.rows.head, hrest, hc.rows.tail⟩

theorem loop {kind : LoopKind}
    (hc : Joined t stations marks rows exit base n next live (.loop kind h body closing c)) :
    rows[n]? = some (body.heads (n + 1) ++ [c.entryOr (n + 1 + body.statementCount) next]) ∧
      Joined t stations marks rows exit (base + 3 + h.condition.length) (n + 1) n live body ∧
      Joined t stations marks rows exit (base + 3 + h.condition.length + body.nodeCount)
        (n + 1 + body.statementCount) next live c := by
  obtain ⟨-, -, hbody, hrest⟩ := hc.toMarked.loop
  obtain ⟨hrows, hrows'⟩ := hc.rows.tail.split (body.length_joinedEdges _ _ _)
  exact ⟨hc.rows.head, ⟨hbody, hrows⟩, hrest, hrows'⟩

theorem ifThen (hc : Joined t stations marks rows exit base n next live (.ifThen h body closing c)) :
    let join := c.entryOr (n + 1 + body.statementCount) next
    rows[n]? = some (body.heads (n + 1) ++ [join]) ∧
      Joined t stations marks rows exit (base + 3 + h.condition.length) (n + 1) join live body ∧
      Joined t stations marks rows exit (base + 3 + h.condition.length + body.nodeCount)
        (n + 1 + body.statementCount) next (live && true) c := by
  obtain ⟨-, -, hbody, hrest⟩ := hc.toMarked.ifThen
  obtain ⟨hrows, hrows'⟩ := hc.rows.tail.split (body.length_joinedEdges _ _ _)
  exact ⟨hc.rows.head, ⟨hbody, hrows⟩, hrest, hrows'⟩

theorem ifThenElse (hc : Joined t stations marks rows exit base n next live
      (.ifThenElse h body closing e other otherClosing c)) :
    let middle := n + 1 + body.statementCount
    let join := c.entryOr (middle + other.statementCount) next
    rows[n]? = some (if body.isEmpty && other.isEmpty then [join]
        else [body.entryOr (n + 1) join, other.entryOr middle join]) ∧
      Joined t stations marks rows exit (base + 3 + h.condition.length) (n + 1) join live body ∧
      Joined t stations marks rows exit (base + 3 + h.condition.length + body.nodeCount + 1)
        middle join live other ∧
      Joined t stations marks rows exit
        (base + 3 + h.condition.length + body.nodeCount + 1 + other.nodeCount)
        (middle + other.statementCount) next (live && (body.completes || other.completes)) c := by
  obtain ⟨-, -, hbody, hother, hrest⟩ := hc.toMarked.ifThenElse
  obtain ⟨hrows, hmore⟩ := hc.rows.tail.split (body.length_joinedEdges _ _ _)
  obtain ⟨hrows', hrows''⟩ := hmore.split (other.length_joinedEdges _ _ _)
  exact ⟨hc.rows.head, ⟨hbody, hrows⟩, ⟨hother, hrows'⟩, hrest, hrows''⟩

theorem entryOr_le (hbound : n + c.statementCount ≤ exit) (hnext : next ≤ exit) :
    c.entryOr n next ≤ exit :=
  entryOr_of (motive := (· ≤ exit)) (fun _ => Nat.le_of_add_right_le hbound) fun _ => hnext

/-- Where control enters marked code is marked, if what is behind the code is. -/
theorem mark_entryOr (hc : Joined t stations marks rows exit base n next live c)
    (hlive : live = true) (hnext : c.completes = true → marks[next]? = some true) :
    marks[c.entryOr n next]? = some true := by
  refine entryOr_of (motive := fun m => marks[m]? = some true) ?_ ?_
  · intro hfull
    rw [mark_of_mem_heads hc.marks (mem_heads hfull), hlive]
  · intro hempty
    exact hnext (completes_of_isEmpty hempty)

/-- At a decision that leads into some code and behind it, there are two ways if the code has statements,
    and both lead to nodes that are marked if the decision is. -/
theorem decision {behind : Nat} (hc : Joined t stations marks rows exit base n next live c)
    (hbound : n + c.statementCount ≤ exit) (hmark : marks[a]? = some live)
    (hbehind : LeadsInside exit marks a behind) :
    (c.heads n ++ [behind]).length = (if c.outline.rootIds base = [] then 1 else 2) ∧
      ∀ b ∈ c.heads n ++ [behind], LeadsInside exit marks a b := by
  constructor
  · simp only [c.rootIds_eq_nil_iff, Code.heads]
    cases c.isEmpty <;> rfl
  · refine List.forall_mem_append.mpr ⟨?_, List.forall_mem_singleton.mpr hbehind⟩
    intro b hb
    have hlt := (of_mem_heads hb).2
    refine ⟨by omega, ?_⟩
    intro ha
    rw [mark_of_mem_heads hc.marks hb, ← hmark, ha]

/-- Every statement has a station and a row of successors that may stand there, if what is behind the
    code is marked in case that control comes to its end. -/
theorem statement (hexit : marks[exit]? = some true)
    (hc : Joined t stations marks rows exit base n next live c)
    (hbound : n + c.statementCount ≤ exit) (hbehind : next ≤ exit)
    (hnext : live = true → c.completes = true → marks[next]? = some true) (ha : c.Numbers n a) :
    ∃ v row, stations[a]? = some v ∧ rows[a]? = some row ∧ JoinedRow t exit marks a v row := by
  induction c generalizing base n next live with
  | done => exact absurd ha not_numbers_done
  | skip x rest ih => exact ih hc.skip hbound hbehind hnext ha
  | simple s rest ih =>
    obtain ⟨hstation, hmark, -⟩ := hc.toMarked.simple
    obtain ⟨hrow, hrest⟩ := hc.simple
    rw [statementCount] at hbound
    have hnext' : (live && !s.isReturn) = true → rest.completes = true →
        marks[next]? = some true := by
      intro hlive hrest
      obtain ⟨hlive, hret⟩ := Bool.and_eq_true_iff.mp hlive
      exact hnext hlive (Bool.and_eq_true_iff.mpr ⟨hret, hrest⟩)
    rcases numbers_simple.mp ha with rfl | ha
    · refine ⟨_, _, hstation, hrow, fun _ => rfl, ?_, ?_, ?_, List.forall_mem_singleton.mpr ?_⟩
      · intro hkind
        cases s <;> simp [Simple.station, Simple.flowKind, Simple.isReturn] at hkind ⊢
      · intro hkind
        cases s <;> simp [Simple.station, Simple.flowKind] at hkind
      · intro hkind
        cases s <;> simp [Simple.station, Simple.flowKind, Kind.isLoop] at hkind
      · by_cases hret : s.isReturn = true
        · rw [if_pos hret]
          exact ⟨Nat.le_refl _, fun _ => hexit⟩
        · rw [if_neg hret]
          refine ⟨entryOr_le (by omega) hbehind, ?_⟩
          intro ha
          rw [hmark] at ha
          have hlive : (live && !s.isReturn) = true := by simp [Option.some.inj ha, hret]
          exact hrest.mark_entryOr hlive (hnext' hlive)
    · exact ih hrest (by omega) hbehind hnext' ha
  | loop kind hd body closing rest ihb ih =>
    obtain ⟨hstation, hmark, -⟩ := hc.toMarked.loop
    obtain ⟨hrow, hbody, hrest⟩ := hc.loop
    rw [statementCount] at hbound
    have hjoin : LeadsInside exit marks n (rest.entryOr (n + 1 + body.statementCount) next) := by
      refine ⟨entryOr_le (by omega) hbehind, ?_⟩
      intro hn
      have hlive : live = true := Option.some.inj (hmark.symm.trans hn)
      exact hrest.mark_entryOr hlive (hnext hlive)
    obtain ⟨hlength, hleads⟩ := hbody.decision (by omega) hmark hjoin
    rcases numbers_loop.mp ha with rfl | ha | ha
    · refine ⟨_, _, hstation, hrow, ?_, ?_, ?_, ?_, hleads⟩
      · intro hkind
        cases kind <;> cases hkind
      · intro hkind
        cases kind <;> cases hkind
      · intro hkind
        cases kind <;> cases hkind
      · intro _
        refine ⟨base, rfl, ?_⟩
        rw [hc.tree.blockIds_loop]
        exact hlength
    · refine ihb hbody (by omega) (by omega) ?_ ha
      intro hlive _
      rw [hmark, hlive]
    · exact ih hrest (by omega) hbehind hnext ha
  | ifThen hd body closing rest ihb ih =>
    obtain ⟨hstation, hmark, -⟩ := hc.toMarked.ifThen
    obtain ⟨hrow, hbody, hrest⟩ := hc.ifThen
    rw [statementCount] at hbound
    rw [Bool.and_true] at hrest
    have hjoin : LeadsInside exit marks n (rest.entryOr (n + 1 + body.statementCount) next) := by
      refine ⟨entryOr_le (by omega) hbehind, ?_⟩
      intro hn
      have hlive : live = true := Option.some.inj (hmark.symm.trans hn)
      exact hrest.mark_entryOr hlive (hnext hlive)
    obtain ⟨hlength, hleads⟩ := hbody.decision (by omega) hmark hjoin
    rcases numbers_ifThen.mp ha with rfl | ha | ha
    · refine ⟨_, _, hstation, hrow, ?_, ?_, ?_, ?_, hleads⟩
      · intro hkind
        cases hkind
      · intro hkind
        cases hkind
      · intro _
        refine ⟨base, rfl, ?_⟩
        rw [hc.tree.blockIds_ifThen.1, hc.tree.blockIds_ifThen.2]
        simp only [and_true]
        exact hlength
      · intro hkind
        cases hkind
    · refine ihb hbody (by omega) hjoin.1 ?_ ha
      intro hlive _
      exact hjoin.2 (hlive ▸ hmark)
    · exact ih hrest (by omega) hbehind hnext ha
  | ifThenElse hd body closing e other otherClosing rest ihb iho ih =>
    obtain ⟨hstation, hmark, -⟩ := hc.toMarked.ifThenElse
    obtain ⟨hrow, hbody, hother, hrest⟩ := hc.ifThenElse
    rw [statementCount] at hbound
    have hbehind' : rest.entryOr (n + 1 + body.statementCount + other.statementCount) next ≤ exit :=
      entryOr_le (by omega) hbehind
    -- what is behind the decision is marked if one of the two codes can be passed
    have hjoin : live = true → (body.completes || other.completes) = true → marks[
        rest.entryOr (n + 1 + body.statementCount + other.statementCount) next]? = some true := by
      intro hlive hgoesOn
      refine hrest.mark_entryOr (Bool.and_eq_true_iff.mpr ⟨hlive, hgoesOn⟩) ?_
      intro hcompletes
      exact hnext hlive (Bool.and_eq_true_iff.mpr ⟨hgoesOn, hcompletes⟩)
    have hjoinBody : live = true → body.completes = true → marks[
        rest.entryOr (n + 1 + body.statementCount + other.statementCount) next]? = some true :=
      fun hlive hcompletes => hjoin hlive (by rw [hcompletes, Bool.true_or])
    have hjoinOther : live = true → other.completes = true → marks[
        rest.entryOr (n + 1 + body.statementCount + other.statementCount) next]? = some true :=
      fun hlive hcompletes => hjoin hlive (by rw [hcompletes, Bool.or_true])
    rcases numbers_ifThenElse.mp ha with rfl | ha | ha | ha
    · refine ⟨_, _, hstation, hrow, ?_, ?_, ?_, ?_, ?_⟩
      · intro hkind
        cases hkind
      · intro hkind
        cases hkind
      · intro _
        refine ⟨base, rfl, ?_⟩
        rw [hc.tree.blockIds_ifThenElse.1, hc.tree.blockIds_ifThenElse.2]
        simp only [body.rootIds_eq_nil_iff, other.rootIds_eq_nil_iff]
        cases body.isEmpty <;> cases other.isEmpty <;> rfl
      · intro hkind
        cases hkind
      · intro b hb
        rcases mem_branches.mp hb with rfl | rfl
        · refine ⟨entryOr_le (by omega) hbehind', ?_⟩
          intro ha
          have hlive : live = true := Option.some.inj (hmark.symm.trans ha)
          exact hbody.mark_entryOr hlive (hjoinBody hlive)
        · refine ⟨entryOr_le (by omega) hbehind', ?_⟩
          intro ha
          have hlive : live = true := Option.some.inj (hmark.symm.trans ha)
          exact hother.mark_entryOr hlive (hjoinOther hlive)
    · exact ihb hbody (by omega) hbehind' hjoinBody ha
    · exact iho hother (by omega) hbehind' hjoinOther ha
    · refine ih hrest (by omega) hbehind ?_ ha
      intro hlive hcompletes
      obtain ⟨hlive, hgoesOn⟩ := Bool.and_eq_true_iff.mp hlive
      exact hnext hlive (Bool.and_eq_true_iff.mpr ⟨hgoesOn, hcompletes⟩)

/-- From every statement the way leads on, to wherever it leads from what is behind the code. -/
theorem leadsOn {leads : Nat → Prop}
    (hstep : ∀ a b row, rows[a]? = some row → b ∈ row → leads b → leads a)
    (hexit : leads exit) (hc : Joined t stations marks rows exit base n next live c)
    (hnext : leads next) : ∀ a, c.Numbers n a → leads a := by
  -- the code behind a statement comes first, then the statement, and then its blocks, which lead to it
  -- or to the code behind it
  induction c generalizing base n next live with
  | done => exact fun a ha => absurd ha not_numbers_done
  | skip x rest ih => exact ih hc.skip hnext
  | simple s rest ih =>
    obtain ⟨hrow, hrest⟩ := hc.simple
    have hbehind := ih hrest hnext
    intro a ha
    rcases numbers_simple.mp ha with rfl | ha
    · refine hstep a _ _ hrow (List.mem_singleton_self _) ?_
      split
      · exact hexit
      · exact entryOr_of (fun hfull => hbehind _ (numbers_first hfull)) fun _ => hnext
    · exact hbehind a ha
  | loop kind hd body closing rest ihb ih =>
    obtain ⟨hrow, hbody, hrest⟩ := hc.loop
    have hbehind := ih hrest hnext
    have hn : leads n := by
      refine hstep n _ _ hrow (List.mem_append_right _ (List.mem_singleton_self _)) ?_
      exact entryOr_of (fun hfull => hbehind _ (numbers_first hfull)) fun _ => hnext
    intro a ha
    rcases numbers_loop.mp ha with rfl | ha | ha
    · exact hn
    · exact ihb hbody hn a ha
    · exact hbehind a ha
  | ifThen hd body closing rest ihb ih =>
    obtain ⟨hrow, hbody, hrest⟩ := hc.ifThen
    have hbehind := ih hrest hnext
    have hjoin : leads (rest.entryOr (n + 1 + body.statementCount) next) :=
      entryOr_of (fun hfull => hbehind _ (numbers_first hfull)) fun _ => hnext
    intro a ha
    rcases numbers_ifThen.mp ha with rfl | ha | ha
    · exact hstep a _ _ hrow (List.mem_append_right _ (List.mem_singleton_self _)) hjoin
    · exact ihb hbody hjoin a ha
    · exact hbehind a ha
  | ifThenElse hd body closing e other otherClosing rest ihb iho ih =>
    obtain ⟨hrow, hbody, hother, hrest⟩ := hc.ifThenElse
    have hbehind := ih hrest hnext
    have hjoin : leads (rest.entryOr (n + 1 + body.statementCount + other.statementCount) next) :=
      entryOr_of (fun hfull => hbehind _ (numbers_first hfull)) fun _ => hnext
    have hin := ihb hbody hjoin
    intro a ha
    rcases numbers_ifThenElse.mp ha with rfl | ha | ha | ha
    · refine hstep a _ _ hrow (mem_branches.mpr (.inl rfl)) ?_
      exact entryOr_of (fun hfull => hin _ (numbers_first hfull)) fun _ => hjoin
    · exact hin a ha
    · exact iho hother hjoin a ha
    · exact hbehind a ha

/-- What goes along the edges and comes to the beginning of the code, if that is marked, comes to every
    marked statement, and it comes to what is behind the code if the code can be passed. -/
theorem reaches {reached : Nat → Prop}
    (hstep : ∀ a b row, rows[a]? = some row → b ∈ row → reached a → reached b)
    (hc : Joined t stations marks rows exit base n next live c)
    (hin : live = true → reached (c.entryOr n next)) :
    (∀ a, c.Numbers n a → marks[a]? = some true → reached a) ∧
      (live = true → c.completes = true → reached next) := by
  induction c generalizing base n next live with
  | done => exact ⟨fun a ha => absurd ha not_numbers_done, fun hlive _ => hin hlive⟩
  | skip x rest ih => exact ih hc.skip hin
  | simple s rest ih =>
    obtain ⟨-, hmark, -⟩ := hc.toMarked.simple
    obtain ⟨hrow, hrest⟩ := hc.simple
    have hn : live = true → reached n := hin
    obtain ⟨hall, hend⟩ := ih hrest fun hlive => by
      obtain ⟨hlive, hret⟩ := Bool.and_eq_true_iff.mp hlive
      refine hstep n _ _ hrow ?_ (hn hlive)
      rw [if_neg (by simpa using hret)]
      exact List.mem_singleton_self _
    refine ⟨?_, ?_⟩
    · intro a ha hmark'
      rcases numbers_simple.mp ha with rfl | ha
      · exact hn (Option.some.inj (hmark.symm.trans hmark'))
      · exact hall a ha hmark'
    · intro hlive hcompletes
      obtain ⟨hret, hcompletes⟩ := Bool.and_eq_true_iff.mp hcompletes
      exact hend (Bool.and_eq_true_iff.mpr ⟨hlive, hret⟩) hcompletes
  | loop kind hd body closing rest ihb ih =>
    obtain ⟨-, hmark, -⟩ := hc.toMarked.loop
    obtain ⟨hrow, hbody, hrest⟩ := hc.loop
    have hn : live = true → reached n := hin
    have hfirst : live = true → reached (body.entryOr (n + 1) n) := by
      intro hlive
      refine entryOr_of (motive := reached) ?_ fun _ => hn hlive
      intro hfull
      exact hstep n _ _ hrow (List.mem_append_left _ (mem_heads hfull)) (hn hlive)
    obtain ⟨hall, -⟩ := ihb hbody hfirst
    obtain ⟨hall', hend⟩ := ih hrest fun hlive =>
      hstep n _ _ hrow (List.mem_append_right _ (List.mem_singleton_self _)) (hn hlive)
    refine ⟨?_, hend⟩
    intro a ha hmark'
    rcases numbers_loop.mp ha with rfl | ha | ha
    · exact hn (Option.some.inj (hmark.symm.trans hmark'))
    · exact hall a ha hmark'
    · exact hall' a ha hmark'
  | ifThen hd body closing rest ihb ih =>
    obtain ⟨-, hmark, -⟩ := hc.toMarked.ifThen
    obtain ⟨hrow, hbody, hrest⟩ := hc.ifThen
    rw [Bool.and_true] at hrest
    have hn : live = true → reached n := hin
    have hjoin : live = true → reached (rest.entryOr (n + 1 + body.statementCount) next) :=
      fun hlive =>
        hstep n _ _ hrow (List.mem_append_right _ (List.mem_singleton_self _)) (hn hlive)
    have hfirst : live = true → reached (body.entryOr (n + 1)
        (rest.entryOr (n + 1 + body.statementCount) next)) := by
      intro hlive
      refine entryOr_of (motive := reached) ?_ fun _ => hjoin hlive
      intro hfull
      exact hstep n _ _ hrow (List.mem_append_left _ (mem_heads hfull)) (hn hlive)
    obtain ⟨hall, -⟩ := ihb hbody hfirst
    obtain ⟨hall', hend⟩ := ih hrest hjoin
    refine ⟨?_, hend⟩
    intro a ha hmark'
    rcases numbers_ifThen.mp ha with rfl | ha | ha
    · exact hn (Option.some.inj (hmark.symm.trans hmark'))
    · exact hall a ha hmark'
    · exact hall' a ha hmark'
  | ifThenElse hd body closing e other otherClosing rest ihb iho ih =>
    obtain ⟨-, hmark, -⟩ := hc.toMarked.ifThenElse
    obtain ⟨hrow, hbody, hother, hrest⟩ := hc.ifThenElse
    have hn : live = true → reached n := hin
    obtain ⟨hall, hend⟩ := ihb hbody fun hlive =>
      hstep n _ _ hrow (mem_branches.mpr (.inl rfl)) (hn hlive)
    obtain ⟨hall', hend'⟩ := iho hother fun hlive =>
      hstep n _ _ hrow (mem_branches.mpr (.inr rfl)) (hn hlive)
    obtain ⟨hall'', hend''⟩ := ih hrest fun hlive => by
      obtain ⟨hlive, hgoesOn⟩ := Bool.and_eq_true_iff.mp hlive
      rcases Bool.or_eq_true_iff.mp hgoesOn with hcompletes | hcompletes
      · exact hend hlive hcompletes
      · exact hend' hlive hcompletes
    refine ⟨?_, ?_⟩
    · intro a ha hmark'
      rcases numbers_ifThenElse.mp ha with rfl | ha | ha | ha
      · exact hn (Option.some.inj (hmark.symm.trans hmark'))
      · exact hall a ha hmark'
      · exact hall' a ha hmark'
      · exact hall'' a ha hmark'
    · intro hlive hcompletes
      obtain ⟨hgoesOn, hcompletes⟩ := Bool.and_eq_true_iff.mp hcompletes
      exact hend'' (Bool.and_eq_true_iff.mpr ⟨hlive, hgoesOn⟩) hcompletes

end Code.Joined

/-! ## Functions -/

namespace Function

variable {f : Function} {id a b : Nat} {t : Tree} {more : Outline}

theorem joined (h : t.Holds id (f.outline ++ more)) :
    Code.Joined t (f.stations id).toArray (f.marks .joined).toArray
      (Layout.joined.edges f.code).toArray (f.code.statementCount + 1) (id + 2 + f.startOutline.size)
      1 (f.code.statementCount + 1) true f.code :=
  ⟨f.marked h .joined, (RowsAt.toArray _).tail.left⟩

/-- What is said about the statements of the function and their successors. -/
theorem joinedRow (h : t.Holds id (f.outline ++ more)) (ha : f.code.Numbers 1 a) :
    ∃ v row, (f.stations id)[a]? = some v ∧ (Layout.joined.edges f.code)[a]? = some row ∧
      JoinedRow t (f.code.statementCount + 1) (f.marks .joined).toArray a v row := by
  have hexit : (f.marks .joined).toArray[f.code.statementCount + 1]? = some true := by
    rw [List.getElem?_toArray]
    exact f.mark_exit .joined
  obtain ⟨v, row, hv, hrow, hspec⟩ := (joined h).statement hexit (by omega) (Nat.le_refl _)
    (fun _ _ => hexit) ha
  rw [List.getElem?_toArray] at hv hrow
  exact ⟨v, row, hv, hrow, hspec⟩

theorem joinedRow_of_node? (h : t.Holds id (f.outline ++ more)) {v : Flow.Node}
    (hv : (f.graph .joined id).node? a = some v) (ha : f.code.Numbers 1 a) :
    JoinedRow t (f.code.statementCount + 1) (f.marks .joined).toArray a v.station v.successors := by
  obtain ⟨station, row, hstation, hrow, hspec⟩ := joinedRow h ha
  obtain ⟨hstation', hrow'⟩ := node?_graph_eq_some_iff.mp hv
  obtain rfl := Option.some.inj (hstation.symm.trans hstation')
  obtain rfl := Option.some.inj (hrow.symm.trans hrow')
  exact hspec

theorem mem_successors_joined_iff : b ∈ (f.graph .joined id).successors a ↔
    ∃ row, (Layout.joined.edges f.code)[a]? = some row ∧ b ∈ row := by
  rw [successors_graph]
  cases (Layout.joined.edges f.code)[a]? <;> simp

/-- The exit leads nowhere. -/
theorem successors_exit_joined (f : Function) (id : Nat) :
    (f.graph .joined id).successors (f.graph .joined id).exit = [] := by
  have hlength := f.code.length_joinedEdges (f.code.statementCount + 1) (f.code.statementCount + 1) 1
  rw [successors_graph, exit_graph, Layout.edges, Flow.joined, List.getElem?_cons_succ,
    List.getElem?_append_right (Nat.le_of_eq hlength), hlength, Nat.sub_self]
  rfl

/-- An edge stays in the graph, and it leads from a marked node to a marked one. -/
theorem leadsInside (h : t.Holds id (f.outline ++ more))
    (hb : b ∈ (f.graph .joined id).successors a) :
    LeadsInside (f.graph .joined id).exit (f.marks .joined).toArray a b := by
  have hexit := f.exit_graph .joined id
  obtain ⟨row, hrow, hbrow⟩ := mem_successors_joined_iff.mp hb
  have hlt : a < f.code.statementCount + 2 := by
    rw [← length_edges .joined]
    exact (List.getElem?_eq_some_iff.mp hrow).1
  have hne : a ≠ (f.graph .joined id).exit := by
    rintro rfl
    rw [f.successors_exit_joined] at hb
    exact List.not_mem_nil hb
  rw [hexit] at hne ⊢
  rcases Nat.eq_zero_or_pos a with rfl | hpos
  · obtain rfl := Option.some.inj hrow
    obtain rfl := List.mem_singleton.mp hbrow
    refine ⟨Code.Joined.entryOr_le (by omega) (Nat.le_refl _), ?_⟩
    intro _
    refine (joined h).mark_entryOr rfl ?_
    intro _
    rw [List.getElem?_toArray]
    exact f.mark_exit .joined
  · obtain ⟨v, row', -, hrow', hspec⟩ := joinedRow h ⟨hpos, by omega⟩
    obtain rfl := Option.some.inj (hrow.symm.trans hrow')
    exact hspec.leadsInside b hbrow

/-- Every node leads to the exit. -/
theorem reaches_exit_joined (h : t.Holds id (f.outline ++ more))
    (ha : a ≤ (f.graph .joined id).exit) :
    (f.graph .joined id).Reaches a (f.graph .joined id).exit := by
  have hexit := f.exit_graph .joined id
  have hstep : ∀ a b row, (Layout.joined.edges f.code).toArray[a]? = some row → b ∈ row →
      (f.graph .joined id).Reaches b (f.graph .joined id).exit →
        (f.graph .joined id).Reaches a (f.graph .joined id).exit := by
    intro a b row hrow hb hreach
    rw [List.getElem?_toArray] at hrow
    exact .head (mem_successors_joined_iff.mpr ⟨row, hrow, hb⟩) hreach
  have hend : (f.graph .joined id).Reaches (f.code.statementCount + 1)
      (f.graph .joined id).exit := by
    rw [hexit]
    exact .refl
  have hall := (joined h).leadsOn hstep hend hend
  rw [hexit] at ha
  rcases Nat.eq_zero_or_pos a with rfl | hpos
  · refine hstep Graph.entry _ _ rfl (List.mem_singleton_self _) ?_
    exact Code.entryOr_of (motive := fun m => (f.graph .joined id).Reaches m _)
      (fun hfull => hall _ (Code.numbers_first hfull)) fun _ => hend
  · by_cases hat : a = f.code.statementCount + 1
    · rw [hat]
      exact hend
    · exact hall a ⟨hpos, by omega⟩

/-- What control can come to is what is marked. -/
theorem reaches_iff_joined (h : t.Holds id (f.outline ++ more)) (m : Nat) :
    (f.graph .joined id).Reaches Graph.entry m ↔ (f.marks .joined)[m]? = some true := by
  refine Graph.reaches_iff_of_marks rfl ?_ ?_ m
  · intro a b hb
    have hleads := (leadsInside h hb).2
    rwa [List.getElem?_toArray, List.getElem?_toArray] at hleads
  · intro m hmark
    have hlength : m < f.code.statementCount + 2 := by
      rw [← f.length_marks .joined]
      exact (List.getElem?_eq_some_iff.mp hmark).1
    have hstep : ∀ a b row, (Layout.joined.edges f.code).toArray[a]? = some row → b ∈ row →
        (f.graph .joined id).Reaches Graph.entry a →
          (f.graph .joined id).Reaches Graph.entry b := by
      intro a b row hrow hb ha
      rw [List.getElem?_toArray] at hrow
      exact ha.tail (mem_successors_joined_iff.mpr ⟨row, hrow, hb⟩)
    obtain ⟨hall, -⟩ := (joined h).reaches hstep fun _ =>
      hstep Graph.entry _ _ rfl (List.mem_singleton_self _) .refl
    rcases Nat.eq_zero_or_pos m with rfl | hpos
    · exact .refl
    · by_cases hat : m = f.code.statementCount + 1
      · rw [hat, ← f.exit_graph .joined id]
        exact reaches_exit_joined h (Nat.zero_le _)
      · rw [← List.getElem?_toArray] at hmark
        exact hall m ⟨hpos, by omega⟩ hmark

/-- The joined graph of a function of a tree has the joined shape. -/
theorem joinedShape {o : Outline} (h : (Tree.ofOutline o).Holds id (f.outline ++ more)) :
    (f.graph .joined id).JoinedShape (Tree.ofOutline o) id := by
  have hexit := f.exit_graph .joined id
  constructor
  case numbered => exact f.numbered .joined id
  case inside => exact fun _ _ hb => (leadsInside h hb).1
  case length_plain =>
    intro a v hv hkind
    rcases node?_cases hv with ⟨rfl, -⟩ | ⟨rfl, hstation⟩ | ⟨ha, -, -⟩
    · rw [← Option.some.inj (node?_graph_eq_some_iff.mp hv).2]
      rfl
    · simp [hstation, exitStation] at hkind
    · refine (joinedRow_of_node? h hv ha).plain ?_
      simp only [List.mem_cons, List.not_mem_nil, or_false] at hkind
      rcases hkind with hkind | hkind | hkind | hkind <;> rw [hkind] <;> rfl
  case successors_ret =>
    intro a v hv hkind
    rcases node?_cases hv with ⟨rfl, hstation⟩ | ⟨rfl, hstation⟩ | ⟨ha, -, -⟩
    · simp [hstation, entryStation] at hkind
    · simp [hstation, exitStation] at hkind
    · rw [hexit]
      exact (joinedRow_of_node? h hv ha).ret hkind
  case length_branch =>
    intro a v hv hkind
    rcases node?_cases hv with ⟨rfl, hstation⟩ | ⟨rfl, hstation⟩ | ⟨ha, -, -⟩
    · simp [hstation, entryStation] at hkind
    · simp [hstation, exitStation] at hkind
    · exact (joinedRow_of_node? h hv ha).branch hkind
  case length_loop =>
    intro a v hv hkind
    rcases node?_cases hv with ⟨rfl, hstation⟩ | ⟨rfl, hstation⟩ | ⟨ha, -, -⟩
    · simp [hstation, entryStation, Kind.isLoop] at hkind
    · simp [hstation, exitStation, Kind.isLoop] at hkind
    · exact (joinedRow_of_node? h hv ha).loop hkind
  case successors_exit => exact f.successors_exit_joined id
  case reaches_exit => exact fun _ ha => reaches_exit_joined h ha
  case reaches => exact reachesInRows h (Tree.passesAs_joined _) (reaches_iff_joined h)

end Function

/-- **The joined graph of every function that is declared has neither dead ends nor traps,** and it says
    what control comes to. -/
theorem Program.joined_shape {limit : Nat} {tokens : List Token} {p : Program} {name : String}
    (h : Program.read limit tokens = .ok p) (hname : ∃ d ∈ p.tree.functions, d.label.text = name) :
    ∃ d g, p.tree.declaration? name = some d ∧ p.tree.graph? .joined name = .ok (some g) ∧
      d ∈ p.tree.functions ∧ d.label.text = name ∧ g.JoinedShape p.tree d.id := by
  obtain ⟨id, f, more, hholds, hd, hmem, hlabel, hg⟩ := exists_graph_of_declared h .joined hname
  exact ⟨_, _, hd, hg, hmem, hlabel, Function.joinedShape hholds⟩

theorem Program.joined_shape_returnInLoop :
    ∃ p d g, Program.read 3 returnInLoop = .ok p ∧ p.tree.declaration? "f" = some d ∧
      p.tree.graph? .joined "f" = .ok (some g) ∧ d ∈ p.tree.functions ∧ d.label.text = "f" ∧
        g.JoinedShape p.tree d.id := by
  obtain ⟨p, hread, hname⟩ := Program.declared_returnInLoop
  obtain ⟨d, g, hshape⟩ := Program.joined_shape hread hname
  exact ⟨p, d, g, hread, hshape⟩

end BraceLang
