import BraceLang.Proofs.Parser.Programs
import BraceLang.Proofs.Tree.PreOrder

/-!
# `Proofs.Parser.Progress` — every run of the parser gets somewhere

A parser that is left where it was can run for ever, and one that is set back can pass a token twice. Neither
happens: with more fuel than tokens are ahead no call is left without fuel, whatever the tokens are, and the
cursor only moves on. What is passed has either been recognised as a whole, and then there is one new node
with all that is below it, or it is one token that nothing begins with.

## Contents
- `State.Ends`, of a run that comes to an end, and `State.Grown`, of a run that has built a node.
- `exists_ends_of_parses`, from what is parsed to how the run ends.
- `holds_of_builds` and `State.grown_after`, from what is built to the node that there is.
- `exists_ends_of_shape`, where a statement begins.
- `exists_ends_parseStatement`, `exists_ends_parseBlock` and `exists_ends_parseProgram`.
- **`ends_and_progresses`**.
-/

namespace BraceLang

open BraceLang.Tree

namespace Parser

variable {α : Type} {s s' : State} {m : Run α} {result : Except NestingTooDeep α} {run rest : List Token}
  {limit i fuel id : Nat} {l : Label} {children o : Outline}

/-- The run `m` from the state `s` comes to an end in the state `s'`, with a result or at a block beyond the
    limit, and has passed no token twice. -/
structure State.Ends (s : State) (m : Run α) (result : Except NestingTooDeep α) (s' : State) : Prop where
  outcome_eq : outcome m s = (result.mapError .tooDeep, s')
  passes : s.Passes s'

/-- From the state `s` to the state `s'` the parser has built the node `id` with all that is below it. -/
structure State.Grown (s : State) (id : Nat) (s' : State) : Prop extends s.Passes s' where
  progress : s.cursor.position < s'.cursor.position
  inside : s'.cursor.position ≤ s.cursor.tokens.size
  depth : s'.depth = s.depth
  /-- The new nodes stand behind those that were there before. -/
  earlier : ∀ i, i < s.nodes.size → s'.nodes[i]? = s.nodes[i]?
  id_eq : id = s.nodes.size
  id_lt : id < s'.nodes.size
  /-- The new nodes are the node and those below it. -/
  below : ∀ m, (Tree.mk s'.nodes).Below id m ↔ id ≤ m ∧ m < s'.nodes.size
  descendants : ((Tree.mk s'.nodes).descendants id).map Node.id = List.range' id (s'.nodes.size - id)

/-! ## Runs that come to an end -/

/-- There is no other result than what comes of the run. -/
theorem State.Ends.eq_ok {a : α} (h : s.Ends m result s') (ha : (outcome m s).1 = .ok a) :
    result = .ok a := by
  rw [h.outcome_eq] at ha
  cases result with
  | ok b => exact congrArg Except.ok (Except.ok.inj ha)
  | error failure => exact absurd ha nofun

/-- All that parses the same tokens to the same nodes comes to an end with the same result. -/
theorem exists_ends_of_parses (limit : Nat) (step : Grow α) (o : Outline) (hs : s.ahead = run ++ rest) :
    ∃ result, ∀ m, Parses limit s.cursor.position m run rest step o → ∃ s', s.Ends m result s' ∧
      ∀ a, result = .ok a → a = (step.run s.nodes).1 ∧ s' = s.after run step := by
  cases hbeyond : o.firstBeyond? limit (min s.depth limit) with
  | none =>
    refine ⟨.ok (step.run s.nodes).1, fun m hm => ?_⟩
    have hok := (hm s rfl hs).1 hbeyond
    exact ⟨_, ⟨hok, State.passes_after hs step⟩, fun a ha => ⟨(Except.ok.inj ha).symm, rfl⟩⟩
  | some block =>
    refine ⟨.error ⟨max s.depth limit + 1, limit, block.start⟩, fun m hm => ?_⟩
    obtain ⟨s', hstopped, hpasses⟩ := (hm s rfl hs).2 block hbeyond
    exact ⟨s', ⟨hstopped, hpasses⟩, fun a ha => absurd ha nofun⟩

/-! ## What has been built -/

section Building

variable {step : Grow Nat}

theorem run_of_builds (h : Builds step o) (nodes : Array Node) :
    step.run nodes = (nodes.size, (nodes.toList ++ Outline.number nodes.size o).toArray) :=
  h nodes.toList

theorem size_of_builds (h : Builds step o) (nodes : Array Node) :
    (step.run nodes).2.size = nodes.size + o.size := by
  rw [run_of_builds h, List.size_toArray, List.length_append, Outline.length_number, Array.length_toList]

/-- A step that builds leaves the nodes that are there as they are. -/
theorem getElem?_of_builds (h : Builds step o) {nodes : Array Node} {i : Nat} (hi : i < nodes.size) :
    (step.run nodes).2[i]? = nodes[i]? := by
  rw [run_of_builds h, List.getElem?_toArray, List.getElem?_append_left hi, Array.getElem?_toList]

/-- The table holds the tree that has been built, behind all that was there. -/
theorem holds_of_builds (h : Builds step o) (nodes : Array Node) :
    (Tree.mk (step.run nodes).2).Holds nodes.size o := by
  have hrows := (RowsAt.toArray (nodes.toList ++ Outline.number nodes.size o)).right
  rw [Nat.zero_add, Array.length_toList] at hrows
  rw [run_of_builds h]
  exact hrows

/-- What has been built as one tree is a new node with all that is below it. -/
theorem State.grown_after (hs : s.ahead = run ++ rest) (hne : run ≠ [])
    (hstep : Builds step (.single l children)) :
    s.Grown (step.run s.nodes).1 (s.after run step) := by
  have hposition := position_after hs step
  have hlength := List.length_pos_iff.mpr hne
  have hsize := size_of_builds hstep s.nodes
  have hholds := holds_of_builds hstep s.nodes
  have hpos : 0 < (Forest.single l children).size := by
    rw [Forest.single, Forest.size]
    omega
  have hid : (step.run s.nodes).1 = s.nodes.size := by rw [run_of_builds hstep]
  rw [hid]
  refine ⟨passes_after hs step, by omega, Cursor.position_le _, rfl, fun i => getElem?_of_builds hstep, rfl,
    ?_, fun m => ?_, ?_⟩
  · show s.nodes.size < (step.run s.nodes).2.size
    omega
  · show _ ↔ s.nodes.size ≤ m ∧ m < (step.run s.nodes).2.size
    rw [hsize]
    exact hholds.below_iff
  · show ((Tree.mk (step.run s.nodes).2).descendants _).map Node.id = _
    rw [Tree.descendants, hholds.walk_single (Nat.le_refl _), Outline.map_id_number, State.after, hsize,
      Nat.add_sub_cancel_left]

end Building

/-! ## Statements, blocks and programs -/

/-- Where a statement begins, some node is built for it, and the tokens by which it is recognised are passed
    along with what is behind them in the statement. -/
theorem exists_ends_of_shape {shape : Shape} (limit : Nat) (hshape : shape.Proper)
    (hs : s.ahead = shape.tokens ++ rest) :
    ∃ result, ∀ fuel, s.ahead.length < fuel → ∃ s', s.Ends (parseStatement limit fuel) result s' ∧
      result ≠ .ok none ∧ ∀ id, result = .ok (some id) →
        s.Grown id s' ∧ s.cursor.position + shape.tokens.length ≤ s'.cursor.position := by
  obtain ⟨run, rest, step, o, l, children, rfl, hm, hbuilds⟩ := hshape.exists_parsesShape limit rest
  have hlength : shape.tokens.length ≤ (shape.tokens ++ run).length := (List.prefix_append _ _).length_le
  have hne : shape.tokens ++ run ≠ [] := List.length_pos_iff.mp (shape.length_pos.trans_le hlength)
  have hrun : s.ahead = shape.tokens ++ run ++ rest := by rw [hs, List.append_assoc]
  obtain ⟨result, hends⟩ := exists_ends_of_parses limit (some <$> step) o hrun
  refine ⟨result, fun fuel hfuel => ?_⟩
  rw [hs] at hfuel
  obtain ⟨s', hends, hresult⟩ := hends _ (parses_statement hshape hm (Nat.le_of_lt hfuel))
  refine ⟨s', hends, fun hnone => ?_, fun id hsome => ?_⟩
  · exact absurd (hresult none hnone).1 (Option.some_ne_none _).symm
  · obtain ⟨hid, rfl⟩ := hresult (some id) hsome
    rw [Option.some.inj hid]
    refine ⟨State.grown_after hrun hne hbuilds, ?_⟩
    rw [State.position_after hrun]
    exact Nat.add_le_add_left hlength _

/-- A statement is passed as a whole, or nothing is changed. -/
theorem exists_ends_parseStatement (limit : Nat) (s : State) :
    ∃ result, ∀ fuel, s.ahead.length < fuel → ∃ s', s.Ends (parseStatement limit fuel) result s' ∧
      (result = .ok none → s' = s) ∧ ∀ id, result = .ok (some id) → s.Grown id s' := by
  by_cases hahead : Shape.Ahead s.ahead
  · obtain ⟨shape, rest, hshape, hs⟩ := hahead
    obtain ⟨result, hends⟩ := exists_ends_of_shape limit hshape hs.symm
    refine ⟨result, fun fuel hfuel => ?_⟩
    obtain ⟨s', hends, hne, hgrown⟩ := hends fuel hfuel
    exact ⟨s', hends, fun hnone => absurd hnone hne, fun id hsome => (hgrown id hsome).1⟩
  · refine ⟨.ok none, fun fuel hfuel => ?_⟩
    obtain ⟨n, rfl⟩ := Nat.exists_eq_add_one.mpr (Nat.zero_lt_of_lt hfuel)
    refine ⟨s, ⟨outcome_parseStatement_of_not hahead, .refl s⟩, fun _ => rfl, fun id hsome => ?_⟩
    exact absurd (Except.ok.inj hsome) (Option.some_ne_none id).symm

/-- A block is passed as a whole. -/
theorem exists_ends_parseBlock (limit : Nat) (kind : NodeKind) (first : Token)
    (hbrace : s.cursor.isAtPunct "\x7b" = true) :
    ∃ result, ∀ fuel, s.ahead.length < fuel → ∃ s', s.Ends (parseBlock limit fuel kind first) result s' ∧
      ∀ id, result = .ok id → s.Grown id s' := by
  cases hs : s.ahead with
  | nil =>
    rw [Cursor.isAtPunct, State.current?_of_ahead_nil hs] at hbrace
    exact absurd hbrace Bool.false_ne_true
  | cons t behind =>
    rw [Cursor.isAtPunct, State.current?_of_ahead hs, Option.any_some] at hbrace
    obtain ⟨c, closing, rest, hc⟩ := Code.exists_reads (.block 0) behind
    obtain rfl := hc.tokens_eq
    have hrun : s.ahead = t :: (c.tokens ++ closing.toList) ++ rest := by
      rw [hs, List.cons_append, List.append_assoc]
    -- what counts for the limit is only that this is a block
    have hparses {fuel : Nat} (hfuel : (t :: (c.tokens ++ (closing.toList ++ rest))).length < fuel) :
        Parses limit s.cursor.position (parseBlock limit fuel kind first)
          (t :: (c.tokens ++ closing.toList)) rest
          (buildOver kind none first (blockLast t c closing) c.build)
          (.single (.covering .functionBody none first first) c.outline) :=
      parses_block hc.parses_block hfuel hbrace rfl rfl
    obtain ⟨result, hends⟩ := exists_ends_of_parses limit _ _ hrun
    refine ⟨result, fun fuel hfuel => ?_⟩
    obtain ⟨s', hends, hresult⟩ := hends _ (hparses hfuel)
    refine ⟨s', hends, fun id hid => ?_⟩
    obtain ⟨rfl, rfl⟩ := hresult id hid
    exact State.grown_after hrun (List.cons_ne_nil _ _) (builds_over c.adds_build)

/-- A row is passed from its first token on, and as a whole if nothing stops the parser. -/
theorem exists_ends_parseProgram (limit : Nat) (tokens : List Token) :
    ∃ result, ∀ fuel, tokens.length < fuel →
      ∃ s', (State.start tokens).Ends (parseProgram limit fuel) result s' ∧
        s'.passed = List.range s'.cursor.position ∧
          ∀ root, result = .ok root → s'.cursor.position = tokens.length ∧ s'.depth = 0 := by
  obtain ⟨items, h⟩ := Program.exists_reads tokens
  have hahead : (State.start tokens).ahead = tokens ++ [] := (List.append_nil tokens).symm
  obtain ⟨result, hends⟩ :=
    exists_ends_of_parses limit (Program.mk items).buildRoot (Program.mk items).outline hahead
  refine ⟨result, fun fuel hfuel => ?_⟩
  obtain ⟨s', hends, hresult⟩ := hends _ (parses_program h hfuel)
  refine ⟨s', hends, ?_, fun root hroot => ?_⟩
  · rw [hends.passes.passed, List.range_eq_range']
    exact List.nil_append _
  · obtain ⟨-, rfl⟩ := hresult root hroot
    refine ⟨?_, rfl⟩
    rw [State.position_after hahead]
    exact Nat.zero_add _

/-- **Every run of the parser comes to an end and gets somewhere.** With more fuel than tokens are ahead, no
    call is left without fuel, the result does not depend on the fuel, and no token is passed twice, whatever
    the tokens, the state and the limit are.
    * Where no statement is recognised, nothing is changed. Where one is, the cursor moves on within the row,
      the nodes that were there stay as they are, the new ones are the node of the statement and those below
      it, and the count of the blocks around the cursor is what it was.
    * So it is with a block at a brace.
    * A row that is parsed has been passed to its end, and no block is around the cursor there. -/
theorem ends_and_progresses (limit : Nat) :
    (∀ s : State, ∃ result, ∀ fuel, s.ahead.length < fuel →
      ∃ s', s.Ends (parseStatement limit fuel) result s' ∧ (result = .ok none → s' = s) ∧
        ∀ id, result = .ok (some id) → s.Grown id s') ∧
    (∀ (s : State) (kind : NodeKind) (first : Token), s.cursor.isAtPunct "\x7b" = true →
      ∃ result, ∀ fuel, s.ahead.length < fuel →
        ∃ s', s.Ends (parseBlock limit fuel kind first) result s' ∧
          ∀ id, result = .ok id → s.Grown id s') ∧
    ∀ tokens : List Token, ∃ result, ∀ fuel, tokens.length < fuel →
      ∃ s', (State.start tokens).Ends (parseProgram limit fuel) result s' ∧
        s'.passed = List.range s'.cursor.position ∧
          ∀ root, result = .ok root → s'.cursor.position = tokens.length ∧ s'.depth = 0 :=
  ⟨exists_ends_parseStatement limit,
    fun _ kind first hbrace => exists_ends_parseBlock limit kind first hbrace,
    exists_ends_parseProgram limit⟩

/-- A function with a loop, and with something that is no statement behind it. -/
def loopInFunction : List Token := (tokenize "int f() \x7b while (x) \x7b y(); \x7d z \x7d").tokens

/-- At the brace of the function. -/
def atBody : State := { State.start loopInFunction with cursor := (Cursor.ofTokens loopInFunction).moveTo 4 }

/-- In the body, at the loop. -/
def atLoop : State := { atBody with cursor := atBody.cursor.moveTo 5, depth := 1 }

/-- In the body, behind the loop. -/
def atStray : State := { atLoop with cursor := atLoop.cursor.moveTo 15 }

theorem loopInFunction_progresses :
    (∃ s', atLoop.Ends (parseStatement 2 13) (.ok (some 0)) s' ∧ atLoop.Grown 0 s') ∧
      atStray.Ends (parseStatement 2 3) (.ok none) atStray ∧
      (∃ s', atBody.Ends (parseBlock 2 14 .functionBody loopInFunction[4]!) (.ok 0) s' ∧ atBody.Grown 0 s') ∧
      ∃ s', (State.start loopInFunction).Ends (parseProgram 2 18) (.ok 0) s' ∧
        s'.cursor.position = 17 ∧ s'.depth = 0 := by
  obtain ⟨hstatement, hblock, hprogram⟩ := ends_and_progresses 2
  refine ⟨?_, ?_, ?_, ?_⟩
  · obtain ⟨result, h⟩ := hstatement atLoop
    obtain ⟨s', hends, -, hgrown⟩ := h 13 (by decide +kernel)
    obtain rfl := hends.eq_ok (a := some 0) (by decide +kernel)
    exact ⟨s', hends, hgrown 0 rfl⟩
  · obtain ⟨result, h⟩ := hstatement atStray
    obtain ⟨s', hends, hunchanged, -⟩ := h 3 (by decide +kernel)
    obtain rfl := hends.eq_ok (a := none) (by decide +kernel)
    obtain rfl := hunchanged rfl
    exact hends
  · obtain ⟨result, h⟩ := hblock atBody .functionBody loopInFunction[4]! (by decide +kernel)
    obtain ⟨s', hends, hgrown⟩ := h 14 (by decide +kernel)
    obtain rfl := hends.eq_ok (a := 0) (by decide +kernel)
    exact ⟨s', hends, hgrown 0 rfl⟩
  · obtain ⟨result, h⟩ := hprogram loopInFunction
    have hlength : loopInFunction.length = 17 := by decide +kernel
    obtain ⟨s', hends, -, hend⟩ := h 18 (hlength ▸ Nat.lt_succ_self 17)
    obtain rfl := hends.eq_ok (a := 0) (by decide +kernel)
    obtain ⟨hposition, hdepth⟩ := hend 0 rfl
    exact ⟨s', hends, hposition.trans hlength, hdepth⟩

end Parser

end BraceLang
