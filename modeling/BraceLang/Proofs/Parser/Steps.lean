import BraceLang.Program.Parser
import BraceLang.Proofs.Forest
import BraceLang.Proofs.Reading.Nesting
import BraceLang.Proofs.Reading.Recognition
import BraceLang.Proofs.Tree.Building

/-!
# `Proofs.Parser.Steps` — what a run of the parser does

A run of the parser from a state either gets to another state or stops. What it does depends only on the
tokens that are ahead, on the index of the cursor and on the number of blocks around it, so a run can be
described by the tokens that it passes and by what it builds. `Parses` is this description, and here is one
lemma for each step of the parser and for each way to put runs together.

## Contents
- `State.Passes`, from state to state over some of the tokens.
- `State.after`, the state behind a run of tokens.
- `Parses`, with `Parses.bind`, `Parses.look`, `Parses.growing` and `Parses.moving`.
- `Parses.node`, `Parses.inBlock` and `Parses.addChild`.
-/

namespace BraceLang

namespace Parser

open BraceLang.Tree

variable {α β : Type} {s : State} {run run' rest : List Token} {t last : Token} {limit i fuel : Nat}

/-! ## Outcomes -/

section Outcomes

variable {m : Run α} {f : α → Run β} {s' : State} {a : α} {stop : Stop}

theorem outcome_bind (m : Run α) (f : α → Run β) (s : State) :
    outcome (m >>= f) s = match outcome m s with
      | (.ok a, s') => outcome (f a) s'
      | (.error stop, s') => (.error stop, s') := by
  simp only [outcome, ExceptT.run_bind, StateT.run_bind]
  show (match m.run.run s with
    | (x, s') => _ : Except Stop β × State) = _
  rcases m.run.run s with ⟨stop | a, s'⟩ <;> rfl

theorem outcome_bind_of_ok (h : outcome m s = (.ok a, s')) (f : α → Run β) :
    outcome (m >>= f) s = outcome (f a) s' := by
  rw [outcome_bind, h]

theorem outcome_bind_of_error (h : outcome m s = (.error stop, s')) (f : α → Run β) :
    outcome (m >>= f) s = (.error stop, s') := by
  rw [outcome_bind, h]

theorem outcome_get_bind (k : State → Run α) (s : State) : outcome (get >>= k) s = outcome (k s) s :=
  rfl

theorem outcome_enter (limit : Nat) (first : Token) (s : State) : outcome (enter limit first) s =
    (if limit < s.depth + 1 then .error (.tooDeep ⟨s.depth + 1, limit, first.position⟩) else .ok (),
      { s with depth := s.depth + 1 }) := by
  show outcome (if limit < s.depth + 1 then throw _ else pure ()) { s with depth := s.depth + 1 } = _
  split <;> rfl

end Outcomes

/-! ## The state behind some tokens -/

/-- The tokens that are ahead of the cursor. -/
def State.ahead (s : State) : List Token := s.cursor.ahead s.cursor.position

/-- The state behind a run of tokens, with what a step has built. -/
def State.after (s : State) (run : List Token) (step : Grow α) : State :=
  { cursor := s.cursor.moveTo (s.cursor.position + run.length)
    nodes := (step.run s.nodes).2
    depth := s.depth
    passed := s.passed ++ List.range' s.cursor.position run.length }

/-- From the state `s` to the state `s'` the cursor has moved on, over each token between its two places
    once. -/
structure State.Passes (s s' : State) : Prop where
  tokens : s'.cursor.tokens = s.cursor.tokens
  position_le : s.cursor.position ≤ s'.cursor.position
  passed : s'.passed = s.passed ++ List.range' s.cursor.position (s'.cursor.position - s.cursor.position)

namespace State

variable {step : Grow α} {next : α → Grow β}

theorem position_add_le (hs : s.ahead = run ++ rest) :
    s.cursor.position + run.length ≤ s.cursor.tokens.size := by
  have hlength := congrArg List.length hs
  have hle := s.cursor.position_le
  rw [ahead, Cursor.ahead, List.length_drop, Array.length_toList, List.length_append] at hlength
  omega

theorem position_after (hs : s.ahead = run ++ rest) (step : Grow α) :
    (s.after run step).cursor.position = s.cursor.position + run.length :=
  Nat.min_eq_left (position_add_le hs)

theorem ahead_after (hs : s.ahead = run ++ rest) (step : Grow α) : (s.after run step).ahead = rest := by
  rw [ahead, position_after hs]
  exact Cursor.ahead_add hs

theorem after_nil (s : State) (step : Grow α) :
    s.after [] step = { s with nodes := (step.run s.nodes).2 } := by
  have hcursor : s.cursor.moveTo s.cursor.position = s.cursor := by
    simp only [Cursor.moveTo, Nat.min_eq_left s.cursor.position_le]
  rw [after, List.length_nil, Nat.add_zero, hcursor, List.range'_zero, List.append_nil]

/-- Behind two runs of tokens. -/
theorem after_after (hs : s.ahead = run ++ (run' ++ rest)) :
    (s.after run step).after run' (next (step.run s.nodes).1) = s.after (run ++ run') (step >>= next) := by
  have hposition := position_after hs step
  simp only [after] at hposition ⊢
  rw [hposition, StateT.run_bind, List.length_append, List.append_assoc, List.range'_append_1,
    Nat.add_assoc]
  rfl

/-- The token in front of the cursor is the last of those that it has passed. -/
theorem previousEnd_after (hs : s.ahead = run ++ rest) (hlast : run.getLast? = some last) (step : Grow α) :
    (s.after run step).cursor.previousEnd = (last.endPosition, last.span.stop) := by
  obtain ⟨front, rfl⟩ := List.getLast?_eq_some_iff.mp hlast
  have hposition := position_after hs step
  rw [List.length_append, List.length_singleton, ← Nat.add_assoc] at hposition
  rw [List.append_assoc] at hs
  have htoken : s.cursor.token? (s.cursor.position + front.length) = some last :=
    Cursor.token?_of_ahead (Cursor.ahead_add hs)
  have hprevious : (s.after (front ++ [last]) step).cursor.previous? = some last := by
    rw [Cursor.previous?, hposition]
    exact htoken
  rw [Cursor.previousEnd, hprevious]

theorem Passes.refl (s : State) : s.Passes s := by
  refine ⟨rfl, Nat.le_refl _, ?_⟩
  rw [Nat.sub_self, List.range'_zero, List.append_nil]

theorem Passes.trans {s s' s'' : State} (h : s.Passes s') (h' : s'.Passes s'') : s.Passes s'' := by
  have hle := h.position_le
  have hle' := h'.position_le
  have hdifference : s''.cursor.position - s.cursor.position =
      s'.cursor.position - s.cursor.position + (s''.cursor.position - s'.cursor.position) := by
    omega
  have hmiddle : s'.cursor.position = s.cursor.position + (s'.cursor.position - s.cursor.position) := by
    omega
  refine ⟨h'.tokens.trans h.tokens, Nat.le_trans hle hle', ?_⟩
  rw [h'.passed, h.passed, List.append_assoc, hdifference, ← List.range'_append_1, ← hmiddle]

theorem passes_after (hs : s.ahead = run ++ rest) (step : Grow α) : s.Passes (s.after run step) := by
  have hposition := position_after hs step
  refine ⟨rfl, by omega, ?_⟩
  rw [hposition, Nat.add_sub_cancel_left]
  rfl

/-- The cursor is at the first of the tokens ahead. -/
theorem current?_of_ahead (hs : s.ahead = t :: rest) : s.cursor.current? = some t :=
  Cursor.token?_of_ahead hs

theorem current?_of_ahead_nil (hs : s.ahead = []) : s.cursor.current? = none :=
  Cursor.token?_of_ahead_nil hs

theorem peek?_eq (s : State) (distance : Nat) : s.cursor.peek? distance = s.ahead[distance]? := by
  rw [ahead, Cursor.ahead, List.getElem?_drop, Array.getElem?_toList]
  rfl

end State

/-! ## Runs that build -/

/-- At a place with the index `i` where the tokens `run` are ahead, and behind them `rest`, the run `m`
    passes the tokens of `run` and builds what `step` does. If some block of the outline is beyond the limit,
    then the run stops at the first such block. -/
def Parses (limit i : Nat) (m : Run α) (run rest : List Token) (step : Grow α) (o : Outline) : Prop :=
  ∀ s : State, s.cursor.position = i → s.ahead = run ++ rest →
    (o.firstBeyond? limit (min s.depth limit) = none →
      outcome m s = (.ok (step.run s.nodes).1, s.after run step)) ∧
    ∀ block ∈ o.firstBeyond? limit (min s.depth limit),
      ∃ s', outcome m s = (.error (.tooDeep ⟨max s.depth limit + 1, limit, block.start⟩), s') ∧ s.Passes s'

variable {m m' : Run α} {f : α → Run β} {step : Grow α} {o more : Outline}

theorem Parses.congr (h : Parses limit i m' run rest step o)
    (hm : ∀ s : State, s.cursor.position = i → s.ahead = run ++ rest → outcome m s = outcome m' s) :
    Parses limit i m run rest step o := by
  intro s hi hs
  rw [hm s hi hs]
  exact h s hi hs

/-- Only the blocks of an outline matter. -/
theorem Parses.of_firstBeyond? (h : Parses limit i m run rest step o)
    (ho : ∀ around, around ≤ limit → o.firstBeyond? limit around = more.firstBeyond? limit around) :
    Parses limit i m run rest step more := by
  intro s hi hs
  rw [← ho _ (Nat.min_le_right _ _)]
  exact h s hi hs

/-- A run that builds nothing with a block in it cannot stop. -/
theorem parses_of_outcome
    (h : ∀ s : State, s.cursor.position = i → s.ahead = run ++ rest →
      outcome m s = (.ok (step.run s.nodes).1, s.after run step)) :
    Parses limit i m run rest step .nil :=
  fun s hi hs => ⟨fun _ => h s hi hs, fun _ hblock => absurd hblock (Option.not_mem_none _)⟩

theorem Parses.bind (next : α → Grow β) (hm : Parses limit i m run (run' ++ rest) step o)
    (hf : ∀ nodes, Parses limit (i + run.length) (f (step.run nodes).1) run' rest
      (next (step.run nodes).1) more) :
    Parses limit i (m >>= f) (run ++ run') rest (step >>= next) (o ++ more) := by
  intro s hi hs
  rw [List.append_assoc] at hs
  obtain ⟨hok, herror⟩ := hm s hi hs
  obtain ⟨hnextOk, hnextError⟩ := hf s.nodes (s.after run step) (by rw [State.position_after hs, hi])
    (State.ahead_after hs step)
  rw [Outline.firstBeyond?_append]
  cases hbeyond : o.firstBeyond? limit (min s.depth limit) with
  | some block =>
    refine ⟨fun hnone => absurd hnone (Option.some_ne_none block), fun first hfirst => ?_⟩
    obtain rfl := Option.some.inj hfirst
    obtain ⟨s', hstopped, hpasses⟩ := herror block hbeyond
    exact ⟨s', outcome_bind_of_error hstopped f, hpasses⟩
  | none =>
    rw [Option.none_or, outcome_bind_of_ok (hok hbeyond) f]
    refine ⟨fun hnone => ?_, fun block hblock => ?_⟩
    · rw [hnextOk hnone, State.after_after hs]
      rfl
    · obtain ⟨s', hstopped, hpasses⟩ := hnextError block hblock
      exact ⟨s', hstopped, (State.passes_after hs step).trans hpasses⟩

/-- A run that first looks at the state goes on as another one. -/
theorem Parses.look {k : State → Run α} (h : Parses limit i m run rest step o)
    (hk : ∀ s : State, s.cursor.position = i → s.ahead = run ++ rest → k s = m) :
    Parses limit i (get >>= k) run rest step o :=
  h.congr fun s hi hs => by rw [outcome_get_bind, hk s hi hs]

theorem parses_pure (a : α) : Parses limit i (pure a) [] rest (pure a) .nil := by
  refine parses_of_outcome fun s _ _ => ?_
  rw [State.after_nil]
  rfl

theorem parses_grow (step : Grow α) : Parses limit i (grow step) [] rest step .nil := by
  refine parses_of_outcome fun s _ _ => ?_
  rw [State.after_nil]
  rfl

theorem Parses.map (g : α → β) (h : Parses limit i m run rest step o) :
    Parses limit i (g <$> m) run rest (g <$> step) o := by
  have hm : Parses limit i m run ([] ++ rest) step o := h
  have hmap := hm.bind (f := fun a => pure (g a)) (fun a => pure (g a)) fun _ => parses_pure _
  rw [List.append_nil, Forest.append_nil, bind_pure_comp, bind_pure_comp] at hmap
  exact hmap

/-- A step in building the tree, and then more. -/
theorem Parses.growing {step : Grow α} {next : α → Grow β} {f : α → Run β}
    (h : ∀ a, Parses limit i (f a) run rest (next a) o) :
    Parses limit i (grow step >>= f) run rest (step >>= next) o :=
  (parses_grow step).bind next fun _ => h _

/-! ## Moving the cursor -/

/-- A step that moves the cursor, and then more. -/
theorem Parses.moving (run : List Token) {m : Run Unit} {behind : Run β} {next : Grow β}
    (hm : Parses limit i m run (run' ++ rest) (pure ()) .nil)
    (h : Parses limit (i + run.length) behind run' rest next o) :
    Parses limit i (m >>= fun _ => behind) (run ++ run') rest next o :=
  hm.bind (fun _ => next) fun _ => h

theorem parses_setCursor {change : Cursor → Cursor} (h : ∀ c : Cursor, c.position = i →
      c.ahead c.position = run ++ rest → change c = c.moveTo (i + run.length)) :
    Parses limit i (setCursor change) run rest (pure ()) .nil := by
  refine parses_of_outcome fun s hi hs => ?_
  have hchange : change s.cursor = s.cursor.moveTo (s.cursor.position + run.length) := by
    rw [h s.cursor hi hs, hi]
  have hposition : (s.cursor.moveTo (s.cursor.position + run.length)).position =
      s.cursor.position + run.length := State.position_after hs (pure () : Grow Unit)
  show (Except.ok (), _) = (Except.ok (), _)
  simp only [hchange, hposition, Nat.add_sub_cancel_left]
  rfl

theorem parses_moveTo {index : Nat} (h : index = i + run.length) :
    Parses limit i (moveTo index) run rest (pure ()) .nil :=
  parses_setCursor fun _ _ _ => by rw [h]

/-- The cursor moves on over a token. -/
theorem advance_of_ahead {c : Cursor} (hi : c.position = i) (hc : c.ahead c.position = t :: rest) :
    c.advance = c.moveTo (i + 1) := by
  have hlt : c.position < c.tokens.size :=
    (Array.getElem?_eq_some_iff.mp (Cursor.token?_of_ahead hc)).1
  subst hi
  simp only [Cursor.advance, dif_pos hlt, Cursor.moveTo, Nat.min_eq_left hlt]

theorem parses_advance : Parses limit i advance [t] rest (pure ()) .nil :=
  parses_setCursor fun _ hi hc => advance_of_ahead hi hc

theorem parses_skipPunct {text : String} (ht : t.isPunct text = true) :
    Parses limit i (skipPunct text) [t] rest (pure ()) .nil := by
  refine parses_setCursor fun c hi hc => ?_
  have hat : c.isAtPunct text = true := (Cursor.isPunctAt_of_ahead hc text).trans ht
  rw [Cursor.consumePunct, if_pos hat]
  exact advance_of_ahead hi hc

theorem parses_skipPunct_of_not {text : String} (h : ∀ t ∈ rest.head?, ¬ t.isPunct text = true) :
    Parses limit i (skipPunct text) [] rest (pure ()) .nil := by
  refine parses_setCursor fun c hi hc => ?_
  have hnot : ¬ c.isAtPunct text = true := by
    cases rest with
    | nil => exact Bool.eq_false_iff.mp (Cursor.isPunctAt_of_ahead_nil hc text)
    | cons t rest =>
      rw [show c.isAtPunct text = t.isPunct text from Cursor.isPunctAt_of_ahead hc text]
      exact h t rfl
  have hposition := c.position_le
  subst hi
  simp only [Cursor.consumePunct, if_neg hnot, Cursor.moveTo, List.length_nil, Nat.add_zero,
    Nat.min_eq_left hposition]

/-! ## Nodes and blocks -/

/-- A node that ends where the token in front of the cursor does, and what is below it. -/
theorem Parses.node {kind : NodeKind} {value : Option String} {start stop : Position} {span : Span}
    {byte : Nat} {below : Nat → Run Unit} {step : Nat → Grow Unit}
    (hbelow : ∀ id, Parses limit i (below id) run rest (step id) o)
    (hend : ∀ (s : State) (step : Grow Unit), s.cursor.position = i → s.ahead = run ++ rest →
      (s.after run step).cursor.previousEnd = (stop, byte)) :
    Parses limit i (Parser.node kind value start span below) run rest
      (buildNode kind value start span stop byte step) o := by
  refine Parses.growing fun id s hi hs => ?_
  obtain ⟨hok, herror⟩ := hbelow id s hi hs
  refine ⟨fun hnone => ?_, fun block hblock => ?_⟩
  · rw [outcome_bind_of_ok (hok hnone), outcome_get_bind, hend s (step id) hi hs]
    rfl
  · obtain ⟨s', hstopped, hpasses⟩ := herror block hblock
    exact ⟨s', outcome_bind_of_error hstopped _, hpasses⟩

/-- A node from a token to the last one of a run. -/
theorem Parses.nodeFrom {kind : NodeKind} {value : Option String} {first : Token} {below : Nat → Run Unit}
    {step : Nat → Grow Unit} (hbelow : ∀ id, Parses limit i (below id) run rest (step id) o)
    (hlast : run.getLast? = some last) :
    Parses limit i (nodeFrom kind value first below) run rest (buildOver kind value first last step) o :=
  Parses.node hbelow fun _ step _ hs => State.previousEnd_after hs hlast step

/-- A block that begins with a token, and what is parsed in it. -/
theorem Parses.inBlock {l : Label} {first : Token} (hm : Parses limit i m run rest step o)
    (hl : l.kind.isBlock = true) (hstart : l.start = first.position) :
    Parses limit i (inBlock limit first m) run rest step (.single l o) := by
  intro s hi hs
  have henter := outcome_enter limit first s
  rw [Forest.single, Outline.firstBeyond?_block hl]
  by_cases hlt : s.depth < limit
  · have hinner : min (s.depth + 1) limit = s.depth + 1 := Nat.min_eq_left hlt
    have houter : min s.depth limit = s.depth := Nat.min_eq_left (Nat.le_of_lt hlt)
    have hmax : max (s.depth + 1) limit = max s.depth limit := by
      rw [Nat.max_eq_right hlt, Nat.max_eq_right (Nat.le_of_lt hlt)]
    obtain ⟨hok, herror⟩ := hm { s with depth := s.depth + 1 } hi hs
    rw [if_neg (Nat.not_lt_of_le hlt)] at henter
    simp only [hinner, hmax] at hok herror
    rw [houter, if_neg (Nat.ne_of_lt hlt), Outline.firstBeyond?, Option.or_none, Parser.inBlock,
      outcome_bind_of_ok henter]
    refine ⟨fun hnone => ?_, fun block hblock => ?_⟩
    · rw [outcome_bind_of_ok (hok hnone)]
      rfl
    · obtain ⟨s', hstopped, hpasses⟩ := herror block hblock
      exact ⟨s', outcome_bind_of_error hstopped _, hpasses.tokens, hpasses.position_le, hpasses.passed⟩
  · have hle := Nat.le_of_not_lt hlt
    rw [if_pos (Nat.lt_succ_of_le hle)] at henter
    rw [Nat.min_eq_right hle, Nat.max_eq_left hle, if_pos rfl]
    refine ⟨fun hnone => absurd hnone (Option.some_ne_none l), fun block hblock => ?_⟩
    obtain rfl := Option.some.inj hblock
    rw [hstart]
    exact ⟨_, outcome_bind_of_error henter _, rfl, Nat.le_refl _, (State.Passes.refl s).passed⟩

/-- A child is listed when it has been parsed. -/
theorem Parses.addChild {m : Run Nat} {step : Grow Nat} (h : Parses limit i m run rest step o)
    (parent : Nat) :
    Parses limit i (Parser.addChild m parent) run rest (Tree.addChild step parent) o := by
  have hchild : Parses limit i m run ([] ++ rest) step o := h
  have hpush := hchild.bind (f := fun child => grow (pushChild parent child)) (pushChild parent)
    fun _ => parses_grow _
  rw [List.append_nil, Forest.append_nil] at hpush
  exact hpush

end Parser

end BraceLang
