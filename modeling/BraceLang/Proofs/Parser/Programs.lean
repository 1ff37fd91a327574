import BraceLang.Proofs.Parser.Statements
import BraceLang.Proofs.Reading.Places

/-!
# `Proofs.Parser.Programs` — a whole row of tokens in one pass

What `Proofs.Parser.Statements` is for the bodies of functions, this module is for what is around them. The
parameters are not derived but read, so the proof about them follows the reader. The parser skips a comma
behind a parameter in one go with it and the reader does not; that makes no difference, because the parser
would have skipped the comma anyway.

## Contents
- `parses_readItems` and `parses_parameters`.
- `parses_function`, `parses_functions` and `parses_program`.
- **`Program.parse_eq`**: the parser and the reader make the same tree, or fail at the same block.
-/

namespace BraceLang

open BraceLang.Tree

namespace Parser

variable {run rest s : List Token} {t type name : Token} {limit i fuel depth id : Nat} {next : Grow Unit}
  {o : Outline}

/-! ## Parameters -/

theorem parses_parameters_nil :
    Parses limit i (parseParameterItems (fuel + 1) depth id) [] [] (pure ()) .nil := by
  unfold parseParameterItems
  refine Parses.look (parses_pure ()) fun s _ hs => ?_
  dsimp only
  rw [State.current?_of_ahead_nil hs]

theorem parses_parameters_opened (ht : t.isPunct "(" = true)
    (h : Parses limit (i + 1) (parseParameterItems fuel (depth + 1) id) run rest next o) :
    Parses limit i (parseParameterItems (fuel + 1) depth id) (t :: run) rest next o := by
  unfold parseParameterItems
  refine Parses.look (Parses.moving _ parses_advance h) fun s _ hs => ?_
  dsimp only
  rw [State.current?_of_ahead hs]
  dsimp only
  rw [if_pos ht]

theorem parses_parameters_close (ht : t.isPunct ")" = true) :
    Parses limit i (parseParameterItems (fuel + 1) 0 id) [t] rest (pure ()) .nil := by
  unfold parseParameterItems
  refine Parses.look (Parses.moving _ parses_advance (parses_pure ())) fun s _ hs => ?_
  dsimp only
  rw [State.current?_of_ahead hs]
  dsimp only
  rw [if_neg (Token.not_isPunct ht (by decide)), if_pos ht, if_pos rfl]

theorem parses_parameters_closed (ht : t.isPunct ")" = true)
    (h : Parses limit (i + 1) (parseParameterItems fuel depth id) run rest next o) :
    Parses limit i (parseParameterItems (fuel + 1) (depth + 1) id) (t :: run) rest next o := by
  unfold parseParameterItems
  refine Parses.look (Parses.moving _ parses_advance h) fun s _ hs => ?_
  dsimp only
  rw [State.current?_of_ahead hs]
  dsimp only
  rw [if_neg (Token.not_isPunct ht (by decide)), if_pos ht, if_neg (Nat.succ_ne_zero depth),
    Nat.add_sub_cancel]

/-- At a token that is no parenthesis and begins no parameter the cursor moves on. -/
theorem outcome_parseParameterItems_of_not {s : State} (hs : s.ahead = t :: rest)
    (ho : ¬ t.isPunct "(" = true) (hc : ¬ t.isPunct ")" = true)
    (hno : ∀ name ∈ rest.head?, ¬ (depth == 0 && t.isTypeName && name.kind == .identifier) = true) :
    outcome (parseParameterItems (fuel + 1) depth id) s =
      outcome (do advance; parseParameterItems fuel depth id) s := by
  have hpeek : s.cursor.peek? 1 = rest.head? := by
    rw [State.peek?_eq, hs, List.head?_eq_getElem?]
    rfl
  rw [parseParameterItems, outcome_get_bind]
  dsimp only
  rw [State.current?_of_ahead hs]
  dsimp only
  rw [if_neg ho, if_neg hc, hpeek, Option.filter_eq_none_iff.mpr hno]

theorem parses_parameters_skip (ho : ¬ t.isPunct "(" = true) (hc : ¬ t.isPunct ")" = true)
    (hno : ∀ name ∈ (run ++ rest).head?, ¬ (depth == 0 && t.isTypeName && name.kind == .identifier) = true)
    (h : Parses limit (i + 1) (parseParameterItems fuel depth id) run rest next o) :
    Parses limit i (parseParameterItems (fuel + 1) depth id) (t :: run) rest next o :=
  (Parses.moving _ parses_advance h).congr fun _ _ hs => outcome_parseParameterItems_of_not hs ho hc hno

/-- A comma behind a parameter is passed, which it would be anyway. -/
theorem parses_skipComma (h : ∀ fuel, (run ++ rest).length < fuel →
      Parses limit i (parseParameterItems fuel 0 id) run rest next o) (hfuel : (run ++ rest).length < fuel) :
    Parses limit i (do skipPunct ","; parseParameterItems fuel 0 id) run rest next o := by
  by_cases hcomma : ∃ t ∈ (run ++ rest).head?, t.isPunct "," = true
  · obtain ⟨t, hhead, ht⟩ := hcomma
    obtain ⟨behind, hrun⟩ : ∃ behind, run ++ rest = t :: behind := List.head?_eq_some_iff.mp hhead
    have htype : t.isTypeName = false := by
      rw [← Bool.not_eq_true, Token.isTypeName_iff, Token.isPunct_iff.mp ht]
      exact fun h => absurd h.1 (by decide)
    refine (h (fuel + 1) (Nat.lt_succ_of_lt hfuel)).congr fun s _ hs => ?_
    rw [hrun] at hs
    have hskip : (s.cursor.consumePunct ",").2 = s.cursor.advance := by
      rw [Cursor.consumePunct, Cursor.isAtPunct, State.current?_of_ahead hs, Option.any_some, if_pos ht]
    have hno : ∀ name ∈ behind.head?, ¬ (0 == 0 && t.isTypeName && name.kind == .identifier) = true := by
      intro name _
      rw [htype, Bool.and_false, Bool.false_and]
      exact Bool.false_ne_true
    rw [outcome_parseParameterItems_of_not hs (Token.not_isPunct ht (by decide))
      (Token.not_isPunct ht (by decide)) hno, outcome_bind, outcome_bind]
    have houtcome : outcome (skipPunct ",") s = outcome advance s := by
      show (Except.ok (), _) = (Except.ok (), _)
      simp only [hskip]
    rw [houtcome]
  · refine Parses.moving [] (parses_skipPunct_of_not fun t ht => ?_) (h fuel hfuel)
    exact fun htext => hcomma ⟨t, ht, htext⟩

/-- A parameter, and the comma behind it if there is one. -/
theorem parses_parameters_parameter (htest : (0 == 0 && type.isTypeName && name.kind == .identifier) = true)
    (ho : ¬ type.isPunct "(" = true) (hc : ¬ type.isPunct ")" = true)
    (h : ∀ fuel, (run ++ rest).length < fuel →
      Parses limit (i + 2) (parseParameterItems fuel 0 id) run rest next o)
    (hfuel : (run ++ rest).length < fuel) :
    Parses limit i (parseParameterItems (fuel + 1) 0 id) (type :: name :: run) rest
      (do (ParameterItem.parameter type name).build id; next) o := by
  unfold parseParameterItems
  refine Parses.look (Parses.growing fun _ => Parses.moving [type] parses_advance
    (Parses.moving [name] parses_advance (parses_skipComma h hfuel))) fun s _ hs => ?_
  have hpeek : s.cursor.peek? 1 = some name := by
    rw [State.peek?_eq, hs]
    rfl
  dsimp only
  rw [State.current?_of_ahead hs]
  dsimp only
  rw [if_neg ho, if_neg hc, hpeek, Option.filter_some, if_pos htest]

/-- **The parameters that are read are parsed.** -/
theorem parses_readItems (depth : Nat) (s : List Token) : ∀ i fuel, s.length < fuel →
    Parses limit i (parseParameterItems fuel depth id)
      ((ParameterList.readItems depth s).1.flatMap ParameterItem.tokens ++
        (ParameterList.readItems depth s).2.1.toList) (ParameterList.readItems depth s).2.2
      (ParameterList.buildItems (ParameterList.readItems depth s).1 id) .nil := by
  -- The cases are the end, `(`, the `)` that ends the list, another `)`, a parameter, another token, and
  -- the last token of all.
  fun_induction ParameterList.readItems depth s <;> intro i fuel hfuel <;>
    obtain ⟨n, rfl⟩ := Nat.exists_eq_add_one.mpr (Nat.zero_lt_of_lt hfuel)
  case case1 => exact parses_parameters_nil
  case case2 depth t s ho items closing rest hread ih =>
    rw [hread] at ih
    exact parses_parameters_opened ho (ih (i + 1) n (Nat.lt_of_succ_lt_succ hfuel))
  case case3 t s ho hc => exact parses_parameters_close hc
  case case4 t s ho hc depth items closing rest hread ih =>
    rw [hread] at ih
    exact parses_parameters_closed hc (ih (i + 1) n (Nat.lt_of_succ_lt_succ hfuel))
  case case5 depth t ho hc name s htest items closing rest hread ih =>
    have hdepth := htest
    rw [Bool.and_eq_true, Bool.and_eq_true, beq_iff_eq] at hdepth
    obtain ⟨⟨rfl, -⟩, -⟩ := hdepth
    rw [hread] at ih
    have htokens : items.flatMap ParameterItem.tokens ++ closing.toList ++ rest = s := by
      have htokens := ParameterList.readItems_tokens 0 s
      rwa [hread, ← List.append_assoc] at htokens
    have hlength : (items.flatMap ParameterItem.tokens ++ closing.toList ++ rest).length < n := by
      rw [htokens]
      exact Nat.lt_trans (Nat.lt_succ_self _) (Nat.lt_of_succ_lt_succ hfuel)
    exact parses_parameters_parameter htest ho hc
      (fun fuel hlt => ih (i + 2) fuel (lt_of_eq_of_lt (congrArg List.length htokens.symm) hlt)) hlength
  case case6 depth t ho hc name s htest items closing rest hread ih =>
    rw [hread] at ih
    have htokens : items.flatMap ParameterItem.tokens ++ closing.toList ++ rest = name :: s := by
      have htokens := ParameterList.readItems_tokens depth (name :: s)
      rwa [hread, ← List.append_assoc] at htokens
    refine parses_parameters_skip ho hc ?_ (ih (i + 1) n (Nat.lt_of_succ_lt_succ hfuel))
    intro first hfirst
    obtain rfl := Option.some.inj ((congrArg List.head? htokens).symm.trans hfirst)
    exact htest
  case case7 depth t ho hc =>
    obtain ⟨m, rfl⟩ : ∃ m, n = m + 1 := by
      rw [List.length_singleton] at hfuel
      exact ⟨n - 1, by omega⟩
    exact parses_parameters_skip ho hc (fun name hname => absurd hname (Option.not_mem_none name))
      parses_parameters_nil

/-- The parameter list of a function. -/
theorem parses_parameters (p : ParameterList) (hitems : p.items = (ParameterList.readItems 0 s).1)
    (hclosing : p.closing = (ParameterList.readItems 0 s).2.1) (hfuel : s.length < fuel) (function : Nat) :
    Parses limit i (parseParameters fuel function) p.tokens (ParameterList.readItems 0 s).2.2
      (Tree.addChild (buildOver .parameters none p.opening p.last (ParameterList.buildItems p.items))
        function) .nil := by
  have hlast := p.getLast?_tokens
  obtain ⟨opening, items, closing⟩ := p
  subst hitems hclosing
  unfold parseParameters
  refine Parses.look ((Parses.nodeFrom (fun parameters => Parses.moving [opening] parses_advance
    (parses_readItems 0 s _ fuel hfuel)) hlast).addChild function) fun s _ hs => ?_
  rw [State.current?_of_ahead hs]

/-! ## Functions -/

/-- What follows the parameters of a function. -/
theorem parses_body {body : Option Block} {semicolon : Option Token}
    (htail : Function.ReadsTail s body semicolon rest) (hfuel : s.length < fuel) (function : Nat) :
    Parses limit i (parseBody limit fuel function)
      ((body.map Block.tokens).getD [] ++ semicolon.toList) rest (Function.buildBody body function)
      ((body.map Block.outline).getD .nil) := by
  unfold parseBody
  cases htail with
  | @body t s _ c closing ht hcode =>
    have hbrace := Token.isPunct_iff.mpr ht
    obtain rfl := hcode.tokens_eq
    rw [show ((some (⟨t, c, closing⟩ : Block)).map Block.tokens).getD [] ++ (none : Option Token).toList =
      t :: (c.tokens ++ closing.toList) from List.append_nil _]
    refine Parses.look ((parses_block hcode.parses_block hfuel hbrace rfl rfl).addChild function)
      fun s _ hs => ?_
    rw [State.current?_of_ahead hs, Option.filter_some, if_pos hbrace]
  | semicolon ht =>
    have hsemi := Token.isPunct_iff.mpr ht
    refine Parses.look (parses_skipPunct hsemi) fun s _ hs => ?_
    rw [State.current?_of_ahead hs, Option.filter_some, if_neg (Token.not_isPunct hsemi (by decide))]
  | nothing hs =>
    have hneither : ∀ t ∈ rest.head?, ¬ t.isPunct "\x7b" = true ∧ ¬ t.isPunct ";" = true := fun t ht =>
      ⟨Token.not_isPunct_iff.mpr (hs t ht).1, Token.not_isPunct_iff.mpr (hs t ht).2⟩
    refine Parses.look (parses_skipPunct_of_not fun t ht => (hneither t ht).2) fun st _ hst => ?_
    have hfilter : st.cursor.current?.filter (·.isPunct "\x7b") = none := by
      cases rest with
      | nil =>
        rw [State.current?_of_ahead_nil hst]
        rfl
      | cons t rest => rw [State.current?_of_ahead hst, Option.filter_some, if_neg (hneither t rfl).1]
    rw [hfilter]

/-- **What is derived as a function is parsed.** -/
theorem parses_function {f : Function} (h : Function.Reads s f rest) (hfuel : s.length ≤ fuel) :
    Parses limit i (parseFunction limit fuel f.type f.name) f.tokens rest f.build f.outline := by
  have hlast := f.getLast?_tokens
  cases h with
  | @intro type name opening s _ body semicolon hstart htail =>
    have hitems : s.length < fuel := by
      simp only [List.length_cons] at hfuel
      omega
    have hbehind : (ParameterList.readItems 0 s).2.2.length < fuel := by
      have hlength := congrArg List.length (ParameterList.readItems_tokens 0 s)
      simp only [List.length_append] at hlength
      omega
    refine Parses.of_firstBeyond? (Parses.nodeFrom (fun function => ?_) hlast) fun around hle =>
      (Function.firstBeyond?_outline _ hle).symm
    refine Parses.growing fun _ => Parses.growing fun _ =>
      Parses.moving [type] parses_advance (Parses.moving [name] parses_advance ?_)
    have hbody : Function.bodyOutline ⟨type, name, ⟨opening, (ParameterList.readItems 0 s).1,
        (ParameterList.readItems 0 s).2.1⟩, body, semicolon⟩ = (body.map Block.outline).getD .nil := by
      cases body <;> rfl
    rw [hbody]
    have hparameters : Parses limit (i + 2) (parseParameters fuel function) _ _ _ .nil :=
      parses_parameters ⟨opening, _, _⟩ rfl rfl hitems function
    rw [← htail.tokens_eq, ← List.append_assoc] at hparameters
    exact hparameters.bind (fun _ => Function.buildBody body function) fun _ =>
      parses_body htail hbehind function

/-! ## Programs -/

theorem State.functionStart?_eq (s : State) : s.cursor.functionStart? =
    (Function.readStart? s.ahead).map fun (type, name, _, _) => (type, name) := by
  rw [Cursor.functionStart?, peek?_eq, peek?_eq, peek?_eq]
  rcases s.ahead with _ | ⟨type, _ | ⟨name, _ | ⟨opening, rest⟩⟩⟩
  · rfl
  · rfl
  · rfl
  · show (if _ then some (type, name) else none) = _
    rw [Function.readStart?]
    split <;> rfl

/-- **What is derived as a program is parsed.** -/
theorem parses_functions {items : List ProgramItem} (h : Program.Reads s items) (root : Nat) :
    ∀ i fuel, s.length < fuel → Parses limit i (parseFunctions limit fuel root) (Program.mk items).tokens []
      (Program.buildItems items root) (Program.functionsOutline items) := by
  induction h with
  | nil =>
    intro i fuel hfuel
    obtain ⟨n, rfl⟩ := Nat.exists_eq_add_one.mpr (Nat.zero_lt_of_lt hfuel)
    unfold parseFunctions
    refine Parses.look (parses_pure ()) fun s _ hs => ?_
    dsimp only
    rw [State.current?_of_ahead_nil hs]
  | @skipped t s items hs hrest ih =>
    intro i fuel hfuel
    obtain ⟨n, rfl⟩ := Nat.exists_eq_add_one.mpr (Nat.zero_lt_of_lt hfuel)
    unfold parseFunctions
    have hbehind := ih (i + 1) n (Nat.lt_of_succ_lt_succ hfuel)
    refine Parses.look (Parses.moving [t] parses_advance hbehind) fun st _ hst => ?_
    have hnot : ¬ Function.Ahead st.ahead := by
      rw [hst, List.append_nil]
      exact fun hahead => hs (hrest.tokens_eq ▸ hahead)
    have hstart : st.cursor.functionStart? = none := by
      rw [State.functionStart?_eq, Function.readStart?_eq_none_iff.mpr hnot, Option.map_none]
    dsimp only
    rw [State.current?_of_ahead hst, hstart]
  | @function s rest f items hf hrest ih =>
    intro i fuel hfuel
    obtain ⟨n, rfl⟩ := Nat.exists_eq_add_one.mpr (Nat.zero_lt_of_lt hfuel)
    have hlt := f.length_lt_of_append hf.tokens_eq
    have hfunction : Parses limit i (parseFunction limit n f.type f.name) f.tokens
        ((Program.mk items).tokens ++ []) f.build f.outline := by
      rw [List.append_nil, hrest.tokens_eq]
      exact parses_function hf (Nat.le_of_lt_succ hfuel)
    unfold parseFunctions
    refine Parses.look ((hfunction.addChild root).bind (f := fun _ => parseFunctions limit n root)
      (fun _ => Program.buildItems items root) fun _ => ih _ n (by omega)) fun st _ hst => ?_
    have hahead : st.ahead = s := by
      rw [hst, List.append_nil, ← hf.tokens_eq, ← hrest.tokens_eq]
      rfl
    obtain ⟨opening, behind, hread⟩ : ∃ opening behind,
        Function.readStart? st.ahead = some (f.type, f.name, opening, behind) := by
      rw [hahead]
      cases hf with
      | intro hstart _ => exact ⟨_, _, Function.readStart?_eq_some_iff.mpr ⟨hstart, rfl⟩⟩
    have hstart : st.cursor.functionStart? = some (f.type, f.name) := by
      rw [State.functionStart?_eq, hread, Option.map_some]
    have hcurrent : st.cursor.current? = some f.type :=
      State.current?_of_ahead (Function.readStart?_append hread).symm
    dsimp only
    rw [hcurrent, hstart]

/-- The root of a program ends with its last token, or at the start of the text if it has none. -/
theorem parses_program {items : List ProgramItem} (h : Program.Reads s items) (hfuel : s.length < fuel) :
    Parses limit 0 (parseProgram limit fuel) s [] (Program.mk items).buildRoot
      (Program.mk items).outline := by
  have htokens := h.tokens_eq
  have hparses : Parses limit 0 (parseProgram limit fuel) (Program.mk items).tokens []
      (Program.mk items).buildRoot (Program.functionsOutline items) := by
    refine Parses.node (fun root => parses_functions h root 0 fuel hfuel) fun st step hi hst => ?_
    rw [← Program.getLast?_tokens]
    cases hlast : (Program.mk items).tokens.getLast? with
    | some last =>
      rw [Option.map_some, Option.map_some]
      exact State.previousEnd_after hst hlast step
    | none =>
      have hposition := State.position_after hst step
      rw [List.getLast?_eq_none_iff.mp hlast, hi] at hposition
      rw [List.getLast?_eq_none_iff.mp hlast, Cursor.previousEnd, Cursor.previous?, hposition]
      rfl
  rw [htokens] at hparses
  refine hparses.of_firstBeyond? fun around _ => ?_
  rw [Program.outline, Forest.single, Outline.firstBeyond?_node rfl]
  exact Option.or_none.symm

end Parser

/-! ## Whole rows -/

open BraceLang.Parser

namespace Program

/-- **The tree that is parsed is the tree of the program that is read.** -/
theorem parse_eq (limit : Nat) (tokens : List Token) :
    parse limit tokens = ((read limit tokens).map tree).mapError .tooDeep := by
  obtain ⟨items, h⟩ := exists_reads tokens
  have hahead : (State.start tokens).ahead = tokens ++ [] := (List.append_nil tokens).symm
  have htree : (mk items).tree = ⟨((mk items).buildRoot.run #[]).2⟩ := (mk items).build_eq_tree.symm
  obtain ⟨hok, herror⟩ := parses_program h (Nat.lt_succ_self _) (.start tokens) rfl hahead
  rw [show min (State.start tokens).depth limit = 0 from Nat.zero_min limit] at hok herror
  rw [parse, h.read_eq, Outline.map_verdict, htree]
  cases hbeyond : (mk items).outline.firstBeyond? limit 0 with
  | some block =>
    obtain ⟨s', hstopped, -⟩ := herror block hbeyond
    rw [show max (State.start tokens).depth limit = limit from Nat.zero_max limit] at hstopped
    rw [Outline.verdict_of_some hbeyond, hstopped]
    rfl
  | none =>
    rw [Outline.verdict_of_none hbeyond, hok hbeyond]
    rfl

end Program

end BraceLang
