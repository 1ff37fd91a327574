import BraceLang.Proofs.Parser.Steps
import BraceLang.Proofs.Reading.Braces
import BraceLang.Proofs.Reading.Extents

/-!
# `Proofs.Parser.Statements` — blocks and statements in one pass

What is derived as some code is parsed: the parser passes the tokens of the code and builds its nodes. The
proof follows the derivation and has one lemma for each thing that can stand at the front. Each lemma asks
for fuel by the tokens that are ahead: a call that passes none of them is made with less fuel than it is
itself given, but never so often that fewer calls are left than tokens.

## Contents
- `Shape.Ahead`, and what a cursor recognises.
- `Parser.ParsesCode`, `Parser.ParsesShape` and `Parser.ParsesElse`, for code, for what has been recognised
  and for what stands behind the block of an `if`.
- `parses_block`, `parsesShape_simple`, `parsesShape_loop`, `parsesShape_if` and the `else`.
- `parses_items_nil` and so on, one for each step of the parser in a block.
- **`Code.Reads.parses`**.
-/

namespace BraceLang

open BraceLang.Tree

/-- A statement without a block is a node over its tokens. -/
theorem Simple.build_eq (x : Simple) :
    x.build = buildOver x.label.kind x.label.value x.first x.last x.addParts := by
  cases x <;> rfl

namespace Shape

/-- A statement, or the header of one, stands at the front. -/
def Ahead (s : List Token) : Prop :=
  ∃ (shape : Shape) (rest : List Token), shape.Proper ∧ shape.tokens ++ rest = s

theorem ahead_iff {s : List Token} : Ahead s ↔ Simple.Ahead s ∨ ∃ kind, Header.Ahead kind s := by
  constructor
  · rintro ⟨shape, rest, hproper, hs⟩
    cases shape with
    | simple x => exact .inl ⟨x, rest, hproper, hs⟩
    | header kind h => exact .inr ⟨kind, h, rest, hproper, hs⟩
  · rintro (⟨x, rest, hproper, hs⟩ | ⟨kind, h, rest, hproper, hs⟩)
    · exact ⟨.simple x, rest, hproper, hs⟩
    · exact ⟨.header kind h, rest, hproper, hs⟩

theorem Ahead.not_isBrace {t : Token} {s : List Token} (h : Ahead (t :: s)) : ¬ t.word.IsBrace := by
  rcases ahead_iff.mp h with ⟨x, rest, hx, hs⟩ | ⟨kind, hheader⟩
  · obtain ⟨hopen, hclose⟩ := Code.not_isBrace_of_simple hx hs
    rw [Token.isPunct_iff] at hopen hclose
    exact not_or.mpr ⟨hopen, hclose⟩
  · exact hheader.not_isBrace

end Shape

namespace Cursor

variable {c : Cursor} {i : Nat} {shape : Shape} {rest : List Token} {kind : HeaderKind} {h : Header}

theorem statementAt?_of_ahead (hshape : shape.Proper) (hs : c.ahead i = shape.tokens ++ rest) :
    c.statementAt? i = some (shape, i + shape.tokens.length - 1) := by
  refine statementAt?_eq_some_iff.mpr ⟨shape.form, ?_⟩
  rw [shapeAt?_eq, hs, Form.read?_eq_some_iff.mpr ⟨rfl, hshape, rfl⟩, Option.map_some]

theorem statementAt?_eq_none_iff : c.statementAt? i = none ↔ ¬ Shape.Ahead (c.ahead i) := by
  constructor
  · rintro hnone ⟨shape, rest, hshape, hs⟩
    rw [statementAt?_of_ahead hshape hs.symm] at hnone
    exact Option.some_ne_none _ hnone
  · intro hahead
    cases hstatement : c.statementAt? i with
    | none => rfl
    | some p =>
      obtain ⟨shape, stop⟩ := p
      obtain ⟨hproper, hs⟩ := exists_statementAt?_iff.mp ⟨stop, hstatement, rfl⟩
      exact absurd ⟨shape, _, hproper, hs⟩ hahead

theorem headerAt?_of_ahead (hh : h.Proper kind) (hs : c.ahead i = h.tokens ++ rest) :
    c.headerAt? kind i = some (h, i + h.tokens.length - 1) := by
  rw [headerAt?_eq hs, Header.read?_append_of_proper hh, Option.map_some]

theorem headerAt?_eq_none (hahead : ¬ Header.Ahead kind (c.ahead i)) : c.headerAt? kind i = none := by
  rw [headerAt?_eq rfl, Option.map_eq_none_iff, Option.eq_none_iff_forall_not_mem]
  rintro ⟨h, rest⟩ hread
  exact hahead ⟨h, rest, Header.read?_eq_some_iff.mp hread⟩

end Cursor

namespace Parser

variable {run run' rest : List Token} {t first last : Token} {limit i fuel stop bare block : Nat}
  {kind : NodeKind} {h : Header} {x : Simple} {c : Code} {closing : Option Token} {o more : Outline}
  {shape : Shape} {step : Grow Nat} {next : Grow Unit} {elseStep : Nat → Grow Unit} {goal : Code.Goal}

/-! ## What is recognised -/

/-- What the parser does with a statement that it has recognised. -/
def parseShape (limit fuel : Nat) : Shape → Nat → Run Nat
  | .simple x, stop => parseSimple x stop
  | .header .conditional h, brace => parseIf limit fuel h brace
  | .header (.loop kind) h, brace => parseLoop limit fuel kind h brace

/-- What the parser does to get to a goal. -/
def parseGoal (limit fuel block : Nat) : Code.Goal → Run Unit
  | .block bare => parseItems limit fuel bare block
  | .statement => do listOrAdvance block (← parseStatement limit (fuel + 1))
  | .nothing => pure ()

/-- The code up to a goal is parsed if there is more fuel than tokens. -/
def ParsesCode (limit : Nat) (goal : Code.Goal) (c : Code) (closing : Option Token)
    (rest : List Token) : Prop :=
  ∀ i fuel block, (c.tokens ++ (closing.toList ++ rest)).length < fuel →
    Parses limit i (parseGoal limit fuel block goal) (c.tokens ++ closing.toList) rest
      (c.build block) c.outline

/-- What has been recognised is parsed, with the tokens `run` behind it. -/
def ParsesShape (limit : Nat) (shape : Shape) (run rest : List Token) (step : Grow Nat)
    (o : Outline) : Prop :=
  ∀ i fuel stop, (shape.tokens ++ (run ++ rest)).length ≤ fuel + 1 →
    stop + 1 = i + shape.tokens.length →
    Parses limit i (parseShape limit fuel shape stop) (shape.tokens ++ run) rest step o

/-- The tokens `run` behind the block of an `if` are parsed as its `else`, or there are none. -/
def ParsesElse (limit : Nat) (run rest : List Token) (elseStep : Nat → Grow Unit) (o : Outline) : Prop :=
  ∀ i fuel id, (run ++ rest).length + 1 < fuel →
    Parses limit i (parseElse limit fuel id) run rest (elseStep id) o

theorem parseStatement_succ (limit fuel : Nat) : parseStatement limit (fuel + 1) = (do
    let c := (← get).cursor
    match c.statementAt? c.position with
    | none => return none
    | some (shape, stop) => some <$> parseShape limit fuel shape stop) := by
  rw [parseStatement]
  refine congrArg (get >>= ·) (funext fun s => ?_)
  dsimp only
  rcases s.cursor.statementAt? s.cursor.position with _ | ⟨x | ⟨_ | kind, h⟩, stop⟩
  · rfl
  · exact bind_pure_comp some _
  · exact bind_pure_comp some _
  · exact bind_pure_comp some _

/-- Where a statement begins, it is parsed. -/
theorem parses_statement (hshape : shape.Proper) (hm : ParsesShape limit shape run rest step o)
    (hfuel : (shape.tokens ++ (run ++ rest)).length ≤ fuel) :
    Parses limit i (parseStatement limit fuel) (shape.tokens ++ run) rest (some <$> step) o := by
  have hpos := shape.length_pos
  have hstop : i + shape.tokens.length - 1 + 1 = i + shape.tokens.length := by omega
  obtain ⟨n, rfl⟩ : ∃ n, fuel = n + 1 := by
    rw [List.length_append] at hfuel
    exact ⟨fuel - 1, by omega⟩
  rw [parseStatement_succ]
  refine Parses.look ((hm i n _ hfuel hstop).map some) fun s hi hs => ?_
  rw [State.ahead, List.append_assoc] at hs
  dsimp only
  rw [Cursor.statementAt?_of_ahead hshape hs, hi]

/-- Where no statement begins, the parser changes nothing. -/
theorem outcome_parseStatement_of_not {s : State} (hnot : ¬ Shape.Ahead s.ahead) :
    outcome (parseStatement limit (fuel + 1)) s = (.ok none, s) := by
  have hnone : s.cursor.statementAt? s.cursor.position = none := Cursor.statementAt?_eq_none_iff.mpr hnot
  rw [parseStatement_succ, outcome_get_bind]
  dsimp only
  rw [hnone]
  rfl

/-- The statement at an `if` is that `if`. -/
theorem outcome_parseGoal_statement {s : State} (hh : h.Proper .conditional)
    (hs : s.ahead = h.tokens ++ rest) :
    outcome (parseGoal limit fuel block .statement) s =
      outcome (addChild (parseIf limit fuel h (s.cursor.position + h.tokens.length - 1)) block) s := by
  have hshape : Shape.Proper (.header .conditional h) := hh
  rw [parseGoal, parseStatement_succ, bind_assoc, outcome_get_bind]
  dsimp only
  rw [Cursor.statementAt?_of_ahead hshape hs]
  dsimp only
  rw [bind_map_left]
  rfl

/-! ## Blocks and headers -/

theorem parses_block {l : Label} (hcode : ParsesCode limit (.block 0) c closing rest)
    (hfuel : (t :: (c.tokens ++ (closing.toList ++ rest))).length < fuel) (ht : t.isPunct "\x7b" = true)
    (hl : l.kind.isBlock = true) (hstart : l.start = first.position) :
    Parses limit i (parseBlock limit fuel kind first) (t :: (c.tokens ++ closing.toList)) rest
      (buildOver kind none first (blockLast t c closing) c.build) (.single l c.outline) := by
  obtain ⟨n, rfl⟩ := Nat.exists_eq_add_one.mpr (Nat.zero_lt_of_lt hfuel)
  unfold parseBlock
  refine Parses.inBlock (Parses.nodeFrom (fun block => ?_) (getLast?_block t c closing)) hl hstart
  exact Parses.moving [t] (parses_skipPunct ht) (hcode _ n block (Nat.lt_of_succ_lt_succ hfuel))

/-- The condition of a header is built, and the cursor moves to its brace. -/
theorem parses_header {m : Run Unit} (hstop : stop + 1 = i + h.tokens.length)
    (hm : Parses limit stop m (h.brace :: run) rest next o) (id : Nat) :
    Parses limit i (do
        grow (Tree.addChild h.buildCondition id)
        moveTo stop
        m) (h.tokens ++ run) rest (do
        Tree.addChild h.buildCondition id
        next) o := by
  have hfront : h.tokens ++ run =
      (h.keyword :: h.opening :: (h.condition ++ [h.closing])) ++ (h.brace :: run) := by
    simp [Header.tokens]
  have hlength : stop = i + (h.keyword :: h.opening :: (h.condition ++ [h.closing])).length := by
    simp only [Header.tokens, List.length_cons, List.length_append, List.length_nil] at hstop ⊢
    omega
  rw [hfront]
  refine Parses.growing fun _ => Parses.moving _ (parses_moveTo hlength) ?_
  rw [← hlength]
  exact hm

/-- Where a header and something behind it fit into the fuel, so does what is behind the header. -/
theorem length_behind_header (h : Header) {behind : List Token}
    (hfuel : (h.tokens ++ behind).length ≤ fuel + 1) :
    ∃ n, fuel = n + 1 ∧ (h.brace :: behind).length < n := by
  rw [List.length_append, Header.tokens, List.length_cons, List.length_cons, List.length_append,
    List.length_cons, List.length_singleton] at hfuel
  refine ⟨fuel - 1, by omega, ?_⟩
  rw [List.length_cons]
  omega

/-! ## Statements -/

theorem parsesShape_simple : ParsesShape limit (.simple x) [] rest x.build .nil := by
  intro i fuel stop _ hstop
  rw [x.build_eq, Shape.tokens, List.append_nil]
  refine Parses.nodeFrom (fun id => ?_) x.getLast?_tokens
  have hparts : Parses limit i (do grow (x.addParts id); moveTo (stop + 1)) x.tokens rest
      (do x.addParts id; pure ()) .nil := Parses.growing fun _ => parses_moveTo hstop
  rwa [bind_pure_unit] at hparts

theorem parsesShape_loop {kind : LoopKind} (hh : h.Proper (.loop kind))
    (hcode : ParsesCode limit (.block 0) c closing rest) :
    ParsesShape limit (.header (.loop kind) h) (c.tokens ++ closing.toList) rest
      (buildOver kind.nodeKind none h.keyword (blockLast h.brace c closing) fun statement => do
        Tree.addChild h.buildCondition statement
        Tree.addChild (buildOver .loopBody none h.brace (blockLast h.brace c closing) c.build) statement)
      (.single (.covering .loopBody none h.brace (blockLast h.brace c closing)) c.outline) := by
  intro i fuel stop hfuel hstop
  obtain ⟨n, rfl, hn⟩ := length_behind_header h hfuel
  rw [List.append_assoc] at hn
  rw [parseShape, parseLoop]
  refine Parses.nodeFrom (fun id => parses_header hstop ?_ id) (Code.getLast?_header h c closing)
  exact (parses_block hcode hn (Token.isPunct_iff.mpr hh.brace) rfl rfl).addChild id

/-- An `if` with its block, and what is parsed as its `else`. -/
theorem parsesShape_if (hh : h.Proper .conditional)
    (hcode : ParsesCode limit (.block 0) c closing (run ++ rest))
    (helse : ParsesElse limit run rest elseStep more)
    (hlast : (h.tokens ++ (c.tokens ++ closing.toList ++ run)).getLast? = some last) :
    ParsesShape limit (.header .conditional h) (c.tokens ++ closing.toList ++ run) rest
      (buildOver .ifStatement none h.keyword last fun statement => do
        Tree.addChild h.buildCondition statement
        Tree.addChild (buildOver .ifBody none h.brace (blockLast h.brace c closing) c.build) statement
        elseStep statement)
      (.single (.covering .ifBody none h.brace (blockLast h.brace c closing)) c.outline ++ more) := by
  intro i fuel stop hfuel hstop
  obtain ⟨n, rfl, hn⟩ := length_behind_header h hfuel
  have helseFuel : (run ++ rest).length + 1 < n := by
    simp only [List.length_cons, List.length_append] at hn ⊢
    omega
  rw [List.append_assoc, List.append_assoc] at hn
  rw [parseShape, parseIf]
  refine Parses.nodeFrom (fun id => parses_header hstop ?_ id) hlast
  exact ((parses_block hcode hn (Token.isPunct_iff.mpr hh.brace) rfl rfl).addChild id).bind
    (fun _ => elseStep id) fun _ => helse _ n id helseFuel

/-! ## The `else` of an `if` -/

theorem parsesElse_of_not (hnot : ¬ ElseHead.Ahead rest) :
    ParsesElse limit [] rest (fun _ => pure ()) .nil := by
  intro i fuel id hfuel
  obtain ⟨n, rfl⟩ := Nat.exists_eq_add_one.mpr (Nat.zero_lt_of_lt hfuel)
  unfold parseElse
  refine Parses.look (parses_pure ()) fun s hi hs => ?_
  dsimp only
  cases rest with
  | nil => rw [State.current?_of_ahead_nil hs]
  | cons t rest =>
    rw [State.current?_of_ahead hs]
    dsimp only
    by_cases ht : t.isKeyword "else" = true
    · have hbehind : s.cursor.ahead (s.cursor.position + 1) = rest := Cursor.ahead_succ hs
      have hword := Token.isKeyword_iff.mp ht
      have hbrace : ¬ s.cursor.isPunctAt (s.cursor.position + 1) "\x7b" = true := by
        intro hat
        cases rest with
        | nil => exact absurd hat (Bool.eq_false_iff.mp (Cursor.isPunctAt_of_ahead_nil hbehind _))
        | cons b rest =>
          rw [Cursor.isPunctAt_of_ahead hbehind] at hat
          exact hnot ⟨⟨t, some b⟩, rest, .ofBrace hword (Token.isPunct_iff.mp hat), rfl⟩
      have hheader : s.cursor.headerAt? .conditional (s.cursor.position + 1) = none := by
        refine Cursor.headerAt?_eq_none fun hahead => ?_
        rw [hbehind] at hahead
        exact hnot ⟨⟨t, none⟩, rest, .ofHeader hword hahead, rfl⟩
      rw [if_pos ht, if_neg hbrace, hheader]
    · rw [if_neg ht]

/-- An `else` with a block. -/
theorem parsesElse_block {keyword brace : Token} (hkeyword : keyword.isKeyword "else" = true)
    (hbrace : brace.isPunct "\x7b" = true) (hcode : ParsesCode limit (.block 0) c closing rest) :
    ParsesElse limit (keyword :: brace :: (c.tokens ++ closing.toList)) rest
      (Tree.addChild (buildOver .elseBranch none keyword (blockLast brace c closing) c.build))
      (.single (.covering .elseBranch none keyword (blockLast brace c closing)) c.outline) := by
  intro i fuel id hfuel
  obtain ⟨n, rfl⟩ := Nat.exists_eq_add_one.mpr (Nat.zero_lt_of_lt hfuel)
  have hblockFuel : (brace :: (c.tokens ++ (closing.toList ++ rest))).length < n := by
    simp only [List.length_cons, List.length_append] at hfuel ⊢
    omega
  have hmove (rest : List Token) : Parses limit i (moveTo (i + 1)) [keyword] rest (pure ()) .nil :=
    parses_moveTo rfl
  unfold parseElse
  refine Parses.look (Parses.moving _ (hmove _) ((parses_block hcode hblockFuel hbrace rfl rfl).addChild id))
    fun s hi hs => ?_
  have hbehind : s.cursor.ahead (s.cursor.position + 1) = _ := Cursor.ahead_succ hs
  dsimp only
  rw [State.current?_of_ahead hs]
  dsimp only
  rw [if_pos hkeyword, if_pos ((Cursor.isPunctAt_of_ahead hbehind _).trans hbrace), hi]

/-- An `else` with another `if` and no block. -/
theorem parsesElse_if {keyword : Token} (hkeyword : keyword.isKeyword "else" = true)
    (hahead : Header.Ahead .conditional (c.tokens ++ (closing.toList ++ rest)))
    (hcode : ParsesCode limit .statement c closing rest)
    (hlast : (keyword :: (c.tokens ++ closing.toList)).getLast? = some last) :
    ParsesElse limit (keyword :: (c.tokens ++ closing.toList)) rest
      (Tree.addChild (buildOver .elseBranch none keyword last c.build))
      (.single (.covering .elseBranch none keyword last) c.outline) := by
  intro i fuel id hfuel
  obtain ⟨n, rfl⟩ := Nat.exists_eq_add_one.mpr (Nat.zero_lt_of_lt hfuel)
  obtain ⟨h, behind, hh, htokens⟩ := hahead
  rw [← List.append_assoc] at htokens
  have hindex : i + 1 + h.tokens.length - 1 = i + h.tokens.length := by omega
  have hcodeFuel : (c.tokens ++ (closing.toList ++ rest)).length < n := by
    simp only [List.length_cons, List.length_append] at hfuel ⊢
    omega
  have hnested (branch : Nat) : Parses limit (i + 1)
      (addChild (parseIf limit n h (i + h.tokens.length)) branch) (c.tokens ++ closing.toList) rest
      (c.build branch) c.outline := by
    refine (hcode (i + 1) n branch hcodeFuel).congr fun s hi hs => ?_
    rw [← hindex, ← hi]
    exact (outcome_parseGoal_statement hh (hs.trans htokens.symm)).symm
  have hbranch : Parses limit i (nodeFrom .elseBranch none keyword fun branch => do
      moveTo (i + 1)
      addChild (parseIf limit n h (i + h.tokens.length)) branch) (keyword :: (c.tokens ++ closing.toList))
      rest (buildOver .elseBranch none keyword last c.build) c.outline :=
    Parses.nodeFrom (fun branch => Parses.moving [keyword] (parses_moveTo rfl) (hnested branch)) hlast
  unfold parseElse
  refine Parses.look (Parses.inBlock (hbranch.addChild id) rfl rfl) fun s hi hs => ?_
  have hbehind : s.cursor.ahead (s.cursor.position + 1) = h.tokens ++ behind :=
    (Cursor.ahead_succ hs).trans htokens.symm
  have hbrace : ¬ s.cursor.isPunctAt (s.cursor.position + 1) "\x7b" = true := by
    rw [Cursor.isPunctAt_of_ahead (t := h.keyword) hbehind, Token.isPunct_iff, hh.keyword]
    exact Word.reserved_ne_mark _ _
  dsimp only
  rw [State.current?_of_ahead hs]
  dsimp only
  rw [if_pos hkeyword, if_neg hbrace, Cursor.headerAt?_of_ahead hh hbehind, hi, hindex]

/-- An `else` that stands behind the block of an `if` is parsed. -/
theorem parsesElse_of_proper {e : ElseHead} (he : e.Proper (c.tokens ++ (closing.toList ++ rest)))
    (hcode : ParsesCode limit e.goal c closing rest) :
    ParsesElse limit (e.tokens ++ (c.tokens ++ closing.toList)) rest
      (Tree.addChild (buildOver .elseBranch none e.keyword (elseLast e c closing) c.build))
      (.single (.covering .elseBranch none e.keyword (elseLast e c closing)) c.outline) := by
  have hkeyword := Token.isKeyword_iff.mpr he.keyword
  have hlast := getLast?_else e c closing
  obtain ⟨keyword, _ | brace⟩ := e
  · exact parsesElse_if hkeyword (he.header rfl) hcode hlast
  · have hblock : elseLast ⟨keyword, some brace⟩ c closing = blockLast brace c closing := by
      have hbraceLast := getLast?_block brace c closing
      change ([keyword] ++ (brace :: (c.tokens ++ closing.toList))).getLast? = _ at hlast
      rw [List.getLast?_append, hbraceLast, Option.some_or] at hlast
      exact (Option.some.inj hlast).symm
    rw [hblock]
    exact parsesElse_block hkeyword (Token.isPunct_iff.mpr (he.brace brace rfl)) hcode

/-- An `if` without an `else`. -/
theorem parsesShape_ifThen (hh : h.Proper .conditional) (hcode : ParsesCode limit (.block 0) c closing rest)
    (helse : ¬ ElseHead.Ahead rest) :
    ParsesShape limit (.header .conditional h) (c.tokens ++ closing.toList) rest
      (buildOver .ifStatement none h.keyword (blockLast h.brace c closing) fun statement => do
        Tree.addChild h.buildCondition statement
        Tree.addChild (buildOver .ifBody none h.brace (blockLast h.brace c closing) c.build) statement)
      (.single (.covering .ifBody none h.brace (blockLast h.brace c closing)) c.outline) := by
  have hlast := Code.getLast?_header h c closing
  rw [← List.append_nil (c.tokens ++ closing.toList)] at hlast
  have hif := parsesShape_if hh hcode (parsesElse_of_not helse) hlast
  simp only [List.append_nil, bind_pure_unit, Forest.append_nil] at hif
  exact hif

/-- An `if` with an `else`. -/
theorem parsesShape_ifThenElse {e : ElseHead} {other : Code} {otherClosing : Option Token}
    (hh : h.Proper .conditional) (he : e.Proper (other.tokens ++ (otherClosing.toList ++ rest)))
    (hcode : ParsesCode limit (.block 0) c closing
      (e.tokens ++ (other.tokens ++ (otherClosing.toList ++ rest))))
    (hother : ParsesCode limit e.goal other otherClosing rest) :
    ParsesShape limit (.header .conditional h)
      (c.tokens ++ closing.toList ++ (e.tokens ++ (other.tokens ++ otherClosing.toList))) rest
      (buildOver .ifStatement none h.keyword (elseLast e other otherClosing) fun statement => do
        Tree.addChild h.buildCondition statement
        Tree.addChild (buildOver .ifBody none h.brace (blockLast h.brace c closing) c.build) statement
        Tree.addChild (buildOver .elseBranch none e.keyword (elseLast e other otherClosing) other.build)
          statement)
      (.single (.covering .ifBody none h.brace (blockLast h.brace c closing)) c.outline ++
        .single (.covering .elseBranch none e.keyword (elseLast e other otherClosing)) other.outline) := by
  have hbody : ParsesCode limit (.block 0) c closing
      (e.tokens ++ (other.tokens ++ otherClosing.toList) ++ rest) := by
    simpa only [List.append_assoc] using hcode
  refine parsesShape_if hh hbody (parsesElse_of_proper he hother) ?_
  rw [← List.append_assoc, List.getLast?_append, getLast?_else, Option.some_or]

/-! ## The contents of a block -/

theorem parses_items_nil : Parses limit i (parseItems limit (fuel + 1) bare block) [] [] (pure ()) .nil := by
  unfold parseItems
  refine Parses.look (parses_pure ()) fun s _ hs => ?_
  rw [State.current?_of_ahead_nil hs]

theorem parses_items_opened (ht : t.isPunct "\x7b" = true)
    (h : Parses limit (i + 1) (parseItems limit fuel (bare + 1) block) run rest next o) :
    Parses limit i (parseItems limit (fuel + 1) bare block) (t :: run) rest next o := by
  unfold parseItems
  refine Parses.look (Parses.moving _ parses_advance h) fun s _ hs => ?_
  rw [State.current?_of_ahead hs]
  dsimp only
  rw [if_pos ht]

theorem parses_items_close (ht : t.isPunct "\x7d" = true) :
    Parses limit i (parseItems limit (fuel + 1) 0 block) [t] rest (pure ()) .nil := by
  unfold parseItems
  refine Parses.look (Parses.moving _ parses_advance (parses_pure ())) fun s _ hs => ?_
  rw [State.current?_of_ahead hs]
  dsimp only
  rw [if_neg (Token.not_isPunct ht (by decide)), if_pos ht, if_pos rfl]

theorem parses_items_closed (ht : t.isPunct "\x7d" = true)
    (h : Parses limit (i + 1) (parseItems limit fuel bare block) run rest next o) :
    Parses limit i (parseItems limit (fuel + 1) (bare + 1) block) (t :: run) rest next o := by
  unfold parseItems
  refine Parses.look (Parses.moving _ parses_advance h) fun s _ hs => ?_
  rw [State.current?_of_ahead hs]
  dsimp only
  rw [if_neg (Token.not_isPunct ht (by decide)), if_pos ht, if_neg (Nat.succ_ne_zero bare),
    Nat.add_sub_cancel]

/-- Where no brace stands, the parser looks for a statement. -/
theorem parses_items_other (ht : ¬ t.word.IsBrace)
    (h : Parses limit i (do
        listOrAdvance block (← parseStatement limit fuel)
        parseItems limit fuel bare block) (t :: run) rest next o) :
    Parses limit i (parseItems limit (fuel + 1) bare block) (t :: run) rest next o := by
  rw [← Token.isBrace_iff, Token.isBrace, Bool.or_eq_true, not_or] at ht
  unfold parseItems
  refine Parses.look h fun s _ hs => ?_
  rw [State.current?_of_ahead hs]
  dsimp only
  rw [if_neg ht.1, if_neg ht.2]

theorem parses_items_skip (ht : ¬ t.word.IsBrace) (hnot : ¬ Shape.Ahead (t :: (run ++ rest)))
    (h : Parses limit (i + 1) (parseItems limit (fuel + 1) bare block) run rest next o) :
    Parses limit i (parseItems limit (fuel + 2) bare block) (t :: run) rest next o := by
  refine parses_items_other ht ((Parses.moving _ parses_advance h).congr fun s _ hs => ?_)
  have hstatement : outcome (parseStatement limit (fuel + 1)) s = (.ok none, s) :=
    outcome_parseStatement_of_not (by rw [hs]; exact hnot)
  rw [outcome_bind_of_ok hstatement]
  rfl

theorem parses_items_statement (ht : ¬ t.word.IsBrace)
    (hstatement : Parses limit i (parseStatement limit fuel) (t :: run) (run' ++ rest) (some <$> step) o)
    (h : Parses limit (i + (t :: run).length) (parseItems limit fuel bare block) run' rest next more) :
    Parses limit i (parseItems limit (fuel + 1) bare block) (t :: run ++ run') rest
      (do Tree.addChild step block; next) (o ++ more) :=
  parses_items_other ht (hstatement.bind (f := fun found => do
    listOrAdvance block found
    parseItems limit fuel bare block) (fun found => do
    pushChild block (found.getD 0)
    next) fun _ => Parses.growing fun _ => h)

/-! ## Code -/

/-- A statement at the front of some code, and the code behind it. -/
theorem parsesCode_statement {whole : Code} (hgoal : goal ≠ .nothing) (hshape : shape.Proper)
    (hm : ParsesShape limit shape run (c.tokens ++ (closing.toList ++ rest)) step o)
    (hbehind : ParsesCode limit goal.next c closing rest)
    (htokens : whole.tokens = shape.tokens ++ (run ++ c.tokens))
    (hbuild : ∀ block, whole.build block = (do Tree.addChild step block; c.build block))
    (houtline : ∀ around, around ≤ limit →
      (o ++ c.outline).firstBeyond? limit around = whole.outline.firstBeyond? limit around) :
    ParsesCode limit goal whole closing rest := by
  intro i fuel block hfuel
  have hpos := shape.length_pos
  obtain ⟨n, rfl⟩ := Nat.exists_eq_add_one.mpr (Nat.zero_lt_of_lt hfuel)
  have hall : whole.tokens ++ closing.toList = shape.tokens ++ run ++ (c.tokens ++ closing.toList) := by
    simp only [htokens, List.append_assoc]
  have hlength : (shape.tokens ++ (run ++ (c.tokens ++ (closing.toList ++ rest)))).length ≤ n := by
    simp only [htokens, List.append_assoc] at hfuel
    omega
  have hstatement {fuel : Nat} (hn : n ≤ fuel) :
      Parses limit i (parseStatement limit fuel) (shape.tokens ++ run)
      (c.tokens ++ (closing.toList ++ rest)) (some <$> step) o :=
    parses_statement hshape hm (Nat.le_trans hlength hn)
  rw [← List.append_assoc] at hstatement
  simp only [List.length_append] at hlength
  rw [hall, hbuild]
  refine Parses.of_firstBeyond? ?_ houtline
  cases goal with
  | nothing => exact absurd rfl hgoal
  | block bare =>
    have hfirst := hstatement (Nat.le_refl n)
    have hrest := hbehind (i + (shape.tokens ++ run).length) n block
      (by simp only [List.length_append]; omega)
    obtain ⟨t, tail, htokens⟩ : ∃ t tail, shape.tokens ++ run = t :: tail :=
      List.exists_cons_of_length_pos (by rw [List.length_append]; omega)
    have ht : ¬ t.word.IsBrace := Shape.Ahead.not_isBrace ⟨shape, run, hshape, htokens⟩
    rw [htokens] at hfirst hrest ⊢
    exact parses_items_statement ht hfirst hrest
  | statement =>
    have hlist := (hstatement (Nat.le_add_right n 2)).bind (f := fun found => do
      listOrAdvance block found
      pure ()) (fun found => do
      pushChild block (found.getD 0)
      c.build block) fun _ => Parses.growing fun _ => hbehind _ (n + 1) block
        (by simp only [List.length_append]; omega)
    simp only [bind_pure_unit] at hlist
    exact hlist

end Parser

open BraceLang.Parser

namespace Code

theorem Goal.exists_block {goal : Goal} (hgoal : goal ≠ .nothing) (h : goal ≠ .statement) :
    ∃ bare, goal = .block bare := by
  cases goal with
  | block bare => exact ⟨bare, rfl⟩
  | statement => exact absurd rfl h
  | nothing => exact absurd rfl hgoal

theorem Goal.block_ne_statement (bare : Nat) : Goal.block bare ≠ .statement := nofun

theorem Goal.next_ne_statement (goal : Goal) : goal.next ≠ .statement := by
  cases goal <;> exact nofun

end Code

/-- An `else` without a block holds a statement. -/
theorem ElseHead.Proper.ahead_of_goal {e : ElseHead} {s : List Token} (he : e.Proper s)
    (hgoal : e.goal = .statement) : Shape.Ahead s := by
  obtain ⟨keyword, _ | brace⟩ := e
  · exact Shape.ahead_iff.mpr (.inr ⟨.conditional, he.header rfl⟩)
  · exact Code.Goal.noConfusion hgoal

namespace Code

variable {goal : Goal} {s rest : List Token} {c : Code} {closing : Option Token} {limit : Nat}

/-- **What is derived is parsed.** -/
theorem Reads.parses (h : Reads goal s c closing rest) (hahead : goal = .statement → Shape.Ahead s) :
    ParsesCode limit goal c closing rest := by
  induction h with
  | nothing => exact fun i fuel block _ => parses_pure ()
  | @atEnd goal =>
    intro i fuel block hfuel
    obtain ⟨n, rfl⟩ := Nat.exists_eq_add_one.mpr (Nat.zero_lt_of_lt hfuel)
    cases goal with
    | block bare => exact parses_items_nil
    | statement =>
      obtain ⟨shape, rest, -, htokens⟩ := hahead rfl
      have hpos := shape.length_pos
      rw [(List.append_eq_nil_iff.mp htokens).1] at hpos
      exact absurd hpos (Nat.lt_irrefl 0)
    | nothing => exact parses_pure ()
  | @close goal t s hgoal ht =>
    intro i fuel block hfuel
    obtain ⟨n, rfl⟩ := Nat.exists_eq_add_one.mpr (Nat.zero_lt_of_lt hfuel)
    rcases goal with (_ | bare) | _ | _
    · exact parses_items_close (Token.isPunct_iff.mpr ht)
    · exact absurd hgoal (by simp [Goal.closed?])
    · exact absurd hgoal (by simp [Goal.closed?])
    · exact absurd hgoal (by simp [Goal.closed?])
  | @opened goal t s rest c closing hgoal ht hrest ih =>
    obtain ⟨bare, rfl⟩ := Goal.exists_block hgoal fun h => (hahead h).not_isBrace (.inl ht)
    intro i fuel block hfuel
    obtain ⟨n, rfl⟩ := Nat.exists_eq_add_one.mpr (Nat.zero_lt_of_lt hfuel)
    exact parses_items_opened (Token.isPunct_iff.mpr ht)
      (ih (Goal.block_ne_statement _).elim (i + 1) n block (Nat.lt_of_succ_lt_succ hfuel))
  | @closed goal outer t s rest c closing hgoal houter ht _ ih =>
    obtain ⟨bare, rfl⟩ := Goal.exists_block hgoal fun h => (hahead h).not_isBrace (.inr ht)
    intro i fuel block hfuel
    obtain ⟨n, rfl⟩ := Nat.exists_eq_add_one.mpr (Nat.zero_lt_of_lt hfuel)
    cases bare with
    | zero => exact absurd houter (by simp [Goal.closed?])
    | succ bare =>
      obtain rfl := Option.some.inj houter
      exact parses_items_closed (Token.isPunct_iff.mpr ht)
        (ih (Goal.block_ne_statement _).elim (i + 1) n block (Nat.lt_of_succ_lt_succ hfuel))
  | @skip goal t s rest c closing hgoal ht hsimple hheader hrest ih =>
    have hnot : ¬ Shape.Ahead (t :: s) := by
      rw [Shape.ahead_iff]
      exact not_or.mpr ⟨hsimple, not_exists.mpr hheader⟩
    obtain ⟨bare, rfl⟩ := Goal.exists_block hgoal fun h => hnot (hahead h)
    intro i fuel block hfuel
    have hbehind : (c.tokens ++ (closing.toList ++ rest)).length + 1 < fuel := hfuel
    obtain ⟨n, rfl⟩ : ∃ n, fuel = n + 2 := ⟨fuel - 2, by omega⟩
    obtain rfl := hrest.tokens_eq
    rw [← List.append_assoc] at hnot
    have hrest := ih (Goal.block_ne_statement _).elim (i + 1) (n + 1) block (Nat.lt_of_succ_lt_succ hfuel)
    exact parses_items_skip ht hnot hrest
  | @simple goal x s rest c closing hgoal hx hrest ih =>
    obtain rfl := hrest.tokens_eq
    have hproper : Shape.Proper (.simple x) := hx
    refine parsesCode_statement hgoal hproper parsesShape_simple
      (ih fun h => absurd h goal.next_ne_statement) rfl (fun _ => rfl) fun around hle => ?_
    have hparts : x.parts.firstBeyond? limit around = none :=
      Outline.firstBeyond?_eq_none (by rw [x.depth_parts]; exact hle)
    rw [outline, Outline.firstBeyond?_node x.isBlock_label, hparts, Option.none_or, Forest.nil_append]
  | @loop goal kind h s middle rest body c bodyClosing closing hgoal hh hbody hrest ihb ih =>
    obtain rfl := hrest.tokens_eq
    have hproper : Shape.Proper (.header (.loop kind) h) := hh
    refine parsesCode_statement hgoal hproper (parsesShape_loop hh (ihb (Goal.block_ne_statement 0).elim))
      (ih fun h => absurd h goal.next_ne_statement) ?_ (fun _ => rfl) fun around hle => ?_
    · simp only [tokens, Shape.tokens, List.append_assoc]
    · rw [outline, Outline.firstBeyond?_header h kind.isBlock_nodeKind hle, Outline.firstBeyond?_append]
  | @ifThen goal h s middle rest body c bodyClosing closing hgoal hh hbody helse hrest ihb ih =>
    obtain rfl := hrest.tokens_eq
    have hproper : Shape.Proper (.header .conditional h) := hh
    have hif := parsesShape_ifThen hh (ihb (Goal.block_ne_statement 0).elim) helse
    refine parsesCode_statement hgoal hproper hif
      (ih fun h => absurd h goal.next_ne_statement) ?_ (fun _ => rfl) fun around hle => ?_
    · simp only [tokens, Shape.tokens, List.append_assoc]
    · rw [outline, Outline.firstBeyond?_header h rfl hle, Outline.firstBeyond?_append]
  | @ifThenElse goal h e s s' middle rest body other c bodyClosing otherClosing closing hgoal hh hbody he
      hother hrest ihb iho ih =>
    obtain rfl := hrest.tokens_eq
    obtain rfl := hother.tokens_eq
    have hproper : Shape.Proper (.header .conditional h) := hh
    have hif := parsesShape_ifThenElse hh he (ihb (Goal.block_ne_statement 0).elim)
      (iho he.ahead_of_goal)
    refine parsesCode_statement hgoal hproper hif
      (ih fun h => absurd h goal.next_ne_statement) ?_ (fun _ => rfl) fun around hle => ?_
    · simp only [tokens, Shape.tokens, List.append_assoc]
    · rw [outline, Outline.firstBeyond?_header h rfl hle, Outline.firstBeyond?_append]
      rfl

/-- In a block everything is parsed. -/
theorem Reads.parses_block {bare : Nat} (h : Reads (.block bare) s c closing rest) :
    ParsesCode limit (.block bare) c closing rest :=
  h.parses (Goal.block_ne_statement bare).elim

end Code

/-- **Where a statement begins, it is parsed**, and the parser builds one node with all that is below it. -/
theorem Shape.Proper.exists_parsesShape {shape : Shape} (hproper : shape.Proper) (limit : Nat)
    (behind : List Token) :
    ∃ (run rest : List Token) (step : Grow Nat) (o : Outline) (l : Label) (children : Outline),
      run ++ rest = behind ∧ ParsesShape limit shape run rest step o ∧
        Builds step (.single l children) := by
  rcases shape with x | ⟨_ | kind, h⟩
  · exact ⟨[], behind, _, _, _, _, rfl, parsesShape_simple, x.builds_build⟩
  · obtain ⟨c, closing, middle, hc⟩ := Code.exists_reads (.block 0) behind
    obtain rfl := hc.tokens_eq
    by_cases helse : ElseHead.Ahead middle
    · obtain ⟨e, s', he, rfl⟩ := helse
      obtain ⟨other, otherClosing, rest, hother⟩ := Code.exists_reads e.goal s'
      obtain rfl := hother.tokens_eq
      refine ⟨_, rest, _, _, _, _, ?_,
        parsesShape_ifThenElse hproper he hc.parses_block (hother.parses he.ahead_of_goal),
        builds_over (h.builds_buildCondition.adds.append
          ((builds_over c.adds_build).adds.append (builds_over other.adds_build).adds))⟩
      simp only [List.append_assoc]
    · exact ⟨_, middle, _, _, _, _, List.append_assoc _ _ _,
        parsesShape_ifThen hproper hc.parses_block helse,
        builds_over (h.builds_buildCondition.adds.append (builds_over c.adds_build).adds)⟩
  · obtain ⟨c, closing, rest, hc⟩ := Code.exists_reads (.block 0) behind
    obtain rfl := hc.tokens_eq
    exact ⟨_, rest, _, _, _, _, List.append_assoc _ _ _, parsesShape_loop hproper hc.parses_block,
      builds_over (h.builds_buildCondition.adds.append (builds_over c.adds_build).adds)⟩

end BraceLang
