import BraceLang.Token.Lexer
import BraceLang.Proofs.Grammar.Depth
import BraceLang.Proofs.Grammar.Spelling
import BraceLang.Proofs.Reading.Nesting

/-!
# `Proofs.Grammar.Completeness` — every program of the grammar is read

Tokens that spell a program are read as that program, whatever their places are. A derivation is
built from left to right along the parts of the program. What stands behind a part could only
disturb it in one place: an `if` without an `else` must not be followed by one.

## Contents
- `Body.ReadsBack`, with `Else.exists_reads` and from it `Body.exists_reads`, by induction on the
  grammar.
- `Function.exists_reads` and `exists_reads_functions`.
- **`read_spell`**.
-/

namespace BraceLang

open Outline

namespace Grammar

/-! ## Blocks -/

/-- Where an `else` starts, the word `else` stands. -/
theorem head?_of_elseAhead {s : List Token} (h : ElseHead.Ahead s) :
    (words s).head? = some (.reserved "else") := by
  obtain ⟨e, rest, he, rfl⟩ := h
  exact congrArg some he.keyword

theorem Statement.head?_spell_ne (a : Statement) (more : List Word) :
    (a.spell ++ more).head? ≠ some (.reserved "else") := by
  intro h
  cases a with
  | declaration type name brackets value =>
    have htext : type.text = "else" := congrArg Word.text (Option.some.inj h)
    have htype := type.isTypeName
    rw [htext] at htype
    exact absurd htype (by decide)
  | call name arguments =>
    have hname : name.word.IsName := rfl
    rw [show name.word = .reserved "else" from Option.some.inj h] at hname
    exact Word.not_isName_reserved _ hname
  | ret value => exact absurd (congrArg Word.text (Option.some.inj h)) (by decide)
  | assignment target operator value =>
    have hname : target.word.IsName := rfl
    rw [show target.word = .reserved "else" from Option.some.inj h] at hname
    exact Word.not_isName_reserved _ hname

/-- No statement begins with `else`, and neither does the end of a block. -/
theorem Body.not_elseAhead (b : Body) {ts s : List Token} {t : Token} (h : words ts = b.spell)
    (ht : t.word = .mark "\x7d") : ¬ ElseHead.Ahead (ts ++ t :: s) := by
  intro hahead
  have hhead := head?_of_elseAhead hahead
  rw [words, List.map_append, List.map_cons, ht, show ts.map Token.word = b.spell from h] at hhead
  cases b with
  | done => exact absurd (congrArg Word.kind (Option.some.inj hhead)) (by decide)
  | simple a rest =>
    rw [spell, List.append_assoc] at hhead
    exact a.head?_spell_ne _ hhead
  | loop kind condition body rest =>
    have htext := congrArg Word.text (Option.some.inj hhead)
    cases kind <;> exact absurd htext (by decide)
  | branch condition body otherwise rest =>
    exact absurd (congrArg Word.text (Option.some.inj hhead)) (by decide)

open Code

/-- Tokens that spell the statements of the block are read as these up to the end of the block. -/
def Body.ReadsBack (b : Body) : Prop :=
  ∀ ⦃ts : List Token⦄, words ts = b.spell → ∀ ⦃t : Token⦄, t.word = .mark "\x7d" →
    ∀ s, ∃ c, Reads (.block 0) (ts ++ t :: s) c (some t) s ∧ bare c.outline = b.outline

/-- Behind the block of an `if`, tokens that spell what follows it are read as that, if no `else`
    stands behind them and the blocks in it read back. -/
theorem Else.exists_reads (e : Else) (hinner : ∀ b : Body, sizeOf b < sizeOf e → b.ReadsBack)
    {ts : List Token} (h : words ts = e.spell) {s : List Token}
    (hs : ¬ ElseHead.Ahead s) {goal : Goal} {c : Code} {closing : Option Token}
    {rest : List Token} (hgoal : goal ≠ .nothing) (hrest : Reads goal.next s c closing rest)
    {g : Header} (hg : g.Proper .conditional) {inner : List Token} {body : Code}
    {bodyClosing : Option Token} (hbody : Reads (.block 0) inner body bodyClosing (ts ++ s)) :
    ∃ code, Reads goal (g.tokens ++ inner) code closing rest ∧
      bare code.outline = .node (.plain .ifStatement none)
        (.node (.plain .condition none) (wordLeaves (words g.condition))
          (.node (.plain .ifBody none) (bare body.outline) e.outline)) (bare c.outline) := by
  match e with
  | .nothing =>
    obtain rfl := List.map_eq_nil_iff.mp h
    refine ⟨.ifThen g body bodyClosing c, .ifThen hgoal hg hbody hs hrest, ?_⟩
    rw [Code.outline, bare_node, bare_node, bare_leaves]
    rfl
  | .block b =>
    rw [Else.spell] at h
    obtain ⟨keyword, tail, rfl, hkeyword, htail⟩ := List.map_eq_cons_iff.mp h
    obtain ⟨brace, tail, rfl, hbrace, htail⟩ := List.map_eq_cons_iff.mp htail
    obtain ⟨tb, last, rfl, hb, hlast⟩ := List.map_eq_append_iff.mp htail
    obtain ⟨close, rfl, hclose⟩ := List.map_eq_singleton_iff.mp hlast
    obtain ⟨other, hother, hoo⟩ := hinner b (by simp) hb hclose s
    have he : ElseHead.Proper ⟨keyword, some brace⟩ (tb ++ close :: s) := .ofBrace hkeyword hbrace
    refine ⟨.ifThenElse g body bodyClosing ⟨keyword, some brace⟩ other (some close) c, ?_, ?_⟩
    · refine .ifThenElse hgoal hg ?_ he hother hrest
      simpa [ElseHead.tokens] using hbody
    · rw [Code.outline, bare_node, bare_node, bare_leaves, Else.outline, ← hoo]
      rfl
  | .chain condition b otherwise =>
    rw [Else.spell] at h
    obtain ⟨keyword, tail, rfl, hkeyword, htail⟩ := List.map_eq_cons_iff.mp h
    obtain ⟨th, tail, rfl, hh, htail⟩ := List.map_eq_append_iff.mp htail
    obtain ⟨tb, tail, rfl, hb, htail⟩ := List.map_eq_append_iff.mp htail
    obtain ⟨close, te, rfl, hclose, he⟩ := List.map_eq_cons_iff.mp htail
    obtain ⟨g', hg', rfl, hrun⟩ := condition.exists_header hh
    obtain ⟨hback, hinner⟩ := Else.inner_of_chain hinner
    obtain ⟨cb, hcb, hob⟩ := hback hb hclose (te ++ s)
    -- The `if` that the `else` holds is one statement, so nothing is read behind it.
    have hstatement : Goal.statement ≠ .nothing := by decide
    have hnothing : Reads (Goal.next .statement) s .done none s := .nothing
    obtain ⟨other, hother, hoo⟩ :=
      otherwise.exists_reads hinner he hs hstatement hnothing hg' hcb
    have hhead : ElseHead.Proper ⟨keyword, none⟩ (g'.tokens ++ (tb ++ close :: (te ++ s))) :=
      .ofHeader hkeyword ⟨g', _, hg', rfl⟩
    refine ⟨.ifThenElse g body bodyClosing ⟨keyword, none⟩ other none c, ?_, ?_⟩
    · refine .ifThenElse hgoal hg ?_ hhead hother hrest
      simpa [ElseHead.tokens] using hbody
    · rw [Code.outline, bare_node, bare_node, bare_leaves, Else.outline, Condition.outline, ← hrun,
        ← hob]
      show Forest.node _ (.node _ _ (.node _ _ (.node _ (bare other.outline) _))) _ = _
      rw [hoo]
      rfl

/-- Every block of the grammar reads back. -/
theorem Body.exists_reads (b : Body) : b.ReadsBack := by
  intro ts h t ht s
  have hgoal : Goal.block 0 ≠ .nothing := by decide
  match b with
  | .done =>
    obtain rfl := List.map_eq_nil_iff.mp h
    exact ⟨.done, .close rfl ht, rfl⟩
  | .simple a rest =>
    rw [Body.spell] at h
    obtain ⟨ta, tr, rfl, ha, hr⟩ := List.map_eq_append_iff.mp h
    obtain ⟨x, hx, rfl⟩ := a.exists_writtenAs ha
    obtain ⟨c, hc, ho⟩ := rest.exists_reads hr ht s
    refine ⟨.simple x c, ?_, ?_⟩
    · rw [List.append_assoc]
      exact .simple hgoal hx.proper hc
    · rw [Code.outline, bare_node, hx.label, hx.parts, ho, Body.outline]
  | .loop kind condition body rest =>
    rw [Body.spell] at h
    obtain ⟨th, tail, rfl, hh, htail⟩ := List.map_eq_append_iff.mp h
    obtain ⟨tb, tail, rfl, hb, htail⟩ := List.map_eq_append_iff.mp htail
    obtain ⟨close, tr, rfl, hclose, hr⟩ := List.map_eq_cons_iff.mp htail
    obtain ⟨g, hg, rfl, hrun⟩ := condition.exists_header hh
    obtain ⟨cb, hcb, hob⟩ := body.exists_reads hb hclose (tr ++ t :: s)
    obtain ⟨c, hc, ho⟩ := rest.exists_reads hr ht s
    refine ⟨.loop kind g cb (some close) c, ?_, ?_⟩
    · have hloop := Reads.loop hgoal hg hcb hc
      rwa [List.append_assoc, List.append_assoc, List.cons_append]
    · rw [Code.outline, bare_node, bare_node, bare_leaves, hrun, ho, Body.outline,
        Condition.outline, ← hob]
      rfl
  | .branch condition body otherwise rest =>
    rw [Body.spell] at h
    obtain ⟨th, tail, rfl, hh, htail⟩ := List.map_eq_append_iff.mp h
    obtain ⟨tb, tail, rfl, hb, htail⟩ := List.map_eq_append_iff.mp htail
    obtain ⟨close, tail, rfl, hclose, htail⟩ := List.map_eq_cons_iff.mp htail
    obtain ⟨te, tr, rfl, he, hr⟩ := List.map_eq_append_iff.mp htail
    obtain ⟨g, hg, rfl, hrun⟩ := condition.exists_header hh
    obtain ⟨cb, hcb, hob⟩ := body.exists_reads hb hclose (te ++ (tr ++ t :: s))
    obtain ⟨c, hc, ho⟩ := rest.exists_reads hr ht s
    -- No statement begins with `else`, so the rest cannot be taken for a part of this `if`.
    obtain ⟨code, hcode, hoc⟩ :=
      otherwise.exists_reads (fun b _ => b.exists_reads) he (rest.not_elseAhead hr ht) hgoal hc hg
        hcb
    refine ⟨code, ?_, ?_⟩
    · simpa using hcode
    · rw [hoc, hrun, hob, ho, Body.outline, Condition.outline]
termination_by sizeOf b
decreasing_by
  all_goals
    simp only [Body.simple.sizeOf_spec, Body.loop.sizeOf_spec, Body.branch.sizeOf_spec]
    omega

/-! ## Functions -/

section Parameters

open ParameterList

variable {t type name : Token} {s : List Token}

theorem readItems_close (ht : t.word = .mark ")") : readItems 0 (t :: s) = ([], some t, s) := by
  have hclose := Token.isPunct_iff.mpr ht
  rw [readItems.eq_def]
  dsimp only
  rw [if_neg (Token.not_isPunct hclose (by decide)), if_pos hclose]

theorem readItems_comma (ht : t.word = .mark ",") {u : Token} :
    readItems 0 (t :: u :: s) = (.skipped t :: (readItems 0 (u :: s)).1,
      (readItems 0 (u :: s)).2.1, (readItems 0 (u :: s)).2.2) := by
  have hcomma := Token.isPunct_iff.mpr ht
  have htype : t.isTypeName = false := by
    rw [← Bool.not_eq_true, Token.isTypeName_iff, ht]
    exact fun h => absurd h.1 (by decide)
  rw [readItems.eq_def]
  dsimp only
  rw [if_neg (Token.not_isPunct hcomma (by decide)), if_neg (Token.not_isPunct hcomma (by decide)),
    htype, Bool.and_false, Bool.false_and, if_neg Bool.false_ne_true]

theorem readItems_parameter (htype : type.word.IsTypeName) (hname : name.word.IsName) :
    readItems 0 (type :: name :: s) =
      (.parameter type name :: (readItems 0 s).1, (readItems 0 s).2.1, (readItems 0 s).2.2) := by
  have hpunct : ∀ text, ¬ type.isPunct text = true := by
    intro text
    rw [Token.isPunct_iff]
    intro h
    have hkind := htype.1
    rw [h] at hkind
    exact absurd (show Token.Kind.punctuation = .keyword from hkind) (by decide)
  have htest : (0 == 0 && type.isTypeName && name.kind == .identifier) = true := by
    rw [Bool.and_eq_true, Bool.and_eq_true, Token.isTypeName_iff, Token.isName_iff]
    exact ⟨⟨rfl, htype⟩, hname⟩
  rw [readItems.eq_def]
  dsimp only
  rw [if_neg (hpunct _), if_neg (hpunct _), if_pos htest]

end Parameters

/-- The tree of a parameter that was read. -/
theorem Parameter.bare_outline (p : Parameter) {type name : Token} (htype : type.word = p.type.word)
    (hname : name.word = p.name.word) :
    bare (ParameterItem.parameter type name).outline = p.outline := by
  rw [outline, ← show type.text = p.type.text from congrArg Word.text htype,
    ← show name.text = p.name.text from congrArg Word.text hname]
  rfl

/-- Tokens that spell parameters are read as these, with the commas left out. -/
theorem exists_readItems (parameters : List Parameter) {ts : List Token}
    (h : words ts =
      [.mark ","].intercalate (parameters.map fun p => [p.type.word, p.name.word]))
    {t : Token} (ht : t.word = .mark ")") (s : List Token) :
    ∃ items, ParameterList.readItems 0 (ts ++ t :: s) = (items, some t, s) ∧
      bare (items.foldr (fun i rest => i.outline ++ rest) .nil) =
        parameters.foldr (fun p rest => p.outline ++ rest) .nil := by
  induction parameters generalizing ts with
  | nil =>
    obtain rfl := List.map_eq_nil_iff.mp h
    exact ⟨[], readItems_close ht, rfl⟩
  | cons p parameters ih =>
    cases parameters with
    | nil =>
      rw [List.map_cons, List.map_nil, List.intercalate_singleton] at h
      obtain ⟨type, ts, rfl, htype, h⟩ := List.map_eq_cons_iff.mp h
      obtain ⟨name, rfl, hname⟩ := List.map_eq_singleton_iff.mp h
      refine ⟨[.parameter type name], ?_, ?_⟩
      · rw [List.cons_append, List.singleton_append, readItems_parameter
          (TypeName.isTypeName_of_word htype) (Name.isName_of_word hname), readItems_close ht]
      · rw [List.foldr_cons, bare_append, p.bare_outline htype hname]
        rfl
    | cons q parameters =>
      rw [List.map_cons, List.map_cons, List.intercalate_cons_cons, List.append_assoc] at h
      obtain ⟨type, ts, rfl, htype, h⟩ := List.map_eq_cons_iff.mp h
      obtain ⟨name, ts, rfl, hname, h⟩ := List.map_eq_cons_iff.mp h
      obtain ⟨comma, ts, rfl, hcomma, h⟩ := List.map_eq_cons_iff.mp h
      obtain ⟨items, hitems, ho⟩ := ih h
      -- A parameter is looked for in two tokens at once, so a token must follow the comma.
      obtain ⟨u, more, hmore⟩ : ∃ u more, ts ++ t :: s = u :: more := by
        cases ts with
        | nil => exact ⟨t, s, rfl⟩
        | cons u ts => exact ⟨u, _, rfl⟩
      refine ⟨.parameter type name :: .skipped comma :: items, ?_, ?_⟩
      · rw [List.cons_append, List.cons_append, List.cons_append, readItems_parameter
          (TypeName.isTypeName_of_word htype) (Name.isName_of_word hname), hmore,
          readItems_comma hcomma, ← hmore, hitems]
      · rw [List.foldr_cons, bare_append, p.bare_outline htype hname, List.foldr_cons,
          List.foldr_cons, ← ho]
        rfl

/-- Tokens that spell what follows the parameters of a function are read as that. -/
theorem exists_readsTail (body : Option Body) {ts : List Token} (h : words ts = bodySpell body)
    (s : List Token) :
    ∃ block semicolon, BraceLang.Function.ReadsTail (ts ++ s) block semicolon s ∧
      bare ((block.map Block.outline).getD .nil) = bodyOutline body := by
  cases body with
  | none =>
    obtain ⟨semicolon, rfl, hsemi⟩ := List.map_eq_singleton_iff.mp h
    exact ⟨none, some semicolon, .semicolon hsemi, rfl⟩
  | some body =>
    obtain ⟨brace, tb, rfl, hbrace, h⟩ := List.map_eq_cons_iff.mp h
    obtain ⟨tb, last, rfl, hb, hlast⟩ := List.map_eq_append_iff.mp h
    obtain ⟨t, rfl, ht⟩ := List.map_eq_singleton_iff.mp hlast
    obtain ⟨c, hc, ho⟩ := body.exists_reads hb ht s
    refine ⟨some ⟨brace, c, some t⟩, none, ?_, ?_⟩
    · rw [List.cons_append, List.append_assoc]
      exact .body hbrace hc
    · rw [bodyOutline, ← ho]
      rfl

/-- Tokens that spell a function are read as that function. -/
theorem Function.exists_reads (f : Function) {ts : List Token} (h : words ts = f.spell)
    (s : List Token) :
    ∃ g : BraceLang.Function, BraceLang.Function.Reads (ts ++ s) g s ∧
      bare g.outline = f.outline := by
  obtain ⟨type, ts, rfl, htype, h⟩ := List.map_eq_cons_iff.mp h
  obtain ⟨name, ts, rfl, hname, h⟩ := List.map_eq_cons_iff.mp h
  obtain ⟨opening, ts, rfl, hopening, h⟩ := List.map_eq_cons_iff.mp h
  obtain ⟨tp, ts, rfl, hp, h⟩ := List.map_eq_append_iff.mp h
  obtain ⟨close, tb, rfl, hclose, hb⟩ := List.map_eq_cons_iff.mp h
  obtain ⟨items, hitems, hparameters⟩ := exists_readItems f.parameters hp hclose (tb ++ s)
  obtain ⟨block, semicolon, htail, hbody⟩ := exists_readsTail f.body hb s
  have hstart : BraceLang.Function.ProperStart type name opening :=
    ⟨TypeName.isTypeName_of_word htype, Name.isName_of_word hname, hopening⟩
  refine ⟨⟨type, name, ⟨opening, items, some close⟩, block, semicolon⟩, ?_, ?_⟩
  · have htail' : BraceLang.Function.ReadsTail
        (ParameterList.readItems 0 (tp ++ close :: (tb ++ s))).2.2 block semicolon s := by
      rw [hitems]
      exact htail
    have hreads := BraceLang.Function.Reads.intro hstart htail'
    rw [hitems] at hreads
    simpa using hreads
  · rw [outline, ← hparameters, ← hbody,
      ← show type.text = f.type.text from congrArg Word.text htype,
      ← show name.text = f.name.text from congrArg Word.text hname]
    cases block <;> rfl

/-! ## Programs -/

/-- Tokens that spell functions are read as these. -/
theorem exists_reads_functions (functions : List Function) {ts : List Token}
    (h : words ts = functions.flatMap Function.spell) :
    ∃ items, BraceLang.Program.Reads ts items ∧
      bare (BraceLang.Program.functionsOutline items) =
        functions.foldr (fun f rest => f.outline ++ rest) .nil := by
  induction functions generalizing ts with
  | nil =>
    obtain rfl := List.map_eq_nil_iff.mp h
    exact ⟨[], .nil, rfl⟩
  | cons f functions ih =>
    rw [List.flatMap_cons] at h
    obtain ⟨tf, ts, rfl, hf, h⟩ := List.map_eq_append_iff.mp h
    obtain ⟨g, hg, hog⟩ := f.exists_reads hf ts
    obtain ⟨items, hitems, ho⟩ := ih h
    refine ⟨.function g :: items, .function hg hitems, ?_⟩
    rw [List.foldr_cons, ← hog, ← ho, ← bare_append]
    rfl

/-- **Every program of the grammar is read, and nothing of it is lost.** Tokens that spell a program
    are read under each limit that is no less than the depth of the program, and the tree that is read
    is that of the program: it has the same nodes with the same kinds, values and children. -/
theorem read_spell (program : Program) {limit : Nat} {tokens : List Token}
    (htokens : words tokens = program.spell) (hlimit : program.depth ≤ limit) :
    ∃ p, BraceLang.Program.read limit tokens = .ok p ∧ p.tree.bare = program.tree := by
  obtain ⟨items, hitems, ho⟩ := exists_reads_functions program.functions htokens
  have houtline : bare (BraceLang.Program.mk items).outline = program.outline := by
    rw [Program.outline, ← ho]
    rfl
  refine ⟨⟨items⟩, ?_, ?_⟩
  · rw [hitems.read_eq]
    apply verdict_of_none
    apply firstBeyond?_eq_none
    rw [← depth_bare, houtline, program.depth_outline]
    exact hlimit
  · rw [BraceLang.Program.tree, Tree.bare_ofOutline, houtline, Program.tree]

/-- A word that is no punctuation is an expression. -/
def Expression.ofWord (w : Word) (hw : w.kind ≠ .punctuation) : Expression where
  run := [w]
  isExpression := by
    have hmark : ∀ text, w ≠ .mark text := fun text h => hw (congrArg Word.kind h)
    have hchanges : w.Changes 0 0 := by
      rw [Word.Changes, openings, closings, List.count_singleton, List.count_singleton,
        beq_eq_false_iff_ne.mpr (hmark ")"), beq_eq_false_iff_ne.mpr (hmark "(")]
    have hbrace : ¬ w.IsBrace := not_or.mpr ⟨hmark _, hmark _⟩
    have hseparator : ¬ w.IsSeparator := not_or.mpr ⟨hmark _, hmark _⟩
    exact isExpression_iff.mpr ⟨List.cons_ne_nil _ _,
      (closes_cons hchanges hbrace).mpr (closes_nil.mpr rfl),
      (undivided_cons hchanges).mpr ⟨fun h => absurd h hseparator, undivided_nil⟩⟩

/-- A function with a loop around an `if` that has two alternatives, and an announcement. -/
def chainInLoop : Program :=
  let name (text : String) : Expression := .ofWord ⟨.identifier, text⟩ nofun
  let condition (text : String) : Condition := ⟨(name text).run, (name text).isExpression.toBalanced⟩
  let int : TypeName := ⟨"int", by decide⟩
  let array : Statement := .declaration int ⟨"a"⟩
    (some ⟨[⟨.number, "8"⟩], by decide⟩) (some (name "n"))
  let call : Statement := .call ⟨"g"⟩ [⟨⟨.identifier, "n"⟩, rfl⟩, ⟨⟨.number, "1"⟩, rfl⟩]
  let step : Statement := .assignment ⟨"n"⟩ ⟨"-=", by decide⟩ (name "a")
  let branch : Body := .branch (condition "a") (.simple call .done)
    (.chain (condition "b") (.simple (.ret none) .done) (.block (.simple step .done))) .done
  ⟨[⟨int, ⟨"f"⟩, [⟨int, ⟨"n"⟩⟩, ⟨int, ⟨"b"⟩⟩],
      some (.simple array (.loop .whileLoop (condition "n") branch (.simple (.ret (name "n")) .done)))⟩,
    ⟨int, ⟨"g"⟩, [], none⟩]⟩

/-- The text of `chainInLoop`. -/
def chainInLoopTokens : List Token :=
  (tokenize ("int f(int n, int b) \x7b int a[8] = n; while (n) \x7b if (a) \x7b g(n, 1); \x7d " ++
    "else if (b) \x7b return; \x7d else \x7b n -= a; \x7d \x7d return n; \x7d int g();")).tokens

theorem read_spell_chainInLoop :
    words chainInLoopTokens = chainInLoop.spell ∧ chainInLoop.depth ≤ 4 ∧
      ∃ p, BraceLang.Program.read 4 chainInLoopTokens = .ok p ∧ p.tree.bare = chainInLoop.tree := by
  have htokens : words chainInLoopTokens = chainInLoop.spell := by decide +kernel
  have hlimit : chainInLoop.depth ≤ 4 := by decide
  exact ⟨htokens, hlimit, read_spell chainInLoop htokens hlimit⟩

end Grammar

end BraceLang
