import BraceLang.Proofs.Reading.Noise

/-!
# `Proofs.Reading.Wrapping` — a body put into a loop

What is read up to a closing brace depends on nothing behind it, and which token the brace is does not
matter either. So the body of a function that is closed can be moved to another place where a closing brace
stands behind it: into the block of a loop which takes the place of the body. The rest of the text is read
as before, for what stands in front of the body sees no more of it than its opening brace.

## Contents
- `SameToBrace`, texts that agree up to a closing brace, and `Code.Exchange`.
- **`Code.Reads.exchange`**, code with something else behind its closing brace.
- `Function.inLoop` with `Function.Reads.inLoop`, and `Function.Reads.exchange`.
- `Program.Reads.replace`, one function in the place of another, and `Program.reads_inLoop`.
-/

namespace BraceLang

variable {s s' rest rest' : List Token} {t : Token}

/-! ## Up to a closing brace -/

/-- The texts are the same up to a place where both of them have a closing brace. -/
def SameToBrace (s s' : List Token) : Prop :=
  ∃ front t more t' more', front ++ t :: more = s ∧ front ++ t' :: more' = s' ∧
    t.word = .mark "\x7d" ∧ t'.word = .mark "\x7d"

namespace SameToBrace

theorem symm (h : SameToBrace s s') : SameToBrace s' s := by
  obtain ⟨front, t, more, t', more', hs, hs', ht, ht'⟩ := h
  exact ⟨front, t', more', t, more, hs', hs, ht', ht⟩

theorem behind (h : SameToBrace s s') (run : List Token) : SameToBrace (run ++ s) (run ++ s') := by
  obtain ⟨front, t, more, t', more', rfl, rfl, ht, ht'⟩ := h
  exact ⟨run ++ front, t, more, t', more', List.append_assoc _ _ _, List.append_assoc _ _ _, ht, ht'⟩

theorem ne_nil (h : SameToBrace s s') : s ≠ [] := by
  obtain ⟨front, t, more, -, -, rfl, -⟩ := h
  exact List.append_ne_nil_of_right_ne_nil _ (List.cons_ne_nil t more)

/-- What has no closing brace in it and stands at the front of one text also does in the other. -/
theorem exists_append_eq {run : List Token} (h : SameToBrace s s') (hrun : ¬ HoldsClosing run)
    (hs' : run ++ rest' = s') : ∃ rest, run ++ rest = s ∧ SameToBrace rest rest' := by
  obtain ⟨front, t, more, t', more', rfl, rfl, ht, ht'⟩ := h
  rcases List.append_eq_append_iff.mp hs' with ⟨inner, rfl, rfl⟩ | ⟨inner, rfl, hmore⟩
  · exact ⟨inner ++ t :: more, (List.append_assoc _ _ _).symm, inner, t, more, t', more', rfl, rfl, ht, ht'⟩
  · cases inner with
    | nil => exact ⟨t :: more, by rw [List.append_nil], [], t, more, t', more', rfl, hmore, ht, ht'⟩
    | cons u inner =>
      obtain ⟨rfl, -⟩ := List.cons.inj hmore
      exact absurd ⟨_, List.mem_append_right front List.mem_cons_self, ht'⟩ hrun

theorem simpleAhead (h : SameToBrace s s') (hahead : Simple.Ahead s') : Simple.Ahead s := by
  obtain ⟨x, rest', hx, hs'⟩ := hahead
  obtain ⟨rest, hs, -⟩ := h.exists_append_eq hx.not_holdsClosing hs'
  exact ⟨x, rest, hx, hs⟩

theorem headerAhead {kind : HeaderKind} (h : SameToBrace s s') (hahead : Header.Ahead kind s') :
    Header.Ahead kind s := by
  obtain ⟨header, rest', hh, hs'⟩ := hahead
  obtain ⟨rest, hs, -⟩ := h.exists_append_eq hh.not_holdsClosing hs'
  exact ⟨header, rest, hh, hs⟩

theorem elseProper {e : ElseHead} (h : SameToBrace s s') (he : e.Proper s') : e.Proper s :=
  ⟨he.keyword, he.brace, fun hnone => h.headerAhead (he.header hnone)⟩

theorem elseAhead (h : SameToBrace s s') (hahead : ElseHead.Ahead s') : ElseHead.Ahead s := by
  obtain ⟨e, rest', he, hs'⟩ := hahead
  obtain ⟨rest, hs, hrest⟩ := h.exists_append_eq he.not_holdsClosing hs'
  exact ⟨e, rest, hrest.elseProper he, hs⟩

end SameToBrace

/-! ## Code -/

namespace Code

variable {goal : Goal} {c : Code} {closing closing' : Option Token}

/-- What can stand behind some code instead of its closing brace and the tokens that are left: another
    closing brace with whatever is left behind it, or the same brace, if what is left agrees up to a
    closing brace. -/
inductive Exchange : Option Token → List Token → Option Token → List Token → Prop
  | closing {t t' : Token} {rest rest' : List Token} (ht : t.word = .mark "\x7d")
      (ht' : t'.word = .mark "\x7d") : Exchange (some t) rest (some t') rest'
  | left {closing : Option Token} {rest rest' : List Token} (h : SameToBrace rest rest') :
      Exchange closing rest closing rest'

theorem Exchange.sameToBrace (h : Exchange closing rest closing' rest') :
    SameToBrace (closing.toList ++ rest) (closing'.toList ++ rest') := by
  cases h with
  | closing ht ht' => exact ⟨[], _, _, _, _, rfl, rfl, ht, ht'⟩
  | left h => exact h.behind _

theorem Reads.sameToBrace (h : Reads goal s c closing rest) (hx : Exchange closing rest closing' rest') :
    SameToBrace s (c.tokens ++ (closing'.toList ++ rest')) := by
  rw [← h.tokens_eq]
  exact hx.sameToBrace.behind _

/-- The token that closes some code is a closing brace. -/
theorem Reads.word_closing (h : Reads goal s c (some t) rest) : t.word = .mark "\x7d" := by
  generalize hclosing : some t = closing at h
  induction h with
  | nothing | atEnd => exact absurd hclosing (Option.some_ne_none t)
  | close _ ht =>
    obtain rfl := Option.some.inj hclosing
    exact ht
  | opened _ _ _ ih | closed _ _ _ _ ih | skip _ _ _ _ _ ih | simple _ _ _ ih => exact ih hclosing
  | loop _ _ _ _ _ ih | ifThen _ _ _ _ _ _ ih => exact ih hclosing
  | ifThenElse _ _ _ _ _ _ _ _ ih => exact ih hclosing

/-- **Code is read as before if something else stands behind its closing brace.** -/
theorem Reads.exchange (h : Reads goal s c closing rest) (hx : Exchange closing rest closing' rest') :
    Reads goal (c.tokens ++ (closing'.toList ++ rest')) c closing' rest' := by
  -- for a block in the code, what comes behind the block is a part of what is left
  induction h generalizing closing' rest' with
  | nothing =>
    cases hx with
    | left => exact .nothing
  | atEnd =>
    cases hx with
    | left hsame => exact absurd rfl hsame.ne_nil
  | close hgoal ht =>
    cases hx with
    | closing _ ht' => exact .close hgoal ht'
    | left => exact .close hgoal ht
  | opened hgoal ht _ ih => exact .opened hgoal ht (ih hx)
  | closed hgoal houter ht _ ih => exact .closed hgoal houter ht (ih hx)
  | @skip _ t _ _ _ _ hgoal ht hsimple hheader hrest ih =>
    have hsame := (hrest.sameToBrace hx).behind [t]
    refine .skip hgoal ht ?_ ?_ (ih hx)
    · exact fun hahead => hsimple (hsame.simpleAhead hahead)
    · exact fun kind hahead => hheader kind (hsame.headerAhead hahead)
  | simple hgoal hproper _ ih =>
    rw [tokens, List.append_assoc]
    exact .simple hgoal hproper (ih hx)
  | loop hgoal hh _ hrest ihb ih =>
    have hbody := ihb (.left (hrest.sameToBrace hx))
    simp only [tokens, List.append_assoc]
    exact .loop hgoal hh hbody (ih hx)
  | ifThen hgoal hh _ helse hrest ihb ih =>
    have hsame := hrest.sameToBrace hx
    simp only [tokens, List.append_assoc]
    exact .ifThen hgoal hh (ihb (.left hsame)) (fun hahead => helse (hsame.elseAhead hahead)) (ih hx)
  | @ifThenElse _ _ e _ _ _ _ _ _ _ _ _ _ hgoal hh _ he hother hrest ihb iho ih =>
    have hbehind := hrest.sameToBrace hx
    have hsame := hother.sameToBrace (.left hbehind)
    simp only [tokens, List.append_assoc]
    exact .ifThenElse hgoal hh (ihb (.left (hsame.behind e.tokens))) (hsame.symm.elseProper he)
      (iho (.left hbehind)) (ih hx)

end Code

/-! ## Functions -/

/-- The block with its contents in one loop, the block of which ends with the token `last`. -/
def Block.inLoop (kind : LoopKind) (header : Header) (last : Token) (b : Block) : Block :=
  ⟨b.brace, .loop kind header b.code (some last) .done, b.closing⟩

namespace Function

variable {f : Function} {body : Option Block} {semicolon : Option Token}

/-- The function with the contents of its body in one loop. -/
def inLoop (kind : LoopKind) (header : Header) (last : Token) (f : Function) : Function :=
  { f with body := f.body.map (Block.inLoop kind header last) }

theorem ReadsTail.exchange (h : ReadsTail s body semicolon rest) (hne : rest ≠ [])
    (hhead : rest'.head? = rest.head?) :
    ReadsTail ((body.map Block.tokens).getD [] ++ (semicolon.toList ++ rest')) body semicolon rest' := by
  cases h with
  | @body brace _ _ c closing ht hcode =>
    obtain ⟨t, rfl⟩ := Option.isSome_iff_exists.mp (hcode.isSome_closing hne)
    have hword := hcode.word_closing
    have hcode' : Code.Reads (.block 0) (c.tokens ++ t :: rest') c (some t) rest' :=
      hcode.exchange (.closing hword hword)
    simpa [Block.tokens] using ReadsTail.body ht hcode'
  | semicolon ht => exact .semicolon ht
  | nothing hs => exact .nothing (hhead ▸ hs)

/-- A function that does not end the text is read as before if something else stands behind it, as long
    as that begins in the same way. -/
theorem Reads.exchange (h : Reads s f rest) (hne : rest ≠ []) (hhead : rest'.head? = rest.head?) :
    Reads (f.tokens ++ rest') f rest' := by
  obtain ⟨tail, -, htail, hread⟩ := h.exists_tail (.inr hne)
  have hfunction := hread _ _ _ _ (htail.exchange hne hhead)
  simpa [tokens] using hfunction

/-- A function with a body has no semicolon. -/
theorem ReadsTail.semicolon_eq {b : Block} (h : ReadsTail s (some b) semicolon rest) :
    semicolon = none := by
  cases h
  rfl

theorem Reads.semicolon_eq {b : Block} (h : Reads s f rest) (hb : f.body = some b) :
    f.semicolon = none := by
  obtain ⟨-, htail⟩ := h
  obtain rfl : _ = some b := hb
  exact htail.semicolon_eq

/-- **A closed body is also read if its contents are put into a loop.** -/
theorem Reads.inLoop {b : Block} {closing last : Token} {kind : LoopKind} {header : Header}
    (h : Reads s f rest) (hb : f.body = some b) (hclosing : b.closing = some closing)
    (hheader : header.Proper (.loop kind)) (hlast : last.word = .mark "\x7d") :
    Reads ((f.inLoop kind header last).tokens ++ rest) (f.inLoop kind header last) rest := by
  obtain ⟨-, -, -, hread⟩ := h.exists_tail (.inl (by rw [hb]; rfl))
  obtain ⟨inner, -, hbrace, hcode⟩ := h.exists_block hb
  have hsemicolon := h.semicolon_eq hb
  rw [hclosing] at hcode
  have hword := hcode.word_closing
  have hinner : Code.Reads (.block 0) (b.code.tokens ++ last :: closing :: rest) b.code (some last)
      (closing :: rest) := hcode.exchange (.closing hword hlast)
  have hloop : Code.Reads (.block 0) _ _ _ _ := .loop nofun hheader hinner (.close rfl hword)
  have hfunction := hread _ _ none _ (.body hbrace hloop)
  have htokens : (f.inLoop kind header last).tokens ++ rest = f.type :: f.name :: (f.parameters.tokens ++
      b.brace :: (header.tokens ++ (b.code.tokens ++ last :: closing :: rest))) := by
    simp [tokens, Function.inLoop, hb, hsemicolon, Block.inLoop, Block.tokens, hclosing, Code.tokens]
  rw [htokens]
  simpa only [Function.inLoop, hb, Option.map_some, Block.inLoop, hclosing, hsemicolon] using hfunction

/-- A loop around the contents of the body adds one level of blocks. -/
theorem depth_inLoop {b : Block} (kind : LoopKind) (header : Header) (last : Token)
    (hb : f.body = some b) :
    (f.inLoop kind header last).outline.depth 0 = f.outline.depth 0 + 1 := by
  have houtline (f : Function) {b : Block} (hb : f.body = some b) :
      f.outline.depth 0 = b.code.outline.depth 1 := by
    rw [outline_eq, Outline.depth_single rfl, Outline.depth_append, f.depth_startOutline, Nat.zero_max,
      bodyOutline, hb]
    show Outline.depth 0 (.node _ b.code.outline .nil) = _
    rw [Outline.depth_block rfl]
    exact Nat.max_eq_left (Nat.zero_le _)
  have hloop : (b.inLoop kind header last).code.outline.depth 1 = b.code.outline.depth 1 + 1 := by
    rw [Block.inLoop, Code.outline, Outline.depth_node kind.isBlock_nodeKind, Outline.depth_node rfl,
      Outline.depth_leaves, Forest.single, Outline.depth_block rfl, Outline.depth_succ, Code.outline,
      Outline.depth]
    omega
  rw [houtline f hb, houtline (f.inLoop kind header last) (congrArg (Option.map _) hb), hloop]

/-- Whether a function begins can be told from three tokens. -/
theorem Ahead.of_take_eq (h : Ahead s') (heq : s'.take 3 = s.take 3) : Ahead s := by
  obtain ⟨type, name, opening, rest, hstart, rfl⟩ := h
  refine ⟨type, name, opening, s.drop 3, hstart, ?_⟩
  rw [← List.take_append_drop 3 s, ← heq]
  rfl

end Function

/-! ## Programs -/

namespace Program

variable {items before after : List ProgramItem} {f g : Function} {b : Block} {limit : Nat}

theorem tokens_append (items others : List ProgramItem) :
    (mk (items ++ others)).tokens = (mk items).tokens ++ (mk others).tokens :=
  List.flatMap_append

/-- If a function is put in the place of another one that begins in the same way, then the whole text
    does as well. -/
theorem take_tokens_replace (before after : List ProgramItem) (h : g.tokens.take 2 = f.tokens.take 2) :
    (mk (before ++ .function g :: after)).tokens.take 2 =
      (mk (before ++ .function f :: after)).tokens.take 2 := by
  have hfirst (f : Function) (n : Nat) (hn : n ≤ 2) :
      (mk (.function f :: after)).tokens.take n = (f.tokens.take 2).take n := by
    have hlength : 2 ≤ f.tokens.length := by
      simp only [Function.tokens, List.length_cons]
      omega
    show (f.tokens ++ (mk after).tokens).take n = _
    rw [List.take_append_of_le_length (by omega), List.take_take, Nat.min_eq_left hn]
  rw [tokens_append, tokens_append, List.take_append, List.take_append, hfirst g _ (Nat.sub_le _ _),
    hfirst f _ (Nat.sub_le _ _), h]

/-- **A function can be put in the place of another one that begins in the same way**, if it is read
    wherever that one is. -/
theorem Reads.replace (h : Reads s (before ++ .function f :: after))
    (hg : ∀ s rest, Function.Reads s f rest → Function.Reads (g.tokens ++ rest) g rest)
    (hstart : g.tokens.take 2 = f.tokens.take 2) :
    Reads (mk (before ++ .function g :: after)).tokens (before ++ .function g :: after) := by
  -- what stands in front of the function sees no more of the text behind it than two tokens
  induction before generalizing s with
  | nil =>
    cases h with
    | function hf hafter =>
      have hg' := hg _ _ hf
      rw [← hafter.tokens_eq] at hg' hafter
      exact .function hg' hafter
  | cons item before ih =>
    have htake := take_tokens_replace before after hstart
    cases h with
    | @skipped t _ _ hs hbefore =>
      obtain rfl := hbefore.tokens_eq
      exact .skipped (fun hahead => hs (hahead.of_take_eq (congrArg (t :: ·) htake))) (ih hbefore)
    | @function _ _ earlier _ hf hbefore =>
      obtain rfl := hbefore.tokens_eq
      have hne : (mk (before ++ .function f :: after)).tokens ≠ [] := by
        rw [tokens_append]
        exact List.append_ne_nil_of_right_ne_nil _ (List.cons_ne_nil f.type _)
      have hhead := congrArg List.head? htake
      rw [List.head?_take, List.head?_take, if_neg (by decide), if_neg (by decide)] at hhead
      exact .function (hf.exchange hne hhead) (ih hbefore)

/-- Under every limit under which a text is read it is read as the same program. -/
theorem Reads.eq_of_read {p : Program} (h : Reads s items) (hread : read limit s = .ok p) : p = ⟨items⟩ := by
  have hle := h.isOk_read_iff.mp (by rw [hread]; rfl)
  exact Except.ok.inj (hread.symm.trans (h.read_of_le hle))

/-- The text of a program with a function that has the body `b`, with the tokens `inner` between the braces
    of this body. -/
def textAround (before : List ProgramItem) (f : Function) (b : Block) (closing : Token)
    (after : List ProgramItem) (inner : List Token) : List Token :=
  (mk before).tokens ++ (f.type :: f.name :: (f.parameters.tokens ++
    b.brace :: (inner ++ closing :: (mk after).tokens)))

theorem tokens_eq_textAround {closing : Token} (before after : List ProgramItem) (hb : f.body = some b)
    (hclosing : b.closing = some closing) (hsemicolon : f.semicolon = none) :
    (mk (before ++ .function f :: after)).tokens = textAround before f b closing after b.code.tokens := by
  have hfunction : (mk (.function f :: after)).tokens = f.tokens ++ (mk after).tokens := rfl
  rw [tokens_append, hfunction, textAround]
  simp [Function.tokens, hb, hsemicolon, Block.tokens, hclosing]

section InLoop

variable {tokens : List Token} {p : Program} {closing last : Token} {kind : LoopKind} {header : Header}

/-- In the text of a program that was read, no function with a body has a semicolon. -/
theorem Reads.semicolon_eq (h : Reads s (before ++ .function f :: after)) (hb : f.body = some b) :
    f.semicolon = none := by
  have hmem : f ∈ (mk (before ++ .function f :: after)).functions := by
    rw [functions_append]
    exact List.mem_append_right _ List.mem_cons_self
  obtain ⟨_, _, hf⟩ := h.exists_reads_function hmem
  exact hf.semicolon_eq hb

/-- What stands between the braces of a body that is closed is the code of the body. -/
theorem textAround_eq (hread : read limit tokens = .ok p) (hitems : p.items = before ++ .function f :: after)
    (hb : f.body = some b) (hclosing : b.closing = some closing) :
    textAround before f b closing after b.code.tokens = tokens := by
  have hreads := reads_of_read hread
  rw [hitems] at hreads
  rw [← tokens_eq_textAround before after hb hclosing (hreads.semicolon_eq hb), hreads.tokens_eq]

/-- **The contents of a body that is closed can be put into a loop.** The text is then read as the same
    program but for the loop, with at most one more level of blocks. -/
theorem reads_inLoop (hread : read limit tokens = .ok p) (hitems : p.items = before ++ .function f :: after)
    (hb : f.body = some b) (hclosing : b.closing = some closing) (hheader : header.Proper (.loop kind))
    (hlast : last.word = .mark "\x7d") :
    Reads (textAround before f b closing after (header.tokens ++ (b.code.tokens ++ [last])))
        (before ++ .function (f.inLoop kind header last) :: after) ∧
      (mk (before ++ .function (f.inLoop kind header last) :: after)).outline.depth 0 ≤ limit + 1 := by
  have hreads := reads_of_read hread
  have hdepth := hreads.isOk_read_iff.mp (by rw [hread]; rfl)
  rw [hitems] at hreads hdepth
  have hloop : (f.inLoop kind header last).body = some (b.inLoop kind header last) :=
    congrArg (Option.map _) hb
  refine ⟨?_, ?_⟩
  · have hinner := hreads.replace (g := f.inLoop kind header last)
      (fun _ _ hf => hf.inLoop hb hclosing hheader hlast) rfl
    rw [tokens_eq_textAround before after hloop hclosing (hreads.semicolon_eq hb)] at hinner
    simpa [textAround, Block.inLoop, Function.inLoop, Code.tokens] using hinner
  · have hbeside (f : Function) : (functionsOutline (before ++ .function f :: after)).depth 0 =
        max ((functionsOutline before).depth 0)
          (max (f.outline.depth 0) ((functionsOutline after).depth 0)) := by
      rw [functionsOutline_append, Outline.depth_append]
      exact congrArg _ (Outline.depth_append f.outline (functionsOutline after) 0)
    rw [depth_outline, hbeside] at hdepth ⊢
    rw [Function.depth_inLoop kind header last hb]
    omega

end InLoop

end Program

end BraceLang
