import BraceLang.Proofs.Forest
import BraceLang.Proofs.Reading.Places
import BraceLang.Proofs.Scope.TreeScopes

/-!
# `Proofs.Reading.Concatenation` — texts one behind the other

What is read at a place may depend on all tokens behind it: a parenthesis is matched, a statement is
recognized by its semicolon, and an `else` is looked for behind a block. So tokens that are put behind
a text could change how the text is read, and where its last function is left open they do.

They do not if every function of the text is closed. No statement without a block and no header has a
closing brace in it, so while a closing brace is still ahead, what begins in front of it also ends there,
and whether something begins can be told from the tokens up to this brace.

## Contents
- `HoldsClosing`, tokens with a closing brace among them, and what stands ahead of such tokens.
- **`Code.Reads.append`**, with `Code.Reads.blocksClosed`.
- `Terminated` and `Program.IsClosed`, texts that may be followed by others, with `IsClosed.blocksClosed`.
- `Function.Reads.append` and `Program.Reads.append`.
- `Tree.Unites`, two trees under one root, and **`Program.read_append`**.
-/

namespace BraceLang

variable {s more run : List Token} {t : Token}

/-! ## In front of a closing brace -/

/-- Some token of the run is a closing brace. -/
def HoldsClosing (run : List Token) : Prop := ∃ t ∈ run, t.word = .mark "\x7d"

theorem holdsClosing_append :
    HoldsClosing (run ++ more) ↔ HoldsClosing run ∨ HoldsClosing more := by
  simp [HoldsClosing, or_and_right, exists_or]

theorem HoldsClosing.behind (hs : HoldsClosing s) (front : List Token) : HoldsClosing (front ++ s) :=
  holdsClosing_append.mpr (.inr hs)

/-- What has no closing brace in it and stands in front of tokens with such a brace is there before
    anything is put behind these tokens. -/
theorem HoldsClosing.exists_append_eq {rest : List Token} (hs : HoldsClosing s)
    (hrun : ¬ HoldsClosing run) (h : run ++ rest = s ++ more) :
    ∃ inner, run ++ inner = s ∧ inner ++ more = rest ∧ HoldsClosing inner := by
  rcases List.append_eq_append_iff.mp h with ⟨inner, rfl, rfl⟩ | ⟨beyond, rfl, -⟩
  · exact ⟨inner, rfl, rfl, (holdsClosing_append.mp hs).resolve_left hrun⟩
  · exact absurd (holdsClosing_append.mpr (.inl hs)) hrun

theorem Simple.Proper.not_holdsClosing {x : Simple} (hx : x.Proper) : ¬ HoldsClosing x.tokens := by
  rintro ⟨t, ht, hword⟩
  exact hx.no_brace t ht (.inr hword)

theorem Header.Proper.not_holdsClosing {kind : HeaderKind} {h : Header} (hh : h.Proper kind) :
    ¬ HoldsClosing h.tokens := by
  rintro ⟨t, ht, hword⟩
  have hparts : t ∈ h.keyword :: h.opening :: (h.condition ++ [h.closing]) ∨ t = h.brace := by
    simpa [tokens, or_assoc] using ht
  rcases hparts with hin | rfl
  · exact hh.no_brace t hin (.inr hword)
  · rw [hh.brace] at hword
    exact absurd (congrArg Word.text hword) (by decide)

theorem ElseHead.Proper.not_holdsClosing {e : ElseHead} (he : e.Proper s) :
    ¬ HoldsClosing e.tokens := by
  rintro ⟨t, ht, hword⟩
  rcases List.mem_cons.mp ht with rfl | hbrace
  · rw [he.keyword] at hword
    exact Word.reserved_ne_mark _ _ hword
  · rw [he.brace t (Option.mem_toList.mp hbrace)] at hword
    exact absurd (congrArg Word.text hword) (by decide)

theorem Simple.Ahead.of_append (h : Ahead (s ++ more)) (hs : HoldsClosing s) : Ahead s := by
  obtain ⟨x, rest, hx, hrest⟩ := h
  obtain ⟨inner, hinner, -, -⟩ := hs.exists_append_eq hx.not_holdsClosing hrest
  exact ⟨x, inner, hx, hinner⟩

theorem Header.Ahead.of_append {kind : HeaderKind} (h : Ahead kind (s ++ more))
    (hs : HoldsClosing s) : Ahead kind s := by
  obtain ⟨h, rest, hh, hrest⟩ := h
  obtain ⟨inner, hinner, -, -⟩ := hs.exists_append_eq hh.not_holdsClosing hrest
  exact ⟨h, inner, hh, hinner⟩

theorem Header.Ahead.append {kind : HeaderKind} (h : Ahead kind s) (more : List Token) :
    Ahead kind (s ++ more) := by
  obtain ⟨h, rest, hh, rfl⟩ := h
  exact ⟨h, rest ++ more, hh, (List.append_assoc _ _ _).symm⟩

theorem ElseHead.Proper.append {e : ElseHead} (he : e.Proper s) (more : List Token) :
    e.Proper (s ++ more) :=
  ⟨he.keyword, he.brace, fun hnone => (he.header hnone).append more⟩

theorem ElseHead.Ahead.of_append (h : Ahead (s ++ more)) (hs : HoldsClosing s) : Ahead s := by
  obtain ⟨e, rest, he, hrest⟩ := h
  obtain ⟨inner, hinner, rfl, hclosing⟩ := hs.exists_append_eq he.not_holdsClosing hrest
  exact ⟨e, inner, ⟨he.keyword, he.brace, fun hnone => (he.header hnone).of_append hclosing⟩, hinner⟩

/-! ## Code -/

namespace Code

variable {goal : Goal} {rest middle : List Token} {c body : Code} {closing bodyClosing : Option Token}

theorem Reads.holdsClosing (h : Reads goal s c closing rest)
    (hclosing : HoldsClosing (closing.toList ++ rest)) : HoldsClosing s := by
  rw [← h.tokens_eq]
  exact hclosing.behind _

/-- **Code is read as before if something is put behind a closing brace.** The brace is the one that
    ends the code, or it is still ahead. -/
theorem Reads.append (h : Reads goal s c closing rest)
    (hclosing : HoldsClosing (closing.toList ++ rest)) (more : List Token) :
    Reads goal (s ++ more) c closing (rest ++ more) := by
  -- behind each part of the code there is a closing brace, for there is one behind all of it
  induction h with
  | nothing => exact .nothing
  | atEnd =>
    obtain ⟨t, ht, -⟩ := hclosing
    exact absurd ht List.not_mem_nil
  | close hgoal ht => exact .close hgoal ht
  | opened hgoal ht _ ih => exact .opened hgoal ht (ih hclosing)
  | closed hgoal houter ht _ ih => exact .closed hgoal houter ht (ih hclosing)
  | @skip goal t s rest c closing hgoal ht hsimple hheader hrest ih =>
    have hahead : HoldsClosing (t :: s) := (hrest.holdsClosing hclosing).behind [t]
    refine .skip hgoal ht ?_ ?_ (ih hclosing)
    · exact fun hmore => hsimple (Simple.Ahead.of_append hmore hahead)
    · exact fun kind hmore => hheader kind (Header.Ahead.of_append hmore hahead)
  | simple hgoal hx _ ih =>
    rw [List.append_assoc]
    exact .simple hgoal hx (ih hclosing)
  | loop hgoal hh _ hrest ihb ih =>
    have hmiddle := hrest.holdsClosing hclosing
    rw [List.append_assoc]
    exact .loop hgoal hh (ihb (hmiddle.behind _)) (ih hclosing)
  | ifThen hgoal hh _ helse hrest ihb ih =>
    have hmiddle := hrest.holdsClosing hclosing
    rw [List.append_assoc]
    exact .ifThen hgoal hh (ihb (hmiddle.behind _)) (fun hmore => helse (hmore.of_append hmiddle))
      (ih hclosing)
  | @ifThenElse _ _ e _ _ _ _ _ _ _ _ _ _ hgoal hh _ he hother hrest ihb iho ih =>
    have hmiddle := hrest.holdsClosing hclosing
    have hbehind := (hother.holdsClosing (hmiddle.behind _)).behind e.tokens
    have hbody := ihb (hbehind.behind _)
    rw [List.append_assoc] at hbody ⊢
    exact .ifThenElse hgoal hh hbody (he.append more) (iho (hmiddle.behind _)) (ih hclosing)

/-- Every block in the code that begins with a brace ends with one. -/
def BlocksClosed : Code → Prop
  | done => True
  | skip _ rest | simple _ rest => rest.BlocksClosed
  | loop _ _ body closing rest | ifThen _ body closing rest =>
    (closing.isSome = true ∧ body.BlocksClosed) ∧ rest.BlocksClosed
  | ifThenElse _ body closing e other otherClosing rest =>
    (closing.isSome = true ∧ body.BlocksClosed) ∧
      ((e.brace.isSome = true → otherClosing.isSome = true) ∧ other.BlocksClosed) ∧ rest.BlocksClosed

/-- A block that has tokens behind it is closed. -/
theorem Reads.isSome_closing (h : Reads (.block 0) s c closing rest) (hrest : rest ≠ []) :
    closing.isSome = true := by
  obtain ⟨_, -, -, hreached⟩ := h.ends (fun hgoal => Goal.noConfusion hgoal)
  cases closing with
  | none =>
    rcases hreached rfl with hnil | ⟨-, hbraces⟩
    · exact absurd hnil hrest
    · exact absurd hbraces Nat.one_ne_zero
  | some t => rfl

/-- A block is closed by a brace. -/
theorem Reads.holdsClosing_closing (h : Reads (.block 0) s c closing rest)
    (hclosing : closing.isSome = true) : HoldsClosing (closing.toList ++ rest) := by
  obtain ⟨_, -, hclosed, -⟩ := h.ends (fun hgoal => Goal.noConfusion hgoal)
  obtain ⟨t, rfl⟩ := Option.isSome_iff_exists.mp hclosing
  exact ⟨t, List.mem_cons_self, Token.isPunct_iff.mp (hclosed t rfl).1⟩

/-- **The blocks inside a closed block are closed.** -/
theorem Reads.blocksClosed (h : Reads goal s c closing rest)
    (hclosing : HoldsClosing (closing.toList ++ rest)) : c.BlocksClosed := by
  have hne {run : List Token} (hrun : HoldsClosing run) : run ≠ [] := by
    rintro rfl
    obtain ⟨t, ht, -⟩ := hrun
    exact absurd ht List.not_mem_nil
  induction h with
  | nothing | atEnd | close => trivial
  | opened _ _ _ ih | closed _ _ _ _ ih | skip _ _ _ _ _ ih | simple _ _ _ ih => exact ih hclosing
  | loop _ _ hbody hrest ihb ih | ifThen _ _ hbody _ hrest ihb ih =>
    have hmiddle := hrest.holdsClosing hclosing
    exact ⟨⟨hbody.isSome_closing (hne hmiddle), ihb (hmiddle.behind _)⟩, ih hclosing⟩
  | @ifThenElse _ _ e _ _ _ _ _ _ _ _ _ _ _ _ hbody _ hother hrest ihb iho ih =>
    have hmiddle := hrest.holdsClosing hclosing
    have hbehind := (hother.holdsClosing (hmiddle.behind _)).behind e.tokens
    refine ⟨⟨hbody.isSome_closing (hne hbehind), ihb (hbehind.behind _)⟩,
      ⟨fun hbrace => ?_, iho (hmiddle.behind _)⟩, ih hclosing⟩
    rw [ElseHead.goal, if_pos hbrace] at hother
    exact hother.isSome_closing (hne hmiddle)

end Code

/-! ## Functions -/

/-- The run is empty, or its last token is a closing brace or a semicolon. -/
def Terminated (run : List Token) : Prop :=
  ∀ t ∈ run.getLast?, t.word = .mark "\x7d" ∨ t.word = .mark ";"

instance (run : List Token) : Decidable (Terminated run) :=
  inferInstanceAs (Decidable (∀ t ∈ run.getLast?, _ ∨ _))

theorem Terminated.of_append (h : Terminated (run ++ s)) : Terminated s := by
  intro t ht
  apply h
  rw [List.getLast?_append, Option.mem_def.mp ht]
  rfl

/-- The last token is no name, no type and no parenthesis. -/
theorem Terminated.of_concat (h : Terminated (run ++ [t])) : t.word.kind = .punctuation ∧
    t.word.text ≠ ")" := by
  have hlast := h t (by simp)
  rcases hlast with hword | hword
  · rw [hword]
    decide
  · rw [hword]
    decide

namespace ParameterList

variable {depth : Nat} {closing : Token}

/-- A parameter list that is closed is read as before if something else comes behind it. -/
theorem readItems_closed (h : (readItems depth s).2.1 = some closing) (behind : List Token) :
    readItems depth ((readItems depth s).1.flatMap ParameterItem.tokens ++ closing :: behind) =
      ((readItems depth s).1, some closing, behind) := by
  fun_induction readItems depth s with
  | case1 | case7 => exact absurd h.symm (Option.some_ne_none closing)
  | case2 depth t s hopen items found rest hread ih =>
    simp only [hread] at ih
    rw [List.flatMap_cons, ParameterItem.tokens, List.singleton_append, List.cons_append,
      readItems.eq_def]
    dsimp only
    rw [if_pos hopen, ih h]
  | case3 t s hopen hclose =>
    obtain rfl := Option.some.inj h
    rw [List.flatMap_nil, List.nil_append, readItems.eq_def]
    dsimp only
    rw [if_neg hopen, if_pos hclose]
  | case4 t s hopen hclose depth items found rest hread ih =>
    simp only [hread] at ih
    rw [List.flatMap_cons, ParameterItem.tokens, List.singleton_append, List.cons_append,
      readItems.eq_def]
    dsimp only
    rw [if_neg hopen, if_pos hclose, ih h]
  | case5 depth t hopen hclose name s htest items found rest hread ih =>
    simp only [hread] at ih
    rw [List.flatMap_cons, ParameterItem.tokens, List.append_assoc, List.cons_append, List.cons_append,
      List.nil_append, readItems.eq_def]
    dsimp only
    rw [if_neg hopen, if_neg hclose, if_pos htest, ih h]
  | case6 depth t hopen hclose name s htest items found rest hread ih =>
    -- the token behind this one stays the same, so it still takes no part in a parameter
    have hitems := readItems_tokens depth (name :: s)
    simp only [hread] at ih hitems
    obtain ⟨others, hbehind⟩ : ∃ others,
        items.flatMap ParameterItem.tokens ++ closing :: behind = name :: others := by
      rw [show found = some closing from h] at hitems
      cases hrow : items.flatMap ParameterItem.tokens with
      | nil =>
        rw [hrow] at hitems
        exact ⟨behind, by rw [(List.cons.inj hitems).1]; rfl⟩
      | cons first row =>
        rw [hrow] at hitems
        exact ⟨row ++ closing :: behind, by rw [(List.cons.inj hitems).1]; rfl⟩
    have hagain := ih h
    rw [hbehind] at hagain
    rw [List.flatMap_cons, ParameterItem.tokens, List.singleton_append, List.cons_append, hbehind,
      readItems.eq_def]
    dsimp only
    rw [if_neg hopen, if_neg hclose, if_neg htest, hagain]

/-- A parameter list that is closed is read as before if something is put behind it. -/
theorem readItems_append (h : (readItems depth s).2.1.isSome = true) (more : List Token) :
    readItems depth (s ++ more) =
      ((readItems depth s).1, (readItems depth s).2.1, (readItems depth s).2.2 ++ more) := by
  obtain ⟨closing, hclosing⟩ := Option.isSome_iff_exists.mp h
  have hread := readItems_closed hclosing ((readItems depth s).2.2 ++ more)
  have hitems := congrArg (· ++ more) (readItems_tokens depth s)
  simp only [hclosing, Option.toList_some, List.append_assoc, List.cons_append, List.nil_append] at hitems
  rw [hitems] at hread
  rw [hread, hclosing]

/-- The parenthesis that closes a parameter list. -/
theorem word_closing_readItems (h : t ∈ (readItems depth s).2.1) : t.word = .mark ")" := by
  fun_induction readItems depth s with
  | case1 | case7 => exact absurd h (Option.not_mem_none t)
  | case3 u s hopen hclose =>
    obtain rfl := Option.mem_some.mp h
    exact Token.isPunct_iff.mp hclose
  | case2 _ _ _ _ _ _ _ hread ih | case4 _ _ _ _ _ _ _ _ hread ih
  | case5 _ _ _ _ _ _ _ _ _ _ hread ih | case6 _ _ _ _ _ _ _ _ _ _ hread ih =>
    rw [hread] at ih
    exact ih h

/-- A terminated text goes on behind a parameter list in it. -/
theorem readItems_rest_ne_nil (h : (readItems depth s).2.1.isSome = true) (hs : Terminated s) :
    (readItems depth s).2.2 ≠ [] := by
  obtain ⟨closing, hclosing⟩ := Option.isSome_iff_exists.mp h
  intro hnil
  have hitems := readItems_tokens depth s
  rw [hnil, hclosing, List.append_nil] at hitems
  rw [← hitems] at hs
  exact hs.of_concat.2 (congrArg Word.text (word_closing_readItems hclosing))

end ParameterList

namespace Function

variable {rest : List Token} {f : Function} {body : Option Block} {semicolon : Option Token}

/-- The parameter list ends at its parenthesis, and the body, if there is one, at its brace. By
    `Reads.blocksClosed` the blocks inside the body then end at their own braces. -/
def IsClosed (f : Function) : Prop :=
  f.parameters.closing.isSome = true ∧ ∀ b ∈ f.body, b.closing.isSome = true

instance (f : Function) : Decidable f.IsClosed :=
  inferInstanceAs (Decidable (_ ∧ ∀ b ∈ f.body, _))

/-- No function begins in the last two tokens of a terminated text. -/
theorem Ahead.of_append (h : Ahead (s ++ more)) (hne : s ≠ []) (hs : Terminated s) : Ahead s := by
  obtain ⟨type, name, opening, rest, hstart, happend⟩ := h
  match s with
  | [] => exact absurd rfl hne
  | [t] =>
    obtain ⟨htype, -⟩ := List.cons.inj happend
    have hkind := (@Terminated.of_concat [] t hs).1
    rw [← htype, hstart.type.1] at hkind
    nomatch hkind
  | [t, u] =>
    obtain ⟨-, happend'⟩ := List.cons.inj happend
    obtain ⟨hname, -⟩ := List.cons.inj happend'
    have hkind := (@Terminated.of_concat [t] u hs).1
    rw [← hname, show name.word.kind = .identifier from hstart.name] at hkind
    nomatch hkind
  | t :: u :: v :: s =>
    obtain ⟨htype, happend'⟩ := List.cons.inj happend
    obtain ⟨hname, happend''⟩ := List.cons.inj happend'
    obtain ⟨hopening, -⟩ := List.cons.inj happend''
    exact ⟨type, name, opening, s, hstart, by rw [htype, hname, hopening]⟩

/-- What follows the parameters of a function is read as before if it is closed. An announcement
    without a semicolon could get a body, so it must have something behind it. -/
theorem ReadsTail.append (h : ReadsTail s body semicolon rest) (hne : s ≠ [])
    (hbody : ∀ b ∈ body, b.closing.isSome = true) (more : List Token) :
    ReadsTail (s ++ more) body semicolon (rest ++ more) := by
  cases h with
  | body ht hcode => exact .body ht (hcode.append (hcode.holdsClosing_closing (hbody _ rfl)) more)
  | semicolon ht => exact .semicolon ht
  | nothing hs =>
    refine .nothing ?_
    rwa [List.head?_append_of_ne_nil _ hne]

/-- **A closed function is read as before if something is put behind its text.** -/
theorem Reads.append (h : Reads s f rest) (hf : f.IsClosed) (hs : Terminated s) (more : List Token) :
    Reads (s ++ more) f (rest ++ more) := by
  obtain ⟨hparameters, hbody⟩ := hf
  obtain ⟨hstart, htail⟩ := h
  rename_i type name opening s body semicolon
  have hbehind := ParameterList.readItems_rest_ne_nil hparameters
    (@Terminated.of_append s [type, name, opening] hs)
  have hread := ParameterList.readItems_append hparameters more
  have htail' : ReadsTail (ParameterList.readItems 0 (s ++ more)).2.2 body semicolon (rest ++ more) := by
    rw [hread]
    exact htail.append hbehind hbody more
  have hfunction := Reads.intro hstart htail'
  rwa [hread] at hfunction

theorem ReadsTail.blocksClosed (h : ReadsTail s body semicolon rest)
    (hbody : ∀ b ∈ body, b.closing.isSome = true) : ∀ b ∈ body, b.code.BlocksClosed := by
  cases h with
  | body ht hcode =>
    intro b hb
    obtain rfl := Option.mem_some.mp hb
    exact hcode.blocksClosed (hcode.holdsClosing_closing (hbody _ rfl))
  | semicolon | nothing => exact nofun

/-- All blocks of a closed function are closed. -/
theorem Reads.blocksClosed (h : Reads s f rest) (hf : f.IsClosed) :
    ∀ b ∈ f.body, b.code.BlocksClosed := by
  obtain ⟨-, htail⟩ := h
  exact htail.blocksClosed hf.2

end Function

/-! ## Two trees under one root -/

/-- The label, made to end with the last of some tokens, or where it starts if there are none. -/
def Label.endingWith (l : Label) (tokens : List Token) : Label :=
  { l with
    stop := (tokens.getLast?.map Token.endPosition).getD l.start
    span := ⟨l.span.start, (tokens.getLast?.map fun t => t.span.stop).getD l.span.start⟩ }

/-- The nodes of `t` are those of one tree and behind them those of another with greater numbers, which
    come after the last one of the first tree. There is one root, which ends with the tokens and has the
    children of both. -/
def Tree.Unites (t first second : Tree) (tokens : List Token) : Prop :=
  ∃ root nodes root' nodes',
    first.nodes.toList = root :: nodes ∧ second.nodes.toList = root' :: nodes' ∧
    t.nodes.toList = ⟨root.id, root.label.endingWith tokens,
      root.children ++ root'.children.map (· + (first.size - 1))⟩ ::
        (nodes ++ nodes'.map (Tree.Node.raise (first.size - 1)))

namespace Program

variable {items others : List ProgramItem} {tokens : List Token}

/-- Every function of the program is closed, and the last token, if there is one, is a closing brace or a
    semicolon. -/
def IsClosed (p : Program) : Prop := (∀ f ∈ p.functions, f.IsClosed) ∧ Terminated p.tokens

instance (p : Program) : Decidable p.IsClosed :=
  inferInstanceAs (Decidable ((∀ f ∈ p.functions, f.IsClosed) ∧ Terminated p.tokens))

/-- Each function of a program was read as one. -/
theorem Reads.exists_reads_function {f : Function} (h : Reads s items) (hf : f ∈ (mk items).functions) :
    ∃ s rest, Function.Reads s f rest := by
  induction h with
  | nil => exact absurd hf List.not_mem_nil
  | skipped _ _ ih => exact ih hf
  | function hread _ ih =>
    rcases List.mem_cons.mp hf with rfl | hin
    · exact ⟨_, _, hread⟩
    · exact ih hin

/-- **All blocks of a closed program are closed.** -/
theorem IsClosed.blocksClosed {limit : Nat} {p : Program} (hclosed : p.IsClosed)
    (hread : read limit tokens = .ok p) : ∀ f ∈ p.functions, ∀ b ∈ f.body, b.code.BlocksClosed := by
  intro f hf
  obtain ⟨s, rest, hfunction⟩ := (reads_of_read hread).exists_reads_function hf
  exact hfunction.blocksClosed (hclosed.1 f hf)

/-- **A text with closed functions is read as before if another text is put behind it**, and so is the
    other text. -/
theorem Reads.append (h : Reads s items) (hclosed : ∀ f ∈ (mk items).functions, f.IsClosed)
    (hs : Terminated s) (hmore : Reads more others) : Reads (s ++ more) (items ++ others) := by
  induction h with
  | nil => exact hmore
  | @skipped t s items hnot hrest ih =>
    have hahead : ¬ Function.Ahead (t :: s ++ more) := by
      intro hahead
      exact hnot (hahead.of_append (List.cons_ne_nil t s) hs)
    exact .skipped hahead (ih hclosed (@Terminated.of_append s [t] hs))
  | @function s rest f items hf hrest ih =>
    have hf' := hf.append (hclosed f List.mem_cons_self) hs more
    rw [← hf.tokens_eq] at hs
    exact .function hf' (ih (fun g hg => hclosed g (List.mem_cons_of_mem f hg)) hs.of_append)

theorem functions_append (items others : List ProgramItem) :
    (mk (items ++ others)).functions = (mk items).functions ++ (mk others).functions :=
  List.filterMap_append

theorem functionsOutline_append (items others : List ProgramItem) :
    functionsOutline (items ++ others) = functionsOutline items ++ functionsOutline others := by
  rw [functionsOutline, functions_append, Forest.foldr_append]
  rfl

theorem scopes_append (config : Config) (items others : List ProgramItem) :
    (mk (items ++ others)).scopes config = (mk items).scopes config ++ (mk others).scopes config := by
  rw [scopes, functions_append, Forest.foldr_append]
  rfl

theorem depth_outline (items : List ProgramItem) :
    (mk items).outline.depth 0 = (functionsOutline items).depth 0 :=
  Outline.depth_single rfl 0

/-- The root of a program ends with its last token. -/
theorem label_eq_endingWith (p q : Program) : p.label = q.label.endingWith p.tokens := by
  rw [label, label, Label.endingWith, p.getLast?_tokens]

theorem unites_append (items others : List ProgramItem) :
    (mk (items ++ others)).tree.Unites (mk items).tree (mk others).tree (mk (items ++ others)).tokens := by
  have hnodes (items : List ProgramItem) : (mk items).tree.nodes.toList =
      ⟨Tree.root, (mk items).label, (functionsOutline items).rootIds 1⟩ ::
        (functionsOutline items).number 1 := by
    show (Outline.number 0 (.node _ (functionsOutline items) .nil)) = _
    rw [Outline.number, Outline.number, List.append_nil]
    rfl
  have hsize : (mk items).tree.size - 1 = (functionsOutline items).size := by
    rw [Tree.size, ← Array.length_toList, hnodes, List.length_cons, Outline.length_number,
      Nat.add_sub_cancel]
  refine ⟨_, _, _, _, hnodes items, hnodes others, ?_⟩
  rw [hnodes, hsize, functionsOutline_append, Outline.rootIds_append, Outline.number_append,
    Outline.rootIds_add, Outline.number_add, ← label_eq_endingWith]

/-- **Closed texts are read independently.** With another text behind it, a text of closed functions is
    read within a limit if and only if both are, and then the tree is that of the first text with the
    functions of the second behind its own, and the scopes are those of both. -/
theorem read_append {depth : Nat} {p : Program} (hread : read depth tokens = .ok p)
    (hclosed : p.IsClosed) (more : List Token) (limit : Nat) :
    ((read limit (tokens ++ more)).isOk = true ↔
      (read limit tokens).isOk = true ∧ (read limit more).isOk = true) ∧
    ∀ joint, read limit (tokens ++ more) = .ok joint →
      ∃ q, read limit tokens = .ok p ∧ read limit more = .ok q ∧
        joint.tree.Unites p.tree q.tree (tokens ++ more) ∧
        ∀ config, ∃ scopes others, p.tree.scopes config = .ok scopes ∧
          q.tree.scopes config = .ok others ∧ joint.tree.scopes config = .ok (scopes ++ others) := by
  obtain ⟨others, hothers⟩ := exists_reads more
  have hitems := reads_of_read hread
  have hterminated : Terminated tokens := read_tokens hread ▸ hclosed.2
  have hjoint := hitems.append hclosed.1 hterminated hothers
  have hok : (read limit (tokens ++ more)).isOk = true ↔
      (read limit tokens).isOk = true ∧ (read limit more).isOk = true := by
    rw [hjoint.isOk_read_iff, hitems.isOk_read_iff, hothers.isOk_read_iff, depth_outline,
      functionsOutline_append, Outline.depth_append, Nat.max_le, depth_outline, depth_outline]
  refine ⟨hok, ?_⟩
  intro joint h
  have hboth := hok.mp (by rw [h]; rfl)
  have hjoint' := hjoint.read_of_le (hjoint.isOk_read_iff.mp (hok.mpr hboth))
  obtain rfl := Except.ok.inj (hjoint'.symm.trans h)
  refine ⟨mk others, hitems.read_of_le (hitems.isOk_read_iff.mp hboth.1),
    hothers.read_of_le (hothers.isOk_read_iff.mp hboth.2), ?_, ?_⟩
  · rw [← read_tokens h]
    exact unites_append p.items others
  · intro config
    refine ⟨_, _, p.scopes_tree config, (mk others).scopes_tree config, ?_⟩
    rw [scopes_tree, scopes_append]

/-- A parenthesis is left open in the body of the first function. -/
def closedText : List Token :=
  (tokenize "int f(int a) \x7b if (a) \x7b g(a; \x7d \x7d void g(int a);").tokens

/-- A parenthesis and a brace close nothing, and the body of the function is left open. -/
def openText : List Token := (tokenize "); \x7d void h() \x7b int b = 1;").tokens

theorem read_append_closedText :
    ∃ p q joint, read 2 closedText = .ok p ∧ p.IsClosed ∧ read 2 openText = .ok q ∧
      read 2 (closedText ++ openText) = .ok joint ∧
      joint.tree.Unites p.tree q.tree (closedText ++ openText) := by
  have hok : (read 2 closedText).isOk = true := by decide +kernel
  have hboth : (read 2 (closedText ++ openText)).isOk = true := by decide +kernel
  have hall : ((read 2 closedText).toOption.all fun p => decide p.IsClosed) = true := by
    decide +kernel
  obtain ⟨p, hread⟩ := exists_ok_of_isOk hok
  obtain ⟨joint, hjoint⟩ := exists_ok_of_isOk hboth
  rw [hread] at hall
  have hclosed : p.IsClosed := of_decide_eq_true hall
  obtain ⟨-, hunites⟩ := read_append hread hclosed openText 2
  obtain ⟨q, -, hq, htree, -⟩ := hunites joint hjoint
  exact ⟨p, q, joint, hread, hclosed, hq, hjoint, htree⟩

/-- An announcement without a semicolon gets the body that is put behind it. -/
example : (read 1 ((tokenize "void f()").tokens ++ (tokenize "\x7b \x7d").tokens)).toOption.map
    (fun p => p.functions.map fun f => f.body.isSome) = some [true] := by decide +kernel

end Program

end BraceLang
