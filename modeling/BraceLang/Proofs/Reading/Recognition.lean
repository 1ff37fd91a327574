import BraceLang.Program.Shape
import BraceLang.Proofs.Reading.Statement
import BraceLang.Proofs.Table
import BraceLang.Proofs.Token.Lookahead

/-!
# `Proofs.Reading.Recognition` — the seven forms of a statement

A statement is recognised at an index by looking at a few tokens there and by looking up, in tables, where
an expression ends or a parenthesis closes. A production says which runs of words are statements, without
an index or a table. Between the two stand the readers that take tokens from the front of a row: a cursor
recognises just what they take, so all that is known about them holds for the cursor.

## Contents
- `Cursor.ahead`, and what a cursor answers when it is known which tokens are ahead.
- `bracketEnd?_eq`, `suffixAt?_eq`, `valueAt?_eq` and `closingAt?_eq` for the parts of statements, and
  `declarationAt?_eq`, `headerAt?_eq`, `callAt?_eq`, `retAt?_eq` and `assignmentAt?_eq` for their forms.
- `Form.Spells`, the productions, with `spells_of_proper` and `exists_of_spells`.
- `Shape.Proper.unique`, no two forms compete.
- **`shapeAt?_eq_some_iff`** and `isSome_statementAt?_iff`, with `simpleRead?_ahead_iff` and
  `headerReadAny?_ahead_iff`: what is recognised, and what the readers take.
-/

namespace BraceLang

/-! ## What a cursor answers -/

namespace Cursor

variable {c : Cursor} {i : Nat} {t : Token} {s run : List Token} {kind : HeaderKind}

/-- The tokens from an index on. -/
def ahead (c : Cursor) (index : Nat) : List Token := c.tokens.toList.drop index

theorem token?_of_ahead (h : c.ahead i = t :: s) : c.token? i = some t := by
  rw [token?, ← Array.getElem?_toList, ← List.head?_drop]
  exact congrArg List.head? h

theorem token?_of_ahead_nil (h : c.ahead i = []) : c.token? i = none := by
  rw [token?, ← Array.getElem?_toList, ← List.head?_drop]
  exact congrArg List.head? h

theorem ahead_succ (h : c.ahead i = t :: s) : c.ahead (i + 1) = s :=
  drop_succ_of_cons h

theorem ahead_add (h : c.ahead i = run ++ s) : c.ahead (i + run.length) = s := drop_add_length h

theorem isPunctAt_of_ahead (h : c.ahead i = t :: s) (text : String) :
    c.isPunctAt i text = t.isPunct text := by
  rw [isPunctAt, token?_of_ahead h, Option.any_some]

theorem isPunctAt_of_ahead_nil (h : c.ahead i = []) (text : String) :
    c.isPunctAt i text = false := by
  rw [isPunctAt, token?_of_ahead_nil h, Option.any_none]

theorem slice_of_ahead (h : c.ahead i = run ++ s) : c.slice i (i + run.length) = run := by
  rw [slice, Array.toList_extract, List.extract_eq_take_drop, Nat.add_sub_cancel_left]
  rw [ahead] at h
  rw [h, List.take_left]

theorem bracketEnd?_of_ahead (h : c.ahead i = t :: s) : c.bracketEnd? i =
    if t.isPunct "]" then some i else if t.kind == .punctuation then none else c.bracketEnd? (i + 1) := by
  rw [bracketEnd?]
  split
  · next hnone =>
    rw [token?_of_ahead h] at hnone
    exact absurd hnone (Option.some_ne_none t)
  · next u hu =>
    rw [token?_of_ahead h] at hu
    rw [Option.some.inj hu]

theorem bracketEnd?_of_ahead_nil (h : c.ahead i = []) : c.bracketEnd? i = none := by
  rw [bracketEnd?]
  split
  · rfl
  · next u hu =>
    rw [token?_of_ahead_nil h] at hu
    exact absurd hu (Option.some_ne_none u).symm

theorem bracketEnd?_eq (hs : c.ahead i = s) :
    c.bracketEnd? i = (upToBracket? s).map fun (taken, _) => i + taken.length - 1 := by
  induction s generalizing i with
  | nil => exact bracketEnd?_of_ahead_nil hs
  | cons t s ih =>
    rw [bracketEnd?_of_ahead hs, upToBracket?]
    by_cases hclose : t.isPunct "]" = true
    · rw [if_pos hclose, if_pos hclose]
      rfl
    rw [if_neg hclose, if_neg hclose]
    by_cases hpunct : (t.kind == .punctuation) = true
    · rw [if_pos hpunct, if_pos hpunct]
      rfl
    rw [if_neg hpunct, if_neg hpunct, ih (ahead_succ hs), Option.map_map]
    congr 1
    funext p
    obtain ⟨taken, _⟩ := p
    show i + 1 + taken.length - 1 = i + (taken.length + 1) - 1
    omega

theorem suffixAt?_eq (hs : c.ahead i = s) :
    c.suffixAt? i = (bracketSuffix? s).map fun (suffix, _) => (suffix, i + suffix.length) := by
  cases s with
  | nil =>
    rw [suffixAt?, isPunctAt_of_ahead_nil hs]
    rfl
  | cons t s =>
    rw [suffixAt?, isPunctAt_of_ahead hs, bracketSuffix?]
    by_cases hopen : t.isPunct "[" = true
    · rw [if_pos hopen, if_pos hopen, bracketEnd?_eq (ahead_succ hs)]
      cases htaken : upToBracket? s with
      | none => rfl
      | some p =>
        obtain ⟨taken, rest⟩ := p
        obtain ⟨inner, close, rfl, -, -⟩ := exists_inner_of_upToBracket? htaken
        have happend : c.ahead i = t :: (inner ++ [close]) ++ rest := by
          rw [hs, List.cons_append, upToBracket?_append htaken]
        have hstop : i + 1 + (inner ++ [close]).length - 1 + 1 = i + (t :: (inner ++ [close])).length := by
          simp only [List.length_append, List.length_cons, List.length_nil]
          omega
        simp only [Option.map_some]
        rw [hstop, slice_of_ahead happend]
    · rw [if_neg hopen, if_neg hopen]
      rfl

theorem valueAt?_eq (hs : c.ahead i = s) :
    c.valueAt? i = (valueThenSemicolon? s).map fun (value, t, _) => (value, t, i + value.length) := by
  have hstop := c.expressionEnd_eq i
  rw [show c.tokens.toList.drop i = s from hs] at hstop
  cases s with
  | nil =>
    have hsize : c.tokens.size ≤ i := by
      rw [← Array.length_toList]
      exact List.drop_eq_nil_iff.mp hs
    have hnone : c.token? (c.expressionEnd i) = none := by
      rw [hstop, Nat.min_eq_right hsize]
      exact Array.getElem?_eq_none_iff.mpr (Nat.le_add_right _ _)
    rw [valueAt?, hnone]
    exact ite_self _
  | cons t s =>
    have hlt : i < c.tokens.size := (Array.getElem?_eq_some_iff.mp (token?_of_ahead hs)).1
    rw [Nat.min_eq_left (Nat.le_of_lt hlt)] at hstop
    have hle := expressionExtent_le 0 (t :: s)
    rw [valueAt?, hstop, valueThenSemicolon?]
    generalize expressionExtent 0 (t :: s) = n at hle
    have hlength : ((t :: s).take n).length = n := List.length_take_of_le hle
    have hsplit : c.ahead i = (t :: s).take n ++ (t :: s).drop n := by
      rw [hs, List.take_append_drop]
    have hslice := slice_of_ahead hsplit
    have hbehind := ahead_add hsplit
    rw [hlength] at hslice hbehind
    dsimp only
    rw [hslice]
    cases htake : (t :: s).take n with
    | nil =>
      obtain rfl : n = 0 := by
        rw [← hlength, htake]
        rfl
      rw [if_pos (show (i + 0 == i) = true from beq_self_eq_true i)]
      rfl
    | cons v vs =>
      have hne : ¬ (i + n == i) = true := by
        rw [← hlength, htake, beq_iff_eq, List.length_cons]
        omega
      rw [if_neg hne]
      cases hdrop : (t :: s).drop n with
      | nil =>
        rw [hdrop] at hbehind
        rw [token?_of_ahead_nil hbehind]
        rfl
      | cons u rest =>
        rw [hdrop] at hbehind
        rw [token?_of_ahead hbehind]
        dsimp only
        by_cases hsemi : u.isPunct ";" = true
        · rw [if_pos hsemi, if_pos hsemi, Option.map_some, ← htake, hlength]
        · rw [if_neg hsemi, if_neg hsemi]
          rfl

theorem argumentsEnd?_of_ahead (h : c.ahead i = t :: s) : c.argumentsEnd? i =
    if t.isArgument then
      if c.isPunctAt (i + 1) "," then c.argumentsEnd? (i + 2)
      else if c.isPunctAt (i + 1) ")" then some (i + 1) else none
    else none := by
  rw [argumentsEnd?]
  split
  · next hnone =>
    rw [token?_of_ahead h] at hnone
    exact absurd hnone (Option.some_ne_none t)
  · next u hu =>
    rw [token?_of_ahead h] at hu
    rw [Option.some.inj hu]

theorem argumentsEnd?_of_ahead_nil (h : c.ahead i = []) : c.argumentsEnd? i = none := by
  rw [argumentsEnd?]
  split
  · rfl
  · next u hu =>
    rw [token?_of_ahead_nil h] at hu
    exact absurd hu (Option.some_ne_none u).symm

theorem argumentsEnd?_eq (hs : c.ahead i = s) :
    c.argumentsEnd? i = (argumentList? s).map fun (arguments, _, _) => i + arguments.length := by
  -- The cases are a comma behind the argument, a parenthesis behind it, anything else behind it, no
  -- argument, and too few tokens.
  fun_induction argumentList? s generalizing i
  case case1 a t s ha hcomma ih =>
    have hnext := ahead_succ hs
    rw [argumentsEnd?_of_ahead hs, if_pos ha, isPunctAt_of_ahead hnext, if_pos hcomma,
      ih (ahead_succ hnext), Option.map_map]
    congr 1
    funext p
    obtain ⟨arguments, _, _⟩ := p
    show i + 2 + arguments.length = i + (arguments.length + 2)
    omega
  case case2 a t s ha hcomma hclose =>
    have hnext := ahead_succ hs
    rw [argumentsEnd?_of_ahead hs, if_pos ha, isPunctAt_of_ahead hnext, isPunctAt_of_ahead hnext,
      if_neg hcomma, if_pos hclose]
    rfl
  case case3 a t s ha hcomma hclose =>
    have hnext := ahead_succ hs
    rw [argumentsEnd?_of_ahead hs, if_pos ha, isPunctAt_of_ahead hnext, isPunctAt_of_ahead hnext,
      if_neg hcomma, if_neg hclose]
    rfl
  case case4 a t s ha =>
    rw [argumentsEnd?_of_ahead hs, if_neg ha]
    rfl
  case case5 s hshort =>
    rcases s with _ | ⟨a, _ | ⟨t, s⟩⟩
    · exact argumentsEnd?_of_ahead_nil hs
    · rw [argumentsEnd?_of_ahead hs, isPunctAt_of_ahead_nil (ahead_succ hs),
        isPunctAt_of_ahead_nil (ahead_succ hs)]
      exact ite_self _
    · exact absurd rfl (hshort a t s)

theorem closingAt?_eq (hs : c.ahead i = s) :
    (if c.isPunctAt i ")" then some i else c.argumentsEnd? i) =
      (arguments? s).map fun (arguments, _, _) => i + arguments.length := by
  rw [argumentsEnd?_eq hs]
  cases s with
  | nil =>
    rw [isPunctAt_of_ahead_nil hs]
    rfl
  | cons t s =>
    rw [isPunctAt_of_ahead hs, arguments?]
    by_cases hclose : t.isPunct ")" = true
    · rw [if_pos hclose, if_pos hclose]
      rfl
    · rw [if_neg hclose, if_neg hclose]

/-! ## The forms, one by one -/

/-- What a cursor says of a statement that a reader takes from the tokens at the index. -/
def found (index : Nat) (p : Simple × List Token) : Simple × Nat :=
  (p.1, index + p.1.tokens.length - 1)

/-- Where a form ends with a value, what is recognised of the value at its start settles the whole form. -/
theorem map_valueAt?_eq {start : Nat} (form : List Token → Token → Simple) (hs : c.ahead start = s)
    (hform : ∀ value semicolon, i + (form value semicolon).tokens.length = start + (value.length + 1)) :
    ((c.valueAt? start).map fun p => (form p.1 p.2.1, p.2.2)) =
      ((valueThenSemicolon? s).map fun p => (form p.1 p.2.1, p.2.2)).map (found i) := by
  rw [valueAt?_eq hs, Option.map_map, Option.map_map]
  congr 1
  funext p
  refine Prod.ext rfl ?_
  have hlength := hform p.1 p.2.1
  show start + p.1.length = i + (form p.1 p.2.1).tokens.length - 1
  omega

theorem declarationAt?_eq (hs : c.ahead i = s) :
    c.declarationAt? i = (Simple.declaration? s).map (found i) := by
  rcases s with _ | ⟨type, _ | ⟨name, s⟩⟩
  · rw [declarationAt?, token?_of_ahead_nil hs]
    rfl
  · rw [declarationAt?, token?_of_ahead hs, token?_of_ahead_nil (ahead_succ hs)]
    rfl
  have hname := ahead_succ hs
  have hbehind := ahead_succ hname
  rw [declarationAt?, token?_of_ahead hs, token?_of_ahead hname, Simple.declaration?]
  dsimp only
  by_cases htest : (type.isTypeName && name.kind == .identifier) = true
  case neg =>
    rw [if_neg htest, if_neg htest]
    rfl
  rw [if_pos htest, if_pos htest, suffixAt?_eq hbehind]
  cases hsuffix : bracketSuffix? s with
  | none => rfl
  | some p =>
    obtain ⟨suffix, rest⟩ := p
    rw [← bracketSuffix?_append hsuffix] at hbehind
    have hrest := ahead_add hbehind
    rw [Option.map_some]
    dsimp only
    cases rest with
    | nil =>
      rw [token?_of_ahead_nil hrest]
      rfl
    | cons t rest =>
      rw [token?_of_ahead hrest]
      dsimp only
      by_cases hsign : t.hasText .operator "=" = true
      · rw [if_pos hsign, if_pos hsign]
        refine map_valueAt?_eq (fun value semicolon =>
          .declaration type name suffix (some ⟨t, value⟩) semicolon) (ahead_succ hrest)
          fun value semicolon => ?_
        simp only [Simple.tokens, Option.map_some, Option.getD_some, Initializer.tokens,
          List.length_cons, List.length_append, List.length_nil]
        omega
      rw [if_neg hsign, if_neg hsign]
      by_cases hsemi : t.isPunct ";" = true
      · rw [if_pos hsemi, if_pos hsemi, Option.map_some]
        refine congrArg some (Prod.ext rfl ?_)
        simp only [found, Simple.tokens, Option.map_none, Option.getD_none, List.length_cons,
          List.length_append, List.length_nil]
        omega
      · rw [if_neg hsemi, if_neg hsemi]
        rfl

theorem callAt?_eq (hs : c.ahead i = s) : c.callAt? i = (Simple.call? s).map (found i) := by
  rcases s with _ | ⟨name, _ | ⟨opening, s⟩⟩
  · rw [callAt?, token?_of_ahead_nil hs]
    rfl
  · rw [callAt?, token?_of_ahead hs, token?_of_ahead_nil (ahead_succ hs)]
    rfl
  have hopening := ahead_succ hs
  have hbehind := ahead_succ hopening
  rw [callAt?, token?_of_ahead hs, token?_of_ahead hopening, Simple.call?]
  dsimp only
  by_cases htest : (name.kind == .identifier && opening.isPunct "(") = true
  case neg =>
    rw [if_neg htest, if_neg htest]
    rfl
  rw [if_pos htest, if_pos htest, closingAt?_eq hbehind]
  cases harguments : arguments? s with
  | none => rfl
  | some p =>
    obtain ⟨arguments, closing, rest⟩ := p
    rw [← arguments?_append harguments] at hbehind
    have hclosing := ahead_add hbehind
    have hrest := ahead_succ hclosing
    rw [Option.map_some]
    dsimp only
    rw [token?_of_ahead hclosing, slice_of_ahead hbehind]
    cases rest with
    | nil =>
      rw [token?_of_ahead_nil hrest]
      rfl
    | cons t rest =>
      rw [token?_of_ahead hrest]
      dsimp only
      by_cases hsemi : t.isPunct ";" = true
      · rw [if_pos hsemi, if_pos hsemi, Option.map_some]
        refine congrArg some (Prod.ext rfl ?_)
        simp only [found, Simple.tokens, List.length_cons, List.length_append, List.length_nil]
        omega
      · rw [if_neg hsemi, if_neg hsemi]
        rfl

theorem retAt?_eq (hs : c.ahead i = s) : c.retAt? i = (Simple.ret? s).map (found i) := by
  rcases s with _ | ⟨keyword, _ | ⟨t, s⟩⟩
  · rw [retAt?, token?_of_ahead_nil hs]
    rfl
  · rw [retAt?, token?_of_ahead hs, token?_of_ahead_nil (ahead_succ hs)]
    rfl
  have hbehind := ahead_succ hs
  rw [retAt?, token?_of_ahead hs, token?_of_ahead hbehind, Simple.ret?]
  dsimp only
  by_cases hkeyword : keyword.isKeyword "return" = true
  case neg =>
    rw [if_neg hkeyword, if_neg hkeyword]
    rfl
  rw [if_pos hkeyword, if_pos hkeyword]
  by_cases hsemi : t.isPunct ";" = true
  · rw [if_pos hsemi, if_pos hsemi]
    rfl
  · rw [if_neg hsemi, if_neg hsemi]
    refine map_valueAt?_eq (.ret keyword) hbehind fun value semicolon => ?_
    simp only [Simple.tokens, List.length_cons, List.length_append, List.length_nil]
    omega

theorem assignmentAt?_eq (hs : c.ahead i = s) :
    c.assignmentAt? i = (Simple.assignment? s).map (found i) := by
  rcases s with _ | ⟨target, _ | ⟨operator, s⟩⟩
  · rw [assignmentAt?, token?_of_ahead_nil hs]
    rfl
  · rw [assignmentAt?, token?_of_ahead hs, token?_of_ahead_nil (ahead_succ hs)]
    rfl
  have hoperator := ahead_succ hs
  rw [assignmentAt?, token?_of_ahead hs, token?_of_ahead hoperator, Simple.assignment?]
  dsimp only
  split
  · refine map_valueAt?_eq (.assignment target operator) (ahead_succ hoperator) fun value semicolon => ?_
    simp only [Simple.tokens, List.length_cons, List.length_append, List.length_nil]
    omega
  · rfl

theorem matchingParen?_of_ahead (h : c.ahead i = t :: s) : c.matchingParen? i =
    if t.isPunct "(" then (parenExtent? 0 s).map (i + 1 + ·) else none := by
  have htoken := token?_of_ahead h
  have hbehind : c.tokens.toList.drop (i + 1) = s := ahead_succ h
  rw [token?, ← Array.getElem?_toList] at htoken
  rw [matchingParen?, c.closers_eq, Lookahead.getElem?_closers, htoken, hbehind]
  rfl

theorem headerAt?_eq (hs : c.ahead i = s) : c.headerAt? kind i =
    (Header.read? kind s).map fun (h, _) => (h, i + h.tokens.length - 1) := by
  rcases s with _ | ⟨keyword, _ | ⟨opening, s⟩⟩
  · rw [headerAt?, token?_of_ahead_nil hs]
    rfl
  · rw [headerAt?, token?_of_ahead hs, token?_of_ahead_nil (ahead_succ hs)]
    rfl
  have hopening := ahead_succ hs
  have hbehind : c.ahead (i + 2) = s := ahead_succ hopening
  rw [headerAt?, token?_of_ahead hs, token?_of_ahead hopening, matchingParen?_of_ahead hopening,
    Header.read?]
  dsimp only
  by_cases ho : opening.isPunct "(" = true
  case neg =>
    rw [if_neg ho, Bool.eq_false_iff.mpr ho, Bool.and_false, if_neg Bool.false_ne_true]
    rfl
  rw [if_pos ho, ho, Bool.and_true]
  cases hextent : parenExtent? 0 s with
  | none =>
    show none = Option.map _ (if keyword.isKeyword kind.keyword = true then none else none)
    rw [ite_self]
    rfl
  | some n =>
    -- the table gives the place of the `)` to which the scan comes
    obtain ⟨closing, hclosing, -⟩ := parenExtent?_spec hextent
    obtain ⟨hlt, rfl⟩ := List.getElem?_eq_some_iff.mp hclosing
    have hlength : (s.take n).length = n := List.length_take_of_le (Nat.le_of_lt hlt)
    rw [← List.take_append_drop n s, List.drop_eq_getElem_cons hlt] at hbehind
    have hslice := slice_of_ahead hbehind
    have hclose := ahead_add hbehind
    rw [hlength] at hslice hclose
    have hbrace := ahead_succ hclose
    rw [Option.map_some]
    dsimp only
    by_cases hkeyword : keyword.isKeyword kind.keyword = true
    case neg =>
      rw [if_neg hkeyword, if_neg hkeyword]
      rfl
    rw [if_pos hkeyword, if_pos hkeyword, token?_of_ahead hclose, hslice, List.drop_eq_getElem_cons hlt]
    cases hrest : s.drop (n + 1) with
    | nil =>
      rw [hrest] at hbrace
      rw [token?_of_ahead_nil hbrace]
      rfl
    | cons brace rest =>
      rw [hrest] at hbrace
      rw [token?_of_ahead hbrace]
      dsimp only
      by_cases hopen : brace.isPunct "\x7b" = true
      · rw [if_pos hopen, if_pos hopen, Option.map_some]
        refine congrArg some (Prod.ext rfl ?_)
        simp only [Header.tokens, List.length_cons, List.length_append, List.length_nil, hlength]
        omega
      · rw [if_neg hopen, if_neg hopen]
        rfl

end Cursor

/-! ## Productions -/

/-- The form of what is recognised. -/
def Shape.form : Shape → Form
  | simple (.declaration ..) => .declaration
  | simple (.call ..) => .call
  | simple (.ret ..) => .ret
  | simple (.assignment ..) => .assignment
  | header kind _ => .header kind

/-- Each token is in its place. -/
def Shape.Proper : Shape → Prop
  | simple x => x.Proper
  | header kind h => h.Proper kind

namespace Form

variable {f : Form} {shape : Shape} {s rest run : List Token} {x : Simple}

/-- The production of a form: how its statements, or their headers, are spelled. -/
def Spells : Form → List Word → Prop
  | .declaration, run => ∃ type name suffix initializer,
      run = type :: name :: (suffix ++ (initializer ++ [.mark ";"])) ∧ type.IsTypeName ∧ name.IsName ∧
        IsSuffix suffix ∧
        (initializer = [] ∨ ∃ value, initializer = ⟨.operator, "="⟩ :: value ∧ IsExpression value)
  | .header kind, run => ∃ condition, run = .reserved kind.keyword :: .mark "(" ::
      (condition ++ [.mark ")", .mark "\x7b"]) ∧ Balanced condition
  | .call, run => ∃ name arguments, run = name :: .mark "(" :: (arguments ++ [.mark ")", .mark ";"]) ∧
      name.IsName ∧ (arguments = [] ∨ IsArgumentList arguments)
  | .ret, run => ∃ value, run = .reserved "return" :: (value ++ [.mark ";"]) ∧
      (value = [] ∨ IsExpression value)
  | .assignment, run => ∃ target operator value, run = target :: operator :: (value ++ [.mark ";"]) ∧
      target.IsName ∧ operator.IsAssignment ∧ IsExpression value

/-- Every form is tried. -/
theorem mem_all (f : Form) : f ∈ all := by
  rcases f with _ | ⟨_ | ⟨_ | _⟩⟩ | _ | _ | _ <;> decide

/-- The reader of a form. -/
def read? : Form → List Token → Option (Shape × List Token)
  | .declaration, s => (Simple.declaration? s).map fun (x, rest) => (.simple x, rest)
  | .header kind, s => (Header.read? kind s).map fun (h, rest) => (.header kind h, rest)
  | .call, s => (Simple.call? s).map fun (x, rest) => (.simple x, rest)
  | .ret, s => (Simple.ret? s).map fun (x, rest) => (.simple x, rest)
  | .assignment, s => (Simple.assignment? s).map fun (x, rest) => (.simple x, rest)

theorem form_of_declaration? (h : Simple.declaration? s = some (x, rest)) :
    (Shape.simple x).form = .declaration := by
  unfold Simple.declaration? at h
  grind [Shape.form, Option.map_eq_some_iff]

theorem form_of_call? (h : Simple.call? s = some (x, rest)) : (Shape.simple x).form = .call := by
  unfold Simple.call? at h
  grind [Shape.form, Option.map_eq_some_iff]

theorem form_of_ret? (h : Simple.ret? s = some (x, rest)) : (Shape.simple x).form = .ret := by
  unfold Simple.ret? at h
  grind [Shape.form, Option.map_eq_some_iff]

theorem form_of_assignment? (h : Simple.assignment? s = some (x, rest)) :
    (Shape.simple x).form = .assignment := by
  unfold Simple.assignment? at h
  grind [Shape.form, Option.map_eq_some_iff]

/-- **A form is read if and only if a proper one of it stands ahead.** -/
theorem read?_eq_some_iff : f.read? s = some (shape, rest) ↔
    shape.form = f ∧ shape.Proper ∧ shape.tokens ++ rest = s := by
  constructor
  · intro h
    cases f with
    | declaration =>
      obtain ⟨⟨x, _⟩, hread, he⟩ := Option.map_eq_some_iff.mp h
      obtain ⟨rfl, rfl⟩ := Prod.mk.inj he
      exact ⟨form_of_declaration? hread, Simple.proper_of_declaration? hread,
        Simple.declaration?_append hread⟩
    | header kind =>
      obtain ⟨⟨h, _⟩, hread, he⟩ := Option.map_eq_some_iff.mp h
      obtain ⟨rfl, rfl⟩ := Prod.mk.inj he
      exact ⟨rfl, Header.proper_of_read? hread, Header.read?_append hread⟩
    | call =>
      obtain ⟨⟨x, _⟩, hread, he⟩ := Option.map_eq_some_iff.mp h
      obtain ⟨rfl, rfl⟩ := Prod.mk.inj he
      exact ⟨form_of_call? hread, Simple.proper_of_call? hread, Simple.call?_append hread⟩
    | ret =>
      obtain ⟨⟨x, _⟩, hread, he⟩ := Option.map_eq_some_iff.mp h
      obtain ⟨rfl, rfl⟩ := Prod.mk.inj he
      exact ⟨form_of_ret? hread, Simple.proper_of_ret? hread, Simple.ret?_append hread⟩
    | assignment =>
      obtain ⟨⟨x, _⟩, hread, he⟩ := Option.map_eq_some_iff.mp h
      obtain ⟨rfl, rfl⟩ := Prod.mk.inj he
      exact ⟨form_of_assignment? hread, Simple.proper_of_assignment? hread,
        Simple.assignment?_append hread⟩
  · rintro ⟨rfl, hproper, rfl⟩
    cases shape with
    | header kind h => exact congrArg (Option.map _) (Header.read?_append_of_proper hproper)
    | simple x =>
      cases x with
      | declaration => exact congrArg (Option.map _) (Simple.declaration?_append_of_proper hproper)
      | call => exact congrArg (Option.map _) (Simple.call?_append_of_proper hproper)
      | ret => exact congrArg (Option.map _) (Simple.ret?_append_of_proper hproper)
      | assignment => exact congrArg (Option.map _) (Simple.assignment?_append_of_proper hproper)

/-- The words of a shape spell its form. -/
theorem spells_of_proper (h : shape.Proper) : shape.form.Spells (words shape.tokens) := by
  cases shape with
  | header kind h' =>
    refine ⟨words h'.condition, ?_, h.condition⟩
    simp only [Shape.tokens, Header.tokens, words, List.map_cons, List.map_append, List.map_nil,
      h.keyword, h.opening, h.closing, h.brace]
  | simple x =>
    cases x with
    | declaration type name suffix initializer semicolon =>
      obtain ⟨htype, hname, hsuffix, hinitializer, hsemi⟩ := h
      refine ⟨_, _, words suffix, words ((initializer.map Initializer.tokens).getD []), ?_, htype,
        hname, hsuffix, ?_⟩
      · simp only [Shape.tokens, Simple.tokens, words, List.map_cons, List.map_append, List.map_nil, hsemi]
      · cases initializer with
        | none => exact .inl rfl
        | some i =>
          obtain ⟨hsign, hvalue⟩ := hinitializer i rfl
          refine .inr ⟨words i.value, ?_, hvalue⟩
          simp only [Option.map_some, Option.getD_some, Initializer.tokens, words, List.map_cons, hsign]
    | call name opening arguments closing semicolon =>
      obtain ⟨hname, hopening, harguments, hclosing, hsemi⟩ := h
      refine ⟨_, words arguments, ?_, hname, harguments.imp_left fun h => by rw [h]; rfl⟩
      simp only [Shape.tokens, Simple.tokens, words, List.map_cons, List.map_append, List.map_nil,
        hopening, hclosing, hsemi]
    | ret keyword value semicolon =>
      obtain ⟨hkeyword, hvalue, hsemi⟩ := h
      refine ⟨words value, ?_, hvalue.imp_left fun h => by rw [h]; rfl⟩
      simp only [Shape.tokens, Simple.tokens, words, List.map_cons, List.map_append, List.map_nil,
        hkeyword, hsemi]
    | assignment target operator value semicolon =>
      obtain ⟨htarget, hoperator, hvalue, hsemi⟩ := h
      refine ⟨_, _, words value, ?_, htarget, hoperator, hvalue⟩
      simp only [Shape.tokens, Simple.tokens, words, List.map_cons, List.map_append, List.map_nil, hsemi]

/-- A run that spells a form is the run of a proper shape of it. -/
theorem exists_of_spells (h : f.Spells (words run)) :
    ∃ shape : Shape, shape.form = f ∧ shape.Proper ∧ shape.tokens = run := by
  cases f with
  | declaration =>
    obtain ⟨_, _, _, _, hrun, htype, hname, hsuffix, hinitializer⟩ := h
    obtain ⟨type, run, rfl, rfl, hnext⟩ := List.map_eq_cons_iff.mp hrun
    obtain ⟨name, run, rfl, rfl, hinner⟩ := List.map_eq_cons_iff.mp hnext
    obtain ⟨suffix, run, rfl, rfl, hback⟩ := List.map_eq_append_iff.mp hinner
    obtain ⟨run, last, rfl, rfl, hlast⟩ := List.map_eq_append_iff.mp hback
    obtain ⟨semicolon, rfl, hsemi⟩ := List.map_eq_singleton_iff.mp hlast
    rcases hinitializer with hnil | ⟨_, hsign, hvalue⟩
    · obtain rfl := List.map_eq_nil_iff.mp hnil
      exact ⟨.simple (.declaration type name suffix none semicolon), rfl,
        ⟨htype, hname, hsuffix, fun i hi => absurd hi (Option.not_mem_none i), hsemi⟩, rfl⟩
    · obtain ⟨sign, value, rfl, hword, rfl⟩ := List.map_eq_cons_iff.mp hsign
      refine ⟨.simple (.declaration type name suffix (some ⟨sign, value⟩) semicolon), rfl,
        ⟨htype, hname, hsuffix, ?_, hsemi⟩, rfl⟩
      intro i hi
      obtain rfl := Option.mem_some.mp hi
      exact ⟨hword, hvalue⟩
  | header kind =>
    obtain ⟨_, hrun, hcondition⟩ := h
    obtain ⟨keyword, run, rfl, hkeyword, hnext⟩ := List.map_eq_cons_iff.mp hrun
    obtain ⟨opening, run, rfl, hopening, hinner⟩ := List.map_eq_cons_iff.mp hnext
    obtain ⟨condition, run, rfl, rfl, hback⟩ := List.map_eq_append_iff.mp hinner
    obtain ⟨closing, run, rfl, hclosing, hend⟩ := List.map_eq_cons_iff.mp hback
    obtain ⟨brace, rfl, hbrace⟩ := List.map_eq_singleton_iff.mp hend
    exact ⟨.header kind ⟨keyword, opening, condition, closing, brace⟩, rfl,
      ⟨hkeyword, hopening, hcondition, hclosing, hbrace⟩, rfl⟩
  | call =>
    obtain ⟨_, _, hrun, hname, harguments⟩ := h
    obtain ⟨name, run, rfl, rfl, hnext⟩ := List.map_eq_cons_iff.mp hrun
    obtain ⟨opening, run, rfl, hopening, hinner⟩ := List.map_eq_cons_iff.mp hnext
    obtain ⟨arguments, run, rfl, rfl, hback⟩ := List.map_eq_append_iff.mp hinner
    obtain ⟨closing, run, rfl, hclosing, hend⟩ := List.map_eq_cons_iff.mp hback
    obtain ⟨semicolon, rfl, hsemi⟩ := List.map_eq_singleton_iff.mp hend
    exact ⟨.simple (.call name opening arguments closing semicolon), rfl,
      ⟨hname, hopening, harguments.imp_left List.map_eq_nil_iff.mp, hclosing, hsemi⟩, rfl⟩
  | ret =>
    obtain ⟨_, hrun, hvalue⟩ := h
    obtain ⟨keyword, run, rfl, hkeyword, hnext⟩ := List.map_eq_cons_iff.mp hrun
    obtain ⟨value, run, rfl, rfl, hinner⟩ := List.map_eq_append_iff.mp hnext
    obtain ⟨semicolon, rfl, hsemi⟩ := List.map_eq_singleton_iff.mp hinner
    exact ⟨.simple (.ret keyword value semicolon), rfl,
      ⟨hkeyword, hvalue.imp_left List.map_eq_nil_iff.mp, hsemi⟩, rfl⟩
  | assignment =>
    obtain ⟨_, _, _, hrun, htarget, hoperator, hvalue⟩ := h
    obtain ⟨target, run, rfl, rfl, hnext⟩ := List.map_eq_cons_iff.mp hrun
    obtain ⟨operator, run, rfl, rfl, hinner⟩ := List.map_eq_cons_iff.mp hnext
    obtain ⟨value, run, rfl, rfl, hback⟩ := List.map_eq_append_iff.mp hinner
    obtain ⟨semicolon, rfl, hsemi⟩ := List.map_eq_singleton_iff.mp hback
    exact ⟨.simple (.assignment target operator value semicolon), rfl,
      ⟨htarget, hoperator, hvalue, hsemi⟩, rfl⟩

end Form

/-! ## No two forms compete -/

namespace Shape

variable {shape other : Shape} {s rest behind : List Token}

theorem length_pos (shape : Shape) : 0 < shape.tokens.length := by
  cases shape with
  | header kind h => exact Nat.succ_pos _
  | simple x => cases x <;> exact Nat.succ_pos _

/-- No row of tokens begins with two proper shapes. -/
theorem Proper.unique (h : shape.Proper) (ho : other.Proper)
    (hs : shape.tokens ++ rest = other.tokens ++ behind) : shape = other ∧ rest = behind := by
  cases shape with
  | simple x =>
    have hx : Simple.read? (x.tokens ++ rest) = some (x, rest) := Simple.read?_append_of_proper h
    cases other with
    | simple y =>
      rw [show x.tokens ++ rest = y.tokens ++ behind from hs, Simple.read?_append_of_proper ho] at hx
      obtain ⟨rfl, rfl⟩ := Prod.mk.inj (Option.some.inj hx)
      exact ⟨rfl, rfl⟩
    | header kind g => exact absurd ⟨x, rest, h, hs⟩ (Header.Ahead.not_simple ⟨g, behind, ho, rfl⟩)
  | header kind g =>
    have hg : Header.readAny? (g.tokens ++ rest) = some (kind, g, rest) :=
      Header.readAny?_eq_some_iff.mpr ⟨h, rfl⟩
    cases other with
    | simple y => exact absurd ⟨y, behind, ho, hs.symm⟩ (Header.Ahead.not_simple ⟨g, rest, h, rfl⟩)
    | header kind' g' =>
      have hg' : Header.readAny? (g.tokens ++ rest) = some (kind', g', behind) :=
        Header.readAny?_eq_some_iff.mpr ⟨ho, hs.symm⟩
      rw [hg'] at hg
      obtain ⟨rfl, hrest⟩ := Prod.mk.inj (Option.some.inj hg)
      obtain ⟨rfl, rfl⟩ := Prod.mk.inj hrest
      exact ⟨rfl, rfl⟩

end Shape

namespace Cursor

variable {c : Cursor} {i stop : Nat} {f : Form} {shape : Shape} {run rest : List Token}

theorem shapeAt?_eq (c : Cursor) (i : Nat) (f : Form) : c.shapeAt? i f =
    (f.read? (c.ahead i)).map fun (shape, _) => (shape, i + shape.tokens.length - 1) := by
  cases f with
  | declaration =>
    rw [shapeAt?, declarationAt?_eq rfl, Form.read?, Option.map_map, Option.map_map]
    rfl
  | header kind =>
    rw [shapeAt?, headerAt?_eq rfl, Form.read?, Option.map_map, Option.map_map]
    rfl
  | call =>
    rw [shapeAt?, callAt?_eq rfl, Form.read?, Option.map_map, Option.map_map]
    rfl
  | ret =>
    rw [shapeAt?, retAt?_eq rfl, Form.read?, Option.map_map, Option.map_map]
    rfl
  | assignment =>
    rw [shapeAt?, assignmentAt?_eq rfl, Form.read?, Option.map_map, Option.map_map]
    rfl

/-- **What is recognised at an index stands there**, and whatever stands there is recognised. -/
theorem shapeAt?_eq_some_iff : c.shapeAt? i f = some (shape, stop) ↔
    shape.form = f ∧ shape.Proper ∧ shape.tokens ++ c.ahead (stop + 1) = c.ahead i ∧
      stop + 1 = i + shape.tokens.length := by
  have hpos := shape.length_pos
  rw [shapeAt?_eq, Option.map_eq_some_iff]
  constructor
  · rintro ⟨⟨shape', rest⟩, hread, he⟩
    obtain ⟨rfl, rfl⟩ := Prod.mk.inj he
    obtain ⟨hform, hproper, htokens⟩ := Form.read?_eq_some_iff.mp hread
    have hstop : i + shape'.tokens.length - 1 + 1 = i + shape'.tokens.length := by omega
    rw [hstop, ahead_add htokens.symm]
    exact ⟨hform, hproper, htokens, rfl⟩
  · rintro ⟨hform, hproper, htokens, hstop⟩
    refine ⟨(shape, c.ahead (stop + 1)), Form.read?_eq_some_iff.mpr ⟨hform, hproper, htokens⟩, ?_⟩
    refine Prod.ext rfl ?_
    show i + shape.tokens.length - 1 = stop
    omega

/-- At an index, no two forms are recognised, nor one form twice. -/
theorem shapeAt?_unique {g : Form} {p q : Shape × Nat} (hf : c.shapeAt? i f = some p)
    (hg : c.shapeAt? i g = some q) : f = g ∧ p = q := by
  obtain ⟨shape, stop⟩ := p
  obtain ⟨other, stop'⟩ := q
  obtain ⟨rfl, hproper, htokens, hstop⟩ := shapeAt?_eq_some_iff.mp hf
  obtain ⟨rfl, hproper', htokens', hstop'⟩ := shapeAt?_eq_some_iff.mp hg
  obtain ⟨rfl, -⟩ := hproper.unique hproper' (htokens.trans htokens'.symm)
  exact ⟨rfl, Prod.ext rfl (Nat.succ.inj (hstop.trans hstop'.symm))⟩

/-- In whatever order the forms are tried, the one that is recognised is found. -/
theorem findSome?_shapeAt?_eq_some_iff {forms : List Form} (hall : ∀ f, f ∈ forms)
    {p : Shape × Nat} : forms.findSome? (c.shapeAt? i) = some p ↔ ∃ f, c.shapeAt? i f = some p := by
  constructor
  · intro hfound
    obtain ⟨f, -, hf⟩ := List.exists_of_findSome?_eq_some hfound
    exact ⟨f, hf⟩
  · rintro ⟨f, hf⟩
    have hsome : (forms.findSome? (c.shapeAt? i)).isSome = true := by
      rw [List.findSome?_isSome_iff]
      exact ⟨f, hall f, by rw [hf]; rfl⟩
    obtain ⟨q, hq⟩ := Option.isSome_iff_exists.mp hsome
    obtain ⟨g, -, hg⟩ := List.exists_of_findSome?_eq_some hq
    rw [hq, (shapeAt?_unique hf hg).2]

theorem statementAt?_eq_some_iff {p : Shape × Nat} :
    c.statementAt? i = some p ↔ ∃ f, c.shapeAt? i f = some p :=
  findSome?_shapeAt?_eq_some_iff Form.mem_all

/-- What is recognised at an index, with the index of its last token, stands there. -/
theorem of_statementAt?_eq_some (h : c.statementAt? i = some (shape, stop)) :
    shape.Proper ∧ shape.tokens ++ c.ahead (stop + 1) = c.ahead i ∧
      stop + 1 = i + shape.tokens.length := by
  obtain ⟨f, hf⟩ := statementAt?_eq_some_iff.mp h
  exact (shapeAt?_eq_some_iff.mp hf).2

/-- What stands at an index is recognised, with the index of its last token. -/
theorem exists_shapeAt?_iff :
    (∃ stop, c.shapeAt? i f = some (shape, stop) ∧ c.ahead (stop + 1) = rest) ↔
      shape.form = f ∧ shape.Proper ∧ shape.tokens ++ rest = c.ahead i := by
  constructor
  · rintro ⟨stop, hshape, rfl⟩
    obtain ⟨hform, hproper, htokens, -⟩ := shapeAt?_eq_some_iff.mp hshape
    exact ⟨hform, hproper, htokens⟩
  · rintro ⟨hform, hproper, htokens⟩
    have hpos := shape.length_pos
    have hstop : i + shape.tokens.length - 1 + 1 = i + shape.tokens.length := by omega
    have hrest : c.ahead (i + shape.tokens.length - 1 + 1) = rest := by
      rw [hstop]
      exact ahead_add htokens.symm
    exact ⟨_, shapeAt?_eq_some_iff.mpr ⟨hform, hproper, by rw [hrest, htokens], hstop⟩, hrest⟩

/-- **A form is recognised at an index if and only if a run that begins there spells it.** -/
theorem isSome_shapeAt?_iff : (c.shapeAt? i f).isSome = true ↔
    ∃ run, run <+: c.ahead i ∧ f.Spells (words run) := by
  rw [Option.isSome_iff_exists]
  constructor
  · rintro ⟨⟨shape, stop⟩, hshape⟩
    obtain ⟨rfl, hproper, htokens, -⟩ := shapeAt?_eq_some_iff.mp hshape
    exact ⟨_, ⟨_, htokens⟩, Form.spells_of_proper hproper⟩
  · rintro ⟨run, ⟨rest, htokens⟩, hspells⟩
    obtain ⟨shape, hform, hproper, rfl⟩ := Form.exists_of_spells hspells
    obtain ⟨stop, hshape, -⟩ := exists_shapeAt?_iff.mpr ⟨hform, hproper, htokens⟩
    exact ⟨_, hshape⟩

theorem isSome_statementAt?_iff : (c.statementAt? i).isSome = true ↔
    ∃ f : Form, ∃ run, run <+: c.ahead i ∧ f.Spells (words run) := by
  simp only [← isSome_shapeAt?_iff, Option.isSome_iff_exists, statementAt?_eq_some_iff]
  exact exists_comm

/-- The run at an index that spells a form, and the form, are unique. -/
theorem run_unique {g : Form} {other : List Token} (hrun : run <+: c.ahead i)
    (hf : f.Spells (words run)) (hother : other <+: c.ahead i) (hg : g.Spells (words other)) :
    f = g ∧ run = other := by
  obtain ⟨shape, rfl, hproper, rfl⟩ := Form.exists_of_spells hf
  obtain ⟨shape', rfl, hproper', rfl⟩ := Form.exists_of_spells hg
  obtain ⟨rest, hrest⟩ := hrun
  obtain ⟨behind, hbehind⟩ := hother
  obtain ⟨rfl, -⟩ := hproper.unique hproper' (hrest.trans hbehind.symm)
  exact ⟨rfl, rfl⟩

theorem exists_statementAt?_iff :
    (∃ stop, c.statementAt? i = some (shape, stop) ∧ c.ahead (stop + 1) = rest) ↔
      shape.Proper ∧ shape.tokens ++ rest = c.ahead i := by
  constructor
  · rintro ⟨stop, hshape, rfl⟩
    obtain ⟨hproper, htokens, -⟩ := of_statementAt?_eq_some hshape
    exact ⟨hproper, htokens⟩
  · intro h
    obtain ⟨stop, hf, hrest⟩ := exists_shapeAt?_iff.mpr ⟨rfl, h⟩
    exact ⟨stop, statementAt?_eq_some_iff.mpr ⟨_, hf⟩, hrest⟩

/-- What is recognised are the tokens from the index to the one given, and they spell its form. -/
theorem spells_slice (hshape : c.statementAt? i = some (shape, stop)) :
    c.slice i (stop + 1) = shape.tokens ∧ shape.tokens <+: c.ahead i ∧
      shape.form.Spells (words shape.tokens) := by
  obtain ⟨hproper, htokens, hstop⟩ := of_statementAt?_eq_some hshape
  rw [hstop]
  exact ⟨slice_of_ahead htokens.symm, ⟨_, htokens⟩, Form.spells_of_proper hproper⟩

/-- The reader of statements without a block takes what is recognised, and goes on behind it. -/
theorem simpleRead?_ahead_iff {x : Simple} : Simple.read? (c.ahead i) = some (x, rest) ↔
    ∃ stop, c.statementAt? i = some (.simple x, stop) ∧ c.ahead (stop + 1) = rest := by
  rw [exists_statementAt?_iff, Simple.read?_eq_some_iff]
  rfl

/-- The reader of headers takes what is recognised, and goes on behind it. -/
theorem headerReadAny?_ahead_iff {kind : HeaderKind} {h : Header} :
    Header.readAny? (c.ahead i) = some (kind, h, rest) ↔
      ∃ stop, c.statementAt? i = some (.header kind h, stop) ∧ c.ahead (stop + 1) = rest := by
  rw [exists_statementAt?_iff, Header.readAny?_eq_some_iff]
  rfl

end Cursor

end BraceLang
