import BraceLang.Proofs.Reading.Braces

/-!
# `Proofs.Reading.Pauses` — what begins behind a semicolon or a brace

A token of the kind `error` begins nothing. It could still matter what stands behind it, since whether
something begins at a place may depend on tokens far ahead, and in the middle of a value such a token is a
part of that value.

It does not matter behind a semicolon or a brace. A brace ends whatever is looked for, and a semicolon does
unless it is inside of parentheses; but then the token is inside of the same value, and the value is one
without it. So what does not begin at a place does not begin there with such a token ahead either.

## Contents
- `Balanced.without` and `IsExpression.without`, rows of words without a word that says nothing.
- `Simple.Proper.exists_value`, a statement as a head and a value which can be exchanged.
- `Pauses`, and **`Simple.Ahead.without`**, **`Header.Ahead.without`**, `ElseHead.Ahead.without` and
  `Function.Ahead.without`.
-/

namespace BraceLang

variable {e t : Token} {u v s rest : List Token}

/-! ## Words that say nothing -/

section Words

variable {w : Word} {run more : List Word} {text : String}

theorem Word.ne_mark_of_kind (hw : w.kind ≠ .punctuation) (text : String) : w ≠ .mark text := by
  rintro rfl
  exact hw rfl

theorem Word.ne_punctuation (hw : w.kind = .error) : w.kind ≠ .punctuation := by
  rw [hw]
  decide

theorem Word.ne_mark_of_error (hw : w.kind = .error) (text : String) : w ≠ .mark text :=
  ne_mark_of_kind (ne_punctuation hw) text

theorem Word.ne_reserved_of_error (hw : w.kind = .error) (text : String) : w ≠ .reserved text := by
  rintro rfl
  exact Token.Kind.noConfusion hw

theorem count_without (hw : w.kind = .error) (text : String) :
    (run ++ w :: more).count (.mark text) = (run ++ more).count (.mark text) := by
  rw [List.count_append, List.count_cons_of_ne (Word.ne_mark_of_error hw text), List.count_append]

theorem openings_without (hw : w.kind = .error) :
    openings (run ++ w :: more) = openings (run ++ more) := count_without hw "("

theorem closings_without (hw : w.kind = .error) :
    closings (run ++ w :: more) = closings (run ++ more) := count_without hw ")"

/-- A row without a word that says nothing is as balanced as with it. -/
theorem Balanced.without (h : Balanced (run ++ w :: more)) (hw : w.kind = .error) :
    Balanced (run ++ more) := by
  refine ⟨fun x hx => h.no_brace x ?_, fun front behind hsplit => ?_, ?_⟩
  · rcases List.mem_append.mp hx with hin | hin
    · exact List.mem_append_left _ hin
    · exact List.mem_append_right _ (List.mem_cons_of_mem w hin)
  · rcases List.append_eq_append_iff.mp hsplit with ⟨inner, rfl, rfl⟩ | ⟨inner, rfl, rfl⟩
    · have hle := h.closings_le (run ++ w :: inner) behind (by simp)
      rwa [closings_without hw, openings_without hw] at hle
    · exact h.closings_le front (inner ++ w :: more) (by simp)
  · have heq := h.closings_eq
    rwa [closings_without hw, openings_without hw] at heq

/-- An expression without a word that says nothing is one unless nothing is left of it. -/
theorem IsExpression.without (h : IsExpression (run ++ w :: more)) (hw : w.kind = .error)
    (hne : run ++ more ≠ []) : IsExpression (run ++ more) := by
  refine ⟨h.toBalanced.without hw, hne, fun front x behind hsplit hx => ?_⟩
  rcases List.append_eq_append_iff.mp hsplit with ⟨inner, rfl, rfl⟩ | ⟨inner, rfl, hmore⟩
  · have hlt := h.inside (run ++ w :: inner) x behind (by simp) hx
    rwa [closings_without hw, openings_without hw] at hlt
  · cases inner with
    | nil =>
      have hlt := h.inside (front ++ [w]) x behind (by simpa using hmore.symm) hx
      rwa [closings_without hw, openings_without hw, List.append_nil] at hlt
    | cons y inner =>
      obtain ⟨rfl, rfl⟩ := List.cons.inj hmore
      exact h.inside front x (inner ++ w :: more) (by simp) hx

end Words

/-! ## Statements ahead -/

theorem Word.IsTypeName.ne_mark {w : Word} (h : w.IsTypeName) (text : String) : w ≠ .mark text :=
  ne_mark_of_kind (by rw [h.1]; decide) text

theorem Word.IsName.ne_mark {w : Word} (h : w.IsName) (text : String) : w ≠ .mark text :=
  ne_mark_of_kind (by rw [show w.kind = .identifier from h]; decide) text

theorem Word.IsAssignment.ne_mark {w : Word} (h : w.IsAssignment) (text : String) : w ≠ .mark text :=
  ne_mark_of_kind (by rw [h.1]; decide) text

theorem IsSuffix.not_mem_semicolon {run : List Word} (h : IsSuffix run) : .mark ";" ∉ run := by
  rcases h with rfl | ⟨inner, rfl, hinner⟩
  · exact List.not_mem_nil
  · intro hmem
    rcases List.mem_cons.mp hmem with hopen | hrest
    · exact absurd (congrArg Word.text hopen) (by decide)
    · rcases List.mem_append.mp hrest with hin | hclose
      · exact hinner _ hin rfl
      · exact absurd (congrArg Word.text (List.mem_singleton.mp hclose)) (by decide)

theorem IsArgumentList.not_mem_semicolon {run : List Word} (h : IsArgumentList run) :
    .mark ";" ∉ run := by
  have hargument {a : Word} (ha : a.IsArgument) : .mark ";" ≠ a := by
    rintro rfl
    exact absurd (show Token.Kind.punctuation.isArgument = true from ha) (by decide)
  induction h with
  | single ha =>
    intro hmem
    exact hargument ha (List.mem_singleton.mp hmem)
  | more ha _ ih =>
    intro hmem
    rcases List.mem_cons.mp hmem with hfirst | hrest
    · exact hargument ha hfirst
    · rcases List.mem_cons.mp hrest with hcomma | hin
      · exact absurd (congrArg Word.text hcomma) (by decide)
      · exact ih hin

namespace Simple

/-- The value of a statement stands behind a head without semicolons, and where there is one, any other
    expression could stand in its place. -/
theorem Proper.exists_value {x : Simple} (hx : x.Proper) : ∃ head value semicolon,
    x.tokens = head ++ (value ++ [semicolon]) ∧ (.mark ";" ∉ words head) ∧
      semicolon.word = .mark ";" ∧ (value ≠ [] → IsExpression (words value) ∧
        ∀ other, IsExpression (words other) →
          ∃ y : Simple, y.Proper ∧ y.tokens = head ++ (other ++ [semicolon])) := by
  -- the head is made of words none of which is a semicolon
  have hhead {t : Token} {head : List Token} (ht : t.word ≠ .mark ";") (h : .mark ";" ∉ words head) :
      .mark ";" ∉ words (t :: head) := List.not_mem_cons_of_ne_of_not_mem ht.symm h
  have hnil : .mark ";" ∉ words [] := List.not_mem_nil
  cases x with
  | declaration type name suffix initializer semicolon =>
    obtain ⟨htype, hname, hsuffix, hinitializer, hsemi⟩ := hx
    have hfront {run : List Token} (hrun : .mark ";" ∉ words run) :
        .mark ";" ∉ words (type :: name :: (suffix ++ run)) := by
      refine hhead (htype.ne_mark _) (hhead (hname.ne_mark _) ?_)
      rw [words, List.map_append, List.mem_append]
      exact not_or.mpr ⟨hsuffix.not_mem_semicolon, hrun⟩
    cases initializer with
    | none =>
      exact ⟨type :: name :: (suffix ++ []), [], semicolon, by simp [tokens], hfront hnil, hsemi,
        fun h => absurd rfl h⟩
    | some i =>
      obtain ⟨hsign, hvalue⟩ := hinitializer i rfl
      refine ⟨type :: name :: (suffix ++ [i.sign]), i.value, semicolon, by simp [tokens, Initializer.tokens],
        hfront (hhead ?_ hnil), hsemi, fun _ => ⟨hvalue, fun other hother => ?_⟩⟩
      · rw [hsign]
        decide
      · refine ⟨declaration type name suffix (some ⟨i.sign, other⟩) semicolon,
          ⟨htype, hname, hsuffix, ?_, hsemi⟩, by simp [tokens, Initializer.tokens]⟩
        intro j hj
        obtain rfl := Option.mem_some.mp hj
        exact ⟨hsign, hother⟩
  | call name opening arguments closing semicolon =>
    obtain ⟨hname, hopening, harguments, hclosing, hsemi⟩ := hx
    refine ⟨name :: opening :: (arguments ++ [closing]), [], semicolon, by simp [tokens], ?_, hsemi,
      fun h => absurd rfl h⟩
    refine hhead (hname.ne_mark _) (hhead (by rw [hopening]; decide) ?_)
    rw [words, List.map_append, List.mem_append]
    refine not_or.mpr ⟨?_, hhead (by rw [hclosing]; decide) hnil⟩
    rcases harguments with rfl | hlist
    · exact List.not_mem_nil
    · exact hlist.not_mem_semicolon
  | ret keyword value semicolon =>
    obtain ⟨hkeyword, hvalue, hsemi⟩ := hx
    refine ⟨[keyword], value, semicolon, rfl, hhead ?_ hnil, hsemi,
      fun hne => ⟨hvalue.resolve_left hne, fun other hother => ?_⟩⟩
    · rw [hkeyword]
      exact Word.reserved_ne_mark _ _
    · exact ⟨ret keyword other semicolon, ⟨hkeyword, .inr hother, hsemi⟩, rfl⟩
  | assignment target operator value semicolon =>
    obtain ⟨htarget, hoperator, hvalue, hsemi⟩ := hx
    refine ⟨[target, operator], value, semicolon, rfl,
      hhead (htarget.ne_mark _) (hhead (hoperator.ne_mark _) hnil), hsemi, fun _ => ⟨hvalue, ?_⟩⟩
    intro other hother
    exact ⟨assignment target operator other semicolon, ⟨htarget, hoperator, hother, hsemi⟩, rfl⟩

/-- No statement begins with noise. -/
theorem Ahead.first_ne (h : Ahead (t :: s)) (ht : t.kind = .error) : False := by
  obtain ⟨x, rest, hx, hrest⟩ := h
  have hfirst : x.first = t := by
    have hhead := congrArg List.head? hrest
    rw [List.head?_append, x.head?_tokens] at hhead
    exact Option.some.inj hhead
  have hkind : x.first.word.kind = .error := by rw [hfirst]; exact ht
  rcases hx.first with htype | hname | hreturn
  · exact Token.Kind.noConfusion (htype.1.symm.trans hkind)
  · exact Token.Kind.noConfusion ((show _ = Token.Kind.identifier from hname).symm.trans hkind)
  · exact Word.ne_reserved_of_error hkind _ hreturn

end Simple

/-- No header begins with noise. -/
theorem Header.Ahead.first_ne {kind : HeaderKind} (h : Ahead kind (t :: s)) (ht : t.kind = .error) :
    False := by
  obtain ⟨h, rest, hh, hrest⟩ := h
  obtain ⟨rfl, -⟩ := List.cons.inj hrest
  exact Word.ne_reserved_of_error ht _ hh.keyword

/-- The run is empty, or its last token is a semicolon or a brace. -/
def Pauses (run : List Token) : Prop := ∀ t ∈ run.getLast?, t.word = .mark ";" ∨ t.word.IsBrace

theorem Pauses.of_append {run : List Token} (h : Pauses (run ++ s)) : Pauses s := by
  intro t ht
  apply h
  rw [List.getLast?_append, Option.mem_def.mp ht]
  rfl

/-- A part of a row ends in front of the noise, or the noise is in it. -/
theorem append_eq_noise {part : List Token} (h : part ++ rest = u ++ e :: v) :
    (∃ inner, u = part ++ inner) ∨ ∃ w, part = u ++ e :: w ∧ v = w ++ rest := by
  rcases List.append_eq_append_iff.mp h with ⟨inner, rfl, -⟩ | ⟨inner, rfl, hbehind⟩
  · exact .inl ⟨inner, rfl⟩
  · cases inner with
    | nil => exact .inl ⟨[], by simp⟩
    | cons x w =>
      obtain ⟨rfl, rfl⟩ := List.cons.inj hbehind
      exact .inr ⟨w, rfl, rfl⟩

/-- A row in front of the noise has no part of the last token behind it. -/
theorem eq_append_of_concat {init w : List Token} {last : Token} (h : init ++ [last] = u ++ e :: w)
    (hne : e ≠ last) : ∃ inner, init = u ++ e :: inner ∧ w = inner ++ [last] := by
  rcases List.eq_nil_or_concat w with rfl | ⟨inner, x, rfl⟩
  · exact absurd (List.append_inj' h rfl).2.symm (by simpa using hne)
  · have hsplit : init ++ [last] = (u ++ e :: inner) ++ [x] := by simpa using h
    obtain ⟨rfl, hlast⟩ := List.append_inj' hsplit rfl
    exact ⟨inner, rfl, by rw [(List.cons.inj hlast).1]; simp⟩

/-- Noise in a gap stands behind a part without braces, or inside of the value of the part: the semicolon in
    front of it is neither in the head of the part nor its end. -/
theorem behind_or_inside {part head value tail : List Token} {last : Token}
    (h : part ++ rest = u ++ e :: v) (hpart : part = head ++ (value ++ (tail ++ [last])))
    (hpause : Pauses u ∨ v = []) (hu : u ≠ []) (hbrace : ∀ t ∈ head ++ (value ++ tail), ¬ t.word.IsBrace)
    (hhead : .mark ";" ∉ words head) (htail : e ∉ tail) (hlast : e ≠ last) :
    (∃ inner, u = part ++ inner) ∨ ∃ front behind, front ≠ [] ∧ u = head ++ front ∧
      value = front ++ e :: behind ∧ v = behind ++ ((tail ++ [last]) ++ rest) := by
  rcases append_eq_noise h with hinner | ⟨w, hw, rfl⟩
  · exact .inl hinner
  right
  obtain ⟨inner, hinit, rfl⟩ : ∃ inner, head ++ (value ++ tail) = u ++ e :: inner ∧ w = inner ++ [last] := by
    refine eq_append_of_concat ?_ hlast
    rw [← hw, hpart]
    simp
  have hsemi : .mark ";" ∈ words u := by
    have hpauses := hpause.resolve_right (by simp)
    have hmem := List.getLast_mem hu
    have hword := hpauses _ (List.getLast?_eq_some_getLast hu)
    rw [← hword.resolve_right (hbrace _ (hinit ▸ List.mem_append_left _ hmem))]
    exact List.mem_map_of_mem hmem
  rcases List.append_eq_append_iff.mp hinit with ⟨front, rfl, hfront⟩ | ⟨beyond, rfl, -⟩
  · rcases append_eq_noise hfront with ⟨more, rfl⟩ | ⟨behind, rfl, rfl⟩
    · rw [List.append_assoc, List.append_cancel_left_eq] at hfront
      exact absurd (hfront ▸ List.mem_append_right more List.mem_cons_self) htail
    · refine ⟨front, behind, ?_, rfl, rfl, by simp⟩
      rintro rfl
      rw [List.append_nil] at hsemi
      exact hhead hsemi
  · rw [words, List.map_append] at hhead
    exact absurd (List.mem_append_left _ hsemi) hhead

/-- A statement that has noise in it is one without the noise, if this stands in a gap. -/
theorem Simple.Ahead.without (h : Ahead (u ++ e :: v)) (he : e.kind = .error)
    (hpause : Pauses u ∨ v = []) : Ahead (u ++ v) := by
  have hu : u ≠ [] := by
    rintro rfl
    exact h.first_ne he
  obtain ⟨x, rest, hx, hrest⟩ := h
  obtain ⟨head, value, semicolon, htokens, hhead, hsemi, hvalue⟩ := hx.exists_value
  have hlast : e ≠ semicolon := by
    rintro rfl
    exact Word.ne_mark_of_error he _ hsemi
  have hbrace : ∀ t ∈ head ++ (value ++ []), ¬ t.word.IsBrace := by
    intro t ht
    rw [List.append_nil] at ht
    refine hx.no_brace t ?_
    rw [htokens, ← List.append_assoc]
    exact List.mem_append_left _ ht
  rcases behind_or_inside hrest htokens hpause hu hbrace hhead List.not_mem_nil hlast with
    ⟨inner, rfl⟩ | ⟨front, behind, hfront, rfl, rfl, rfl⟩
  · exact ⟨x, inner ++ v, hx, (List.append_assoc _ _ _).symm⟩
  obtain ⟨hexpr, hother⟩ := hvalue (List.append_ne_nil_of_left_ne_nil hfront _)
  have hexpr' : IsExpression (words (front ++ behind)) := by
    rw [words, List.map_append, List.map_cons] at hexpr
    rw [words, List.map_append]
    refine hexpr.without he ?_
    rw [← List.map_append]
    exact fun hnil => hfront (List.append_eq_nil_iff.mp (List.map_eq_nil_iff.mp hnil)).1
  obtain ⟨y, hy, hytokens⟩ := hother _ hexpr'
  exact ⟨y, rest, hy, by rw [hytokens]; simp⟩

/-- A header that has noise in it is one without the noise, if this stands in a gap. -/
theorem Header.Ahead.without {kind : HeaderKind} (h : Ahead kind (u ++ e :: v)) (he : e.kind = .error)
    (hpause : Pauses u ∨ v = []) : Ahead kind (u ++ v) := by
  have hu : u ≠ [] := by
    rintro rfl
    exact h.first_ne he
  obtain ⟨⟨keyword, opening, condition, closing, brace⟩, rest, hh, hrest⟩ := h
  have hmark {t : Token} {text : String} (ht : t.word = .mark text) : e ≠ t := by
    rintro rfl
    exact Word.ne_mark_of_error he _ ht
  have hhead : .mark ";" ∉ words [keyword, opening] := by
    rw [words, List.map_cons, List.map_cons, hh.keyword, hh.opening]
    intro hmem
    rcases List.mem_cons.mp hmem with hkeyword | hopening
    · exact Word.reserved_ne_mark _ _ hkeyword.symm
    · exact absurd (List.mem_singleton.mp hopening) (by decide)
  have htail : e ∉ [closing] := fun hmem => hmark hh.closing (List.mem_singleton.mp hmem)
  have hparts : Header.tokens ⟨keyword, opening, condition, closing, brace⟩ =
      [keyword, opening] ++ (condition ++ ([closing] ++ [brace])) := rfl
  rcases behind_or_inside hrest hparts hpause hu hh.no_brace hhead htail (hmark hh.brace) with
    ⟨inner, rfl⟩ | ⟨front, behind, -, rfl, rfl, rfl⟩
  · exact ⟨_, inner ++ v, hh, (List.append_assoc _ _ _).symm⟩
  have hcondition : Balanced (words (front ++ behind)) := by
    have hbalanced := hh.condition
    rw [words, List.map_append, List.map_cons] at hbalanced
    rw [words, List.map_append]
    exact hbalanced.without he
  exact ⟨⟨keyword, opening, front ++ behind, closing, brace⟩, rest,
    ⟨hh.keyword, hh.opening, hcondition, hh.closing, hh.brace⟩, by simp [tokens]⟩

/-- No `else` begins with noise. -/
theorem ElseHead.Ahead.first_ne (h : Ahead (t :: s)) (ht : t.kind = .error) : False := by
  obtain ⟨e, rest, he, hrest⟩ := h
  obtain ⟨rfl, -⟩ := List.cons.inj hrest
  exact Word.ne_reserved_of_error ht _ he.keyword

/-- The start of an `else` that has noise in or behind it is one without the noise. -/
theorem ElseHead.Ahead.without (h : Ahead (u ++ e :: v)) (he : e.kind = .error)
    (hpause : Pauses u ∨ v = []) : Ahead (u ++ v) := by
  cases u with
  | nil => exact absurd he h.first_ne
  | cons t u =>
    obtain ⟨⟨keyword, brace⟩, rest, hproper, hrest⟩ := h
    obtain ⟨rfl, hbehind⟩ := List.cons.inj hrest
    cases brace with
    | none =>
      obtain rfl : rest = u ++ e :: v := hbehind
      have hheader := (hproper.header rfl).without he (hpause.imp_left (@Pauses.of_append u [_]))
      exact ⟨⟨_, none⟩, u ++ v, ⟨hproper.keyword, hproper.brace, fun _ => hheader⟩, rfl⟩
    | some b =>
      have hbrace := hproper.brace b rfl
      cases u with
      | nil =>
        obtain ⟨rfl, -⟩ := List.cons.inj hbehind
        exact absurd hbrace (Word.ne_mark_of_error he _)
      | cons c u =>
        obtain ⟨rfl, -⟩ := List.cons.inj hbehind
        exact ⟨⟨_, some _⟩, u ++ v, ⟨hproper.keyword, hproper.brace, nofun⟩, rfl⟩

/-- No function begins with noise, and none has it in the tokens with which it begins. -/
theorem Function.Ahead.without (h : Ahead (u ++ e :: v)) (he : e.kind = .error) : Ahead (u ++ v) := by
  obtain ⟨type, name, opening, rest, hstart, htokens⟩ := h
  match u with
  | [] =>
    obtain ⟨rfl, -⟩ := List.cons.inj htokens
    exact Token.Kind.noConfusion (he.symm.trans hstart.type.1)
  | [_] =>
    obtain ⟨-, hbehind⟩ := List.cons.inj htokens
    obtain ⟨rfl, -⟩ := List.cons.inj hbehind
    exact Token.Kind.noConfusion (he.symm.trans hstart.name)
  | [_, _] =>
    obtain ⟨-, hbehind⟩ := List.cons.inj htokens
    obtain ⟨rfl, -⟩ := List.cons.inj (List.cons.inj hbehind).2
    exact absurd hstart.opening (Word.ne_mark_of_error he _)
  | _ :: _ :: _ :: u =>
    obtain ⟨rfl, hbehind⟩ := List.cons.inj htokens
    obtain ⟨rfl, hbehind'⟩ := List.cons.inj hbehind
    obtain ⟨rfl, -⟩ := List.cons.inj hbehind'
    exact ⟨_, _, _, u ++ v, hstart, rfl⟩

end BraceLang
