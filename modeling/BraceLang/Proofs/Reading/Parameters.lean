import BraceLang.Token.Lexer
import BraceLang.Proofs.Reading.Extents
import BraceLang.Proofs.Reading.Nesting
import BraceLang.Proofs.Tree.Functions

/-!
# `Proofs.Reading.Parameters` — where a parameter list ends, and what its parameters are

A parameter list is read in one go: parentheses are counted, a type and a name are taken together, and
anything else is passed over. Where the list ends and which of its tokens are parameters can be said
of each place alone, by counting the parentheses that stand between the place and the opening one.

The reader only knows the tokens that are left and how many parentheses are open, so both are first said
relative to these, with one lemma for the token at the front. The indices into the whole row come last.

## Contents
- `IsListEnd` and `IsParameterAt`, by indices, and `Tree.HasParameters`.
- `Overcloses` and `PairAt`, relative to the tokens left, and what the first token does to them.
- `ParameterList.Takes`, what the reader takes, with `takes_readItems`, `Takes.endsAfter` and
  `Takes.mem_places_iff`.
- `Program.placedFunctions`, the functions with the indices of their first tokens.
- **`Program.read_parameters`**.
-/

namespace BraceLang

/-! ## Parameter lists by indices -/

/-- Behind the index `o` and up to `c`, more parentheses are closed than opened. -/
def ClosesList (tokens : List Token) (o c : Nat) : Prop :=
  o < c ∧ c < tokens.length ∧
    openings (words (tokensBehind tokens o c)) < closings (words (tokensBehind tokens o c))

/-- A parameter list whose opening parenthesis has the index `o` ends with the token `c`: the first one up
    to which more parentheses are closed than opened, or the last token of all if there is none. -/
def IsListEnd (tokens : List Token) (o c : Nat) : Prop :=
  (∀ i, i < c → ¬ ClosesList tokens o i) ∧
    (ClosesList tokens o c ∨ c + 1 = tokens.length ∧ ¬ ClosesList tokens o c)

/-- In the list from the index `o` to `c`, the tokens `i` and `i + 1` are a parameter: the name of a type
    and an identifier, where each parenthesis opened in the list is closed. -/
structure IsParameterAt (tokens : List Token) (o c i : Nat) : Prop where
  behind : o < i
  inside : i + 1 ≤ c
  type : ∃ t, tokens[i]? = some t ∧ t.word.IsTypeName
  name : ∃ t, tokens[i + 1]? = some t ∧ t.word.IsName
  closed : openings (words (tokensBehind tokens o i)) = closings (words (tokensBehind tokens o i))

namespace Tree

/-- The node covers the tokens `i` and `i + 1` as a parameter, and has a node for each of them. -/
def IsParameter (t : Tree) (tokens : List Token) (i : Nat) (n : Node) : Prop :=
  ∃ type name, tokens[i]? = some type ∧ tokens[i + 1]? = some name ∧
    n.label = .covering .parameter none type name ∧
      (t.children n.id).map Node.label = [.ofToken .type type, .ofToken .identifier name]

/-- The node `function` has one parameter list. It covers the tokens from the index `o` to where a list
    that is opened there ends, and its children are all parameters in it, in order. -/
def HasParameters (t : Tree) (tokens : List Token) (function o : Nat) : Prop :=
  ∃ c opening last list places, IsListEnd tokens o c ∧
    tokens[o]? = some opening ∧ tokens[c]? = some last ∧
    (t.children function).filter (·.label.kind == .parameters) = [list] ∧
    list.label = .covering .parameters none opening last ∧
    places.Pairwise (· < ·) ∧ (∀ i, i ∈ places ↔ IsParameterAt tokens o c i) ∧
    List.Forall₂ (t.IsParameter tokens) places (t.children list.id)

end Tree

/-! ## Parameter lists from the front -/

section Front

variable {depth deeper j m n : Nat} {t : Token} {s rest tokens : List Token} {o : Nat}

/-- Up to the length `m`, the tokens close more than their own parentheses and `depth` further ones. -/
def Overcloses (depth : Nat) (s : List Token) (m : Nat) : Prop :=
  depth + openings (words (s.take m)) < closings (words (s.take m))

/-- A list in which `depth` parentheses are open ends after `n` of the tokens. -/
structure EndsAfter (depth : Nat) (s : List Token) (n : Nat) : Prop where
  before : ∀ m, m < n → ¬ Overcloses depth s m
  ends : Overcloses depth s n ∨ n = s.length ∧ ¬ Overcloses depth s n

/-- The name of a type stands behind `j` tokens, an identifier behind it, and the `depth` parentheses that
    were open are closed there, with all others. -/
structure PairAt (depth : Nat) (s : List Token) (j : Nat) : Prop where
  type : ∃ t, s[j]? = some t ∧ t.word.IsTypeName
  name : ∃ t, s[j + 1]? = some t ∧ t.word.IsName
  closed : depth + openings (words (s.take (j + 1))) = closings (words (s.take (j + 1)))

theorem not_overcloses_zero : ¬ Overcloses depth s 0 := by
  intro h
  exact absurd h (Nat.not_lt_zero _)

theorem overcloses_succ (hc : t.word.Changes depth deeper) :
    Overcloses depth (t :: s) (m + 1) ↔ Overcloses deeper s m := by
  unfold Word.Changes at hc
  rw [Overcloses, Overcloses, List.take_succ_cons, words, List.map_cons, openings_cons, closings_cons,
    words]
  omega

theorem EndsAfter.cons (hc : t.word.Changes depth deeper) (h : EndsAfter deeper s n) :
    EndsAfter depth (t :: s) (n + 1) := by
  constructor
  · intro m hm
    cases m with
    | zero => exact not_overcloses_zero
    | succ m =>
      rw [overcloses_succ hc]
      exact h.before m (Nat.lt_of_succ_lt_succ hm)
  · rw [overcloses_succ hc, List.length_cons, Nat.succ_inj]
    exact h.ends

/-- The name of a type is no parenthesis. -/
theorem Token.changes_of_isTypeName (h : t.word.IsTypeName) : t.word.Changes depth depth := by
  have hne (text : String) : ¬ t.isPunct text = true := by
    rw [Token.isPunct_iff]
    intro heq
    rw [heq] at h
    exact absurd (show Token.Kind.punctuation = .keyword from h.1) (by decide)
  exact t.changes_other (hne _) (hne _)

/-- A name is no parenthesis. -/
theorem Token.changes_of_isName (h : t.word.IsName) : t.word.Changes depth depth := by
  have hne (text : String) : ¬ t.isPunct text = true := by
    rw [Token.isPunct_iff]
    intro heq
    rw [heq] at h
    exact absurd (show Token.Kind.punctuation = .identifier from h) (by decide)
  exact t.changes_other (hne _) (hne _)

theorem Word.IsName.not_isTypeName {w : Word} (h : w.IsName) : ¬ w.IsTypeName := by
  intro htype
  exact absurd (h.symm.trans htype.1) (by decide)

theorem pairAt_zero : PairAt depth (t :: s) 0 ↔
    depth = 0 ∧ t.word.IsTypeName ∧ ∃ name ∈ s.head?, name.word.IsName := by
  have hcount (ht : t.word.IsTypeName) :
      depth + openings (words [t]) = closings (words [t]) ↔ depth = 0 := by
    have hc : t.word.Changes depth depth := t.changes_of_isTypeName ht
    unfold Word.Changes at hc
    simp only [words, List.map_cons, List.map_nil]
    omega
  rw [List.head?_eq_getElem?]
  constructor
  · rintro ⟨⟨type, htype, hin⟩, ⟨name, hname, hin'⟩, hclosed⟩
    obtain rfl := Option.some.inj htype
    exact ⟨(hcount hin).mp hclosed, hin, name, hname, hin'⟩
  · rintro ⟨rfl, htype, name, hname, hin⟩
    exact ⟨⟨t, rfl, htype⟩, ⟨name, hname, hin⟩, (hcount htype).mpr rfl⟩

theorem pairAt_succ (hc : t.word.Changes depth deeper) :
    PairAt depth (t :: s) (j + 1) ↔ PairAt deeper s j := by
  have hcount : depth + openings (words ((t :: s).take (j + 1 + 1))) =
        closings (words ((t :: s).take (j + 1 + 1))) ↔
      deeper + openings (words (s.take (j + 1))) = closings (words (s.take (j + 1))) := by
    unfold Word.Changes at hc
    rw [List.take_succ_cons, words, List.map_cons, openings_cons, closings_cons, words]
    omega
  exact ⟨fun h => ⟨h.type, h.name, hcount.mp h.closed⟩,
    fun h => ⟨h.type, h.name, hcount.mpr h.closed⟩⟩

/-- What stands behind an index, in terms of the tokens left there. -/
theorem tokensBehind_eq_take (hs : tokens.drop (o + 1) = s) (i : Nat) :
    tokensBehind tokens o i = s.take (i - o) := by
  rw [tokensBehind, List.drop_take, hs, Nat.add_sub_add_right]

theorem isListEnd_of_endsAfter (hlt : o < tokens.length) (hs : tokens.drop (o + 1) = s)
    (hn : n ≤ s.length) (h : EndsAfter 0 s n) : IsListEnd tokens o (o + n) := by
  have hlength : s.length + (o + 1) = tokens.length := by
    rw [← hs, List.length_drop]
    omega
  have hiff (i : Nat) (hi : i ≤ o + n) : ClosesList tokens o i ↔ Overcloses 0 s (i - o) := by
    rw [ClosesList, tokensBehind_eq_take hs, Overcloses, Nat.zero_add]
    refine ⟨fun h => h.2.2, fun h => ⟨?_, by omega, h⟩⟩
    by_contra hle
    rw [Nat.sub_eq_zero_of_le (Nat.not_lt.mp hle)] at h
    exact absurd h (Nat.not_lt_zero _)
  constructor
  · intro i hi
    rw [hiff i (Nat.le_of_lt hi)]
    by_cases hle : i ≤ o
    · rw [Nat.sub_eq_zero_of_le hle]
      exact not_overcloses_zero
    · exact h.before _ (by omega)
  · rw [hiff _ (Nat.le_refl _), Nat.add_sub_cancel_left]
    refine h.ends.imp_right fun hend => ⟨?_, hend.2⟩
    rw [hend.1, ← hlength]
    omega

theorem isParameterAt_iff (hs : tokens.drop (o + 1) = s) {i : Nat} :
    IsParameterAt tokens o (o + n) i ↔ ∃ j, o + 1 + j = i ∧ PairAt 0 s j ∧ j + 2 ≤ n := by
  have hget (j : Nat) : tokens[o + 1 + j]? = s[j]? := by rw [← hs, List.getElem?_drop]
  have hcount (j : Nat) : tokensBehind tokens o (o + 1 + j) = s.take (j + 1) := by
    rw [tokensBehind_eq_take hs]
    congr 1
    omega
  constructor
  · rintro ⟨hbehind, hinside, htype, hname, hclosed⟩
    obtain ⟨j, rfl⟩ := Nat.exists_eq_add_of_le (Nat.succ_le_of_lt hbehind)
    rw [Nat.succ_eq_add_one] at *
    rw [hget] at htype
    rw [Nat.add_assoc, hget] at hname
    rw [hcount] at hclosed
    exact ⟨j, rfl, ⟨htype, hname, by rwa [Nat.zero_add]⟩, by omega⟩
  · rintro ⟨j, rfl, ⟨htype, hname, hclosed⟩, hin⟩
    rw [Nat.zero_add] at hclosed
    refine ⟨by omega, by omega, ?_, ?_, ?_⟩
    · rwa [hget]
    · rwa [Nat.add_assoc, hget]
    · rwa [hcount]

end Front

/-! ## What the reader finds -/

namespace ParameterList

variable {depth deeper j n : Nat} {t type name : Token} {s : List Token} {items : List ParameterItem}
  {closing : Option Token}

/-- Behind how many tokens the parameters among the parts of a list stand. -/
def places : List ParameterItem → List Nat
  | [] => []
  | .skipped _ :: items => (places items).map (· + 1)
  | .parameter _ _ :: items => 0 :: (places items).map (· + 2)

theorem pairwise_places (items : List ParameterItem) : (places items).Pairwise (· < ·) := by
  induction items with
  | nil => exact .nil
  | cons i items ih =>
    have hraise (more : Nat) : ((places items).map (· + more)).Pairwise (· < ·) :=
      List.pairwise_map.mpr (ih.imp fun hlt => Nat.add_lt_add_right hlt more)
    cases i with
    | skipped t => exact hraise 1
    | parameter type name =>
      refine List.pairwise_cons.mpr ⟨?_, hraise 2⟩
      intro j hj
      obtain ⟨i, -, rfl⟩ := List.mem_map.mp hj
      exact Nat.succ_pos _

/-- With `depth` parentheses open, the parts of a list are read from `n` of the tokens. -/
inductive Takes : Nat → List Token → List ParameterItem → Nat → Prop
  | atEnd {depth : Nat} : Takes depth [] [] 0
  | close {t : Token} {s : List Token} (ht : t.isPunct ")" = true) : Takes 0 (t :: s) [] 1
  | parameter {type name : Token} {s : List Token} {items : List ParameterItem} {n : Nat}
      (htype : type.word.IsTypeName) (hname : name.word.IsName) (hrest : Takes 0 s items n) :
      Takes 0 (type :: name :: s) (.parameter type name :: items) (n + 2)
  | skipped {depth deeper : Nat} {t : Token} {s : List Token} {items : List ParameterItem} {n : Nat}
      (hc : t.word.Changes depth deeper) (hno : ¬ PairAt depth (t :: s) 0)
      (hrest : Takes deeper s items n) : Takes depth (t :: s) (.skipped t :: items) (n + 1)

theorem not_pairAt_zero_of_isPunct {text : String} (h : t.isPunct text = true) :
    ¬ PairAt depth (t :: s) 0 := by
  rw [pairAt_zero, Token.isPunct_iff.mp h]
  rintro ⟨-, htype, -⟩
  exact absurd (show Token.Kind.punctuation = .keyword from htype.1) (by decide)

/-- The number of tokens of the parts of a list and of its closing parenthesis. -/
def tokenCount (items : List ParameterItem) (closing : Option Token) : Nat :=
  (items.flatMap ParameterItem.tokens).length + closing.toList.length

theorem tokenCount_skipped :
    tokenCount (.skipped t :: items) closing = tokenCount items closing + 1 := by
  simp only [tokenCount, List.flatMap_cons, List.length_append, ParameterItem.tokens, List.length_cons,
    List.length_nil]
  omega

theorem tokenCount_parameter :
    tokenCount (.parameter type name :: items) closing = tokenCount items closing + 2 := by
  simp only [tokenCount, List.flatMap_cons, List.length_append, ParameterItem.tokens, List.length_cons,
    List.length_nil]
  omega

theorem takes_readItems :
    Takes depth s (readItems depth s).1 (tokenCount (readItems depth s).1 (readItems depth s).2.1) := by
  -- The cases are the end, `(`, the `)` that ends the list, another `)`, a parameter, another token, and
  -- the last token of all.
  fun_induction readItems depth s
  case case1 => exact .atEnd
  case case2 depth t s ho items closing rest hread ih =>
    rw [hread] at ih
    rw [tokenCount_skipped]
    exact .skipped (t.changes_opening ho) (not_pairAt_zero_of_isPunct ho) ih
  case case3 t s ho hc => exact .close hc
  case case4 t s ho hc depth items closing rest hread ih =>
    rw [hread] at ih
    rw [tokenCount_skipped]
    exact .skipped (t.changes_closing hc) (not_pairAt_zero_of_isPunct hc) ih
  case case5 depth t ho hc name s htest items closing rest hread ih =>
    rw [Bool.and_eq_true, Bool.and_eq_true, beq_iff_eq, Token.isTypeName_iff, Token.isName_iff] at htest
    obtain ⟨⟨rfl, htype⟩, hname⟩ := htest
    rw [hread] at ih
    rw [tokenCount_parameter]
    exact .parameter htype hname ih
  case case6 depth t ho hc name s htest items closing rest hread ih =>
    rw [Bool.and_eq_true, Bool.and_eq_true, beq_iff_eq, Token.isTypeName_iff, Token.isName_iff] at htest
    rw [hread] at ih
    rw [tokenCount_skipped]
    refine .skipped (t.changes_other ho hc) ?_ ih
    rw [pairAt_zero]
    rintro ⟨hdepth, htype, first, hfirst, hname⟩
    obtain rfl := Option.some.inj hfirst
    exact htest ⟨⟨hdepth, htype⟩, hname⟩
  case case7 depth t ho hc =>
    refine .skipped (t.changes_other ho hc) ?_ .atEnd
    rw [pairAt_zero]
    rintro ⟨-, -, name, hname, -⟩
    exact absurd hname (Option.not_mem_none name)

/-- **The list is read to its end.** -/
theorem Takes.endsAfter (h : Takes depth s items n) : EndsAfter depth s n := by
  induction h with
  | atEnd => exact ⟨fun m hm => absurd hm (Nat.not_lt_zero m), .inr ⟨rfl, not_overcloses_zero⟩⟩
  | @close t s ht =>
    refine ⟨fun m hm => ?_, .inl ?_⟩
    · rw [Nat.lt_one_iff.mp hm]
      exact not_overcloses_zero
    · rw [Overcloses, List.take_succ_cons, List.take_zero, words, List.map_cons, List.map_nil,
        openings_word, closings_word, if_pos ht, if_neg (Token.not_isPunct ht (by decide))]
      exact Nat.zero_lt_one
  | parameter htype hname _ ih =>
    exact (ih.cons (Token.changes_of_isName hname)).cons (Token.changes_of_isTypeName htype)
  | skipped hc _ _ ih => exact ih.cons hc

/-- **The parameters that are read are the pairs that stand in the list.** -/
theorem Takes.mem_places_iff (h : Takes depth s items n) :
    j ∈ places items ↔ PairAt depth s j ∧ j + 2 ≤ n := by
  induction h generalizing j with
  | atEnd =>
    refine ⟨fun h => absurd h List.not_mem_nil, ?_⟩
    rintro ⟨-, hin⟩
    omega
  | close ht =>
    refine ⟨fun h => absurd h List.not_mem_nil, ?_⟩
    rintro ⟨-, hin⟩
    omega
  | @parameter type name s items n htype hname _ ih =>
    rw [places, List.mem_cons, List.mem_map]
    have hfirst : PairAt 0 (type :: name :: s) 0 := pairAt_zero.mpr ⟨rfl, htype, name, rfl, hname⟩
    rcases j with _ | _ | j
    · simp [hfirst]
    · -- an identifier does not begin another pair
      have hnot : ¬ PairAt 0 (name :: s) 0 := fun h => hname.not_isTypeName (pairAt_zero.mp h).2.1
      simp [pairAt_succ (Token.changes_of_isTypeName htype), hnot]
    · have hbelow : (∃ i ∈ places items, i + 2 = j + 1 + 1) ↔ j ∈ places items := by
        constructor
        · rintro ⟨i, hi, heq⟩
          obtain rfl : i = j := Nat.add_right_cancel heq
          exact hi
        · exact fun hj => ⟨j, hj, rfl⟩
      rw [pairAt_succ (Token.changes_of_isTypeName htype), pairAt_succ (Token.changes_of_isName hname),
        or_iff_right (Nat.succ_ne_zero _), hbelow, ih, Nat.add_le_add_iff_right]
  | skipped hc hno _ ih =>
    rw [places, List.mem_map]
    cases j with
    | zero => simp [hno]
    | succ j =>
      rw [pairAt_succ hc]
      simp [ih]

theorem length_tokens (p : ParameterList) : p.tokens.length = tokenCount p.items p.closing + 1 := by
  rw [tokens, List.length_cons, List.length_append, tokenCount]

theorem getElem?_last {p : ParameterList} {row behind : List Token} {o : Nat}
    (hs : row.drop o = p.tokens ++ behind) :
    row[o + tokenCount p.items p.closing]? = some p.last := by
  rw [← List.getElem?_drop, hs, List.getElem?_append_left, ← getLast?_tokens, List.getLast?_eq_getElem?,
    length_tokens, Nat.add_sub_cancel]
  rw [length_tokens]
  exact Nat.lt_succ_self _

/-- The nodes of the parameters stand where these are in the row of tokens. -/
theorem forall₂_isParameter {t : Tree} {tokens rest : List Token} {base k : Nat}
    (h : t.Holds base (items.foldr (fun i rest => i.outline ++ rest) .nil))
    (hs : tokens.drop k = items.flatMap ParameterItem.tokens ++ rest) :
    List.Forall₂ (t.IsParameter tokens) ((places items).map (k + ·))
      (Outline.tops base (items.foldr (fun i rest => i.outline ++ rest) .nil)) := by
  induction items generalizing base k with
  | nil => exact .nil
  | cons i items ih =>
    have hraise (more : Nat) : ((places items).map (· + more)).map (k + ·) =
        (places items).map (k + more + ·) := by
      rw [List.map_map]
      refine List.map_congr_left fun j _ => ?_
      show k + (j + more) = k + more + j
      omega
    rw [List.flatMap_cons, List.append_assoc] at hs
    have hbehind := drop_add_length hs
    cases i with
    | skipped x =>
      rw [places, hraise]
      exact ih h hbehind
    | parameter type name =>
      have hget (j : Nat) : tokens[k + j]? =
          (type :: name :: (items.flatMap ParameterItem.tokens ++ rest))[j]? := by
        rw [← List.getElem?_drop, hs]
        rfl
      have hchildren := congrArg (List.map Tree.Node.label) h.children_eq
      rw [Outline.map_label_tops] at hchildren
      rw [places, List.map_cons, hraise]
      exact .cons ⟨type, name, hget 0, hget 1, rfl, hchildren⟩ (ih h.beside hbehind)

end ParameterList

/-! ## Functions and programs -/

namespace Function

variable {f : Function} {t : Tree} {tokens rest : List Token} {id first : Nat} {more : Outline}

/-- The node of the parameter list of a function. -/
def listNode (id : Nat) (f : Function) : Tree.Node :=
  ⟨id + 3, .covering .parameters none f.parameters.opening f.parameters.last,
    Outline.rootIds (id + 4) (f.parameters.items.foldr (fun i rest => i.outline ++ rest) .nil)⟩

theorem filter_tops_parameters (f : Function) (id : Nat) :
    ((f.startOutline ++ f.bodyOutline).tops (id + 1)).filter (·.label.kind == .parameters) =
      [f.listNode id] := by
  rw [bodyOutline]
  cases f.body <;> rfl

/-- The parameters of a function are read from the tokens behind its opening parenthesis. -/
theorem Reads.exists_takes {s : List Token} (h : Reads s f rest) :
    ∃ inner behind, s = f.type :: f.name :: f.parameters.opening :: inner ∧
      ProperStart f.type f.name f.parameters.opening ∧
      f.parameters.items.flatMap ParameterItem.tokens ++ (f.parameters.closing.toList ++ behind) = inner ∧
      ParameterList.Takes 0 inner f.parameters.items
        (ParameterList.tokenCount f.parameters.items f.parameters.closing) := by
  obtain ⟨hstart, -⟩ := h
  exact ⟨_, _, rfl, hstart, ParameterList.readItems_tokens 0 _, ParameterList.takes_readItems⟩

theorem Reads.hasParameters (hf : Reads (tokens.drop first) f rest)
    (h : t.Holds id (f.outline ++ more)) : t.HasParameters tokens id (first + 2) := by
  obtain ⟨inner, behind, hs, -, hparts, htakes⟩ := hf.exists_takes
  have hlist : tokens.drop (first + 2) = f.parameters.tokens ++ behind := by
    rw [← List.drop_drop, hs, ← hparts, ParameterList.tokens]
    simp only [List.drop_succ_cons, List.drop_zero, List.cons_append, List.append_assoc]
  have hbehind : tokens.drop (first + 2 + 1) = inner := by
    rw [← List.drop_drop, ← List.drop_drop, hs]
    rfl
  have hopening : tokens[first + 2]? = some f.parameters.opening := by
    rw [← List.getElem?_drop, hs]
    rfl
  have hlt : first + 2 < tokens.length := (List.getElem?_eq_some_iff.mp hopening).1
  have hlength : ParameterList.tokenCount f.parameters.items f.parameters.closing ≤ inner.length := by
    rw [← hparts, ← List.append_assoc, List.length_append, List.length_append]
    exact Nat.le_add_right _ _
  have hend := isListEnd_of_endsAfter hlt hbehind hlength htakes.endsAfter
  have hitems := h.below.append.1.beside.beside
  have hchildren : t.children (f.listNode id).id = _ := hitems.children_eq
  refine ⟨_, _, _, f.listNode id, (ParameterList.places f.parameters.items).map (first + 2 + 1 + ·), hend,
    hopening, ParameterList.getElem?_last hlist, ?_, rfl, ?_, ?_, ?_⟩
  · exact (congrArg (List.filter _) h.children_eq).trans (f.filter_tops_parameters id)
  · exact List.pairwise_map.mpr
      ((ParameterList.pairwise_places _).imp fun hlt => Nat.add_lt_add_left hlt _)
  · intro i
    rw [isParameterAt_iff hbehind, List.mem_map]
    simp only [htakes.mem_places_iff, and_comm]
  · rw [hchildren]
    exact ParameterList.forall₂_isParameter hitems.below (hbehind.trans hparts.symm)

end Function

namespace Program

variable {tokens s : List Token} {items : List ProgramItem} {base start id first limit : Nat}
  {f : Function} {p : Program}

/-- The functions among the parts of a program, each with its number in the tree and the index of its
    first token, if the first of them has the number `base` and the parts begin at the index `start`. -/
def placeFunctions (base start : Nat) : List ProgramItem → List (Nat × Nat × Function)
  | [] => []
  | .skipped _ :: items => placeFunctions base (start + 1) items
  | .function f :: items =>
    (base, start, f) :: placeFunctions (base + f.nodeCount) (start + f.tokens.length) items

/-- The functions of a program, each with its number in the tree and the index of its first token. -/
def placedFunctions (p : Program) : List (Nat × Nat × Function) := placeFunctions 1 0 p.items

/-- Without the indices, these are the numbered functions. -/
theorem numberFunctions_eq (items : List ProgramItem) (base start : Nat) :
    numberFunctions base (mk items).functions =
      (placeFunctions base start items).map fun (id, _, f) => (id, f) := by
  induction items generalizing base start with
  | nil => rfl
  | cons i items ih =>
    cases i with
    | skipped t => exact ih base (start + 1)
    | function f => exact congrArg ((base, f) :: ·) (ih _ _)

theorem mem_numberedFunctions (h : (id, first, f) ∈ p.placedFunctions) :
    (id, f) ∈ p.numberedFunctions := by
  rw [numberedFunctions, numberFunctions_eq p.items 1 0]
  exact List.mem_map.mpr ⟨_, h, rfl⟩

/-- A function is read from the tokens that begin at its index. -/
theorem Reads.of_mem_placeFunctions (h : Reads s items) (hs : tokens.drop start = s)
    (hf : (id, first, f) ∈ placeFunctions base start items) :
    ∃ rest, Function.Reads (tokens.drop first) f rest := by
  induction h generalizing base start with
  | nil => exact absurd hf List.not_mem_nil
  | skipped _ _ ih => exact ih (drop_succ_of_cons hs) hf
  | @function s rest g items hg _ ih =>
    rw [← hg.tokens_eq] at hs
    rcases List.mem_cons.mp hf with heq | hmem
    · obtain ⟨rfl, rfl, rfl⟩ := by simpa using heq
      rw [hs, hg.tokens_eq]
      exact ⟨rest, hg⟩
    · exact ih (drop_add_length hs) hmem

/-- **Parameter lists are delimited and collected exactly.** Whatever the tokens are, each function of the
    tree begins with the name of a type, an identifier and a parenthesis, and its parameter list ends with
    the first token behind that parenthesis up to which more parentheses are closed than opened, or else
    with the last token of all. Its children are the pairs of a type and an identifier in the list that
    stand in no further parentheses, all of them in order, each with its type and its name. -/
theorem read_parameters (h : Program.read limit tokens = .ok p) :
    p.tree.functions = (p.placedFunctions.map fun (id, _, f) => f.node id) ∧
      ∀ id first f, (id, first, f) ∈ p.placedFunctions →
        f.tokens <+: tokens.drop first ∧
          Function.ProperStart f.type f.name f.parameters.opening ∧
          p.tree.HasParameters tokens id (first + 2) := by
  refine ⟨?_, ?_⟩
  · rw [p.functions_tree, numberedFunctions, numberFunctions_eq p.items 1 0, List.map_map]
    rfl
  · intro id first f hf
    obtain ⟨rest, hread⟩ := (reads_of_read h).of_mem_placeFunctions (List.drop_zero) hf
    obtain ⟨more, hholds⟩ := p.tree_holds_functions.function (mem_numberedFunctions hf)
    obtain ⟨_, _, -, hstart, -⟩ := hread.exists_takes
    refine ⟨?_, hstart, hread.hasParameters hholds⟩
    rw [← hread.tokens_eq]
    exact List.prefix_append _ _

/-- A parameter behind a stray name, one inside of further parentheses, a type without a name, and a
    second list that is never closed. -/
def strayParameters : String := "int f(x int a (int b) int, char c);\nvoid g(int d, (char e"

theorem read_parameters_stray :
    ∃ p, Program.read 1 (tokenize strayParameters).tokens = .ok p ∧
      p.tree.functions = (p.placedFunctions.map fun (id, _, f) => f.node id) ∧
      ∀ id first f, (id, first, f) ∈ p.placedFunctions →
        f.tokens <+: (tokenize strayParameters).tokens.drop first ∧
          Function.ProperStart f.type f.name f.parameters.opening ∧
          p.tree.HasParameters (tokenize strayParameters).tokens id (first + 2) := by
  have hread : (Program.read 1 (tokenize strayParameters).tokens).toBool = true := by decide +kernel
  cases h : Program.read 1 (tokenize strayParameters).tokens with
  | error e => rw [h] at hread; exact absurd hread Bool.false_ne_true
  | ok p => exact ⟨p, rfl, read_parameters h⟩

end Program

end BraceLang
