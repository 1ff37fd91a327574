import BraceLang.Proofs.Reading.Braces
import BraceLang.Proofs.Tree.Ancestry

/-!
# `Proofs.Tree.Extents` — which tokens a node covers

A node covers the tokens from a first one to a last one. `Outline.Over` goes through an outline and
its tokens at once and says so without numbers: the tokens of a node stand at the front of what is
left, those of its children among them, and those of its siblings behind. From this each node gets an
`Extent`, a pair of indices, and what holds for the parts of the row holds for the indices.

## Contents
- `Extent`, `IsBlockEnd` and `NodeKind.EndsAt`, where a node of some kind has to end.
- `Tree.StandsOver`, how the extents of the nodes of a tree lie to each other.
- `Outline.Over`, with `skipAll`, `append` and `leaves`.
- `Fits` and `ExtentRow`, extents for nodes and how they are put together.
- **`Over.exists_extents`**.
-/

namespace BraceLang

/-- The indices of the first and the last token that a node covers. -/
structure Extent where
  first : Nat
  last : Nat
  deriving DecidableEq, Repr

/-- The tokens behind the index `o` up to the index `c`. -/
def tokensBehind (tokens : List Token) (o c : Nat) : List Token := (tokens.take (c + 1)).drop (o + 1)

/-- Behind the index `o` and up to `c`, more braces are closed than opened. -/
def ClosesMore (tokens : List Token) (o c : Nat) : Prop :=
  o < c ∧ c < tokens.length ∧
    openBraces (tokensBehind tokens o c) < closeBraces (tokensBehind tokens o c)

/-- A block whose opening brace has the index `o` ends with the token `c`: the first one up to which
    more braces are closed than opened, or the last token of all if there is none. -/
def IsBlockEnd (tokens : List Token) (o c : Nat) : Prop :=
  (∀ i, i < c → ¬ ClosesMore tokens o i) ∧
    (ClosesMore tokens o c ∨ c + 1 = tokens.length ∧ ¬ ClosesMore tokens o c)

/-- The token with the index `i` is the brace that opens a block. -/
def OpensAt (tokens : List Token) (i : Nat) : Prop :=
  ∃ t, tokens[i]? = some t ∧ t.isPunct "\x7b" = true

/-- Where a node of some kind ends. A block in braces ends where its opening brace says; the tokens of
    a statement without a block and of a condition are no braces. -/
def NodeKind.EndsAt (tokens : List Token) (e : Extent) : NodeKind → Prop
  | .functionBody | .ifBody | .loopBody => OpensAt tokens e.first ∧ IsBlockEnd tokens e.first e.last
  | .elseBranch =>
    (∃ t, tokens[e.first]? = some t ∧ t.isKeyword "else" = true) ∧
      (OpensAt tokens (e.first + 1) ∧ IsBlockEnd tokens (e.first + 1) e.last ∨
        ∃ t, tokens[e.first + 1]? = some t ∧ t.isKeyword "if" = true)
  | .variableDeclaration | .condition | .functionCall | .returnStatement | .assignment =>
    ∀ i t, e.first ≤ i → i ≤ e.last → tokens[i]? = some t → ¬ t.isBrace = true
  | _ => True

/-- The same for a node that covers the tokens `part` and has the tokens `behind` behind it. -/
def NodeKind.EndsWith (part behind : List Token) : NodeKind → Prop
  | .functionBody | .ifBody | .loopBody =>
    ∃ brace inner, part = brace :: inner ∧ brace.isPunct "\x7b" = true ∧ EndsBlock inner behind
  | .elseBranch =>
    ∃ keyword next inner, part = keyword :: next :: inner ∧ keyword.isKeyword "else" = true ∧
      (next.isPunct "\x7b" = true ∧ EndsBlock inner behind ∨ next.isKeyword "if" = true)
  | .variableDeclaration | .condition | .functionCall | .returnStatement | .assignment =>
    ∀ t ∈ part, ¬ t.isBrace = true
  | _ => True

/-- The type of an array and the name declared with it: the name stands between the parts of the type. -/
def IsArrayName (above : NodeKind) (type name : Label) : Prop :=
  above = .variableDeclaration ∧ type.kind = .type ∧ '[' ∈ type.text.toList ∧
    name.kind = .identifier

instance (above : NodeKind) (type name : Label) : Decidable (IsArrayName above type name) :=
  inferInstanceAs (Decidable (_ ∧ _ ∧ _ ∧ _))

/-- Two nodes that stand one after the other below a node of the kind `above` cover tokens that stand
    one after the other; but the type of an array covers the name declared with it as well. -/
def Apart (extent : Nat → Extent) (above : NodeKind) (n m : Tree.Node) : Prop :=
  if IsArrayName above n.label m.label then
    (extent n.id).first < (extent m.id).first ∧ (extent m.id).last < (extent n.id).last
  else (extent n.id).last < (extent m.id).first

/-- The nodes of a tree, apart from its root, cover the tokens that their extents say. Extents begin in
    the order of the numbers, those of children lie inside the extent of their parent, and those of
    siblings are apart. -/
structure Tree.StandsOver (t : Tree) (tokens : List Token) (extent : Nat → Extent) : Prop where
  covers : ∀ id n, t.get? id = some n → id ≠ root → (extent id).first ≤ (extent id).last ∧
    ∃ first last, tokens[(extent id).first]? = some first ∧ tokens[(extent id).last]? = some last ∧
      n.label = .covering n.label.kind n.label.value first last
  ordered : ∀ i j n m, t.get? i = some n → t.get? j = some m → i ≤ j →
    (extent i).first ≤ (extent j).first
  below : ∀ id n, t.get? id = some n → ∀ m ∈ t.children id,
    (extent id).first ≤ (extent m.id).first ∧ (extent m.id).last ≤ (extent id).last
  apart : ∀ id n, t.get? id = some n → (t.children id).Pairwise (Apart extent n.label.kind)

namespace Outline

/-- The outline, which stands below a node of the kind `above`, covers tokens of `s`, and `rest` is
    left of these behind it. -/
inductive Over : NodeKind → List Token → List Token → Outline → Prop
  | nil {above : NodeKind} {s : List Token} : Over above s s .nil
  | skip {above : NodeKind} {t : Token} {s rest : List Token} {o : Outline}
      (h : Over above s rest o) : Over above (t :: s) rest o
  | node {above : NodeKind} {l : Label} {first last : Token} {part s rest : List Token}
      {children siblings : Outline} (hfirst : part.head? = some first)
      (hlast : part.getLast? = some last) (hl : l = .covering l.kind l.value first last)
      (htype : l.kind = .type → '[' ∉ l.text.toList) (hends : l.kind.EndsWith part s)
      (hc : Over l.kind (part ++ s) s children) (hs : Over above s rest siblings) :
      Over above (part ++ s) rest (.node l children siblings)
  | array {type name last : Token} {suffix s rest : List Token} {text : String} {siblings : Outline}
      (hlast : suffix.getLast? = some last) (htext : '[' ∈ text.toList)
      (hvalue : ∀ l ∈ siblings.roots, l.kind ≠ .identifier)
      (hs : Over .variableDeclaration s rest siblings) :
      Over .variableDeclaration (type :: name :: (suffix ++ s)) rest
        (.node (.covering .type (some text) type last) .nil
          (.node (.ofToken .identifier name) .nil siblings))

namespace Over

variable {above : NodeKind} {s middle rest run picked : List Token} {t : Token}
  {o more siblings : Outline}

theorem skipAll (h : Over above s rest o) (run : List Token) : Over above (run ++ s) rest o := by
  induction run with
  | nil => exact h
  | cons t run ih => exact .skip ih

theorem append (h : Over above s middle o) (hmore : Over above middle rest more)
    (habove : above ≠ .variableDeclaration) : Over above s rest (o ++ more) := by
  induction h with
  | nil => exact hmore
  | skip _ ih => exact .skip (ih hmore habove)
  | node hfirst hlast hl htype hends hc _ _ ih =>
    exact .node hfirst hlast hl htype hends hc (ih hmore habove)
  | array => exact absurd rfl habove

/-- A node that is one token. -/
theorem token {kind : NodeKind} (hends : kind.EndsWith [t] s)
    (htype : kind = .type → '[' ∉ t.text.toList) (hs : Over above s rest siblings) :
    Over above (t :: s) rest (.node (.ofToken kind t) .nil siblings) := by
  have h : Over above ([t] ++ s) rest (.node (.ofToken kind t) .nil siblings) :=
    .node rfl rfl rfl htype hends (.skip .nil) hs
  exact h

/-- Some tokens of a run as leaves. -/
theorem leaves (h : picked.Sublist run) (hs : Over above s rest .nil) :
    Over above (run ++ s) rest (Outline.leaves picked) := by
  induction h with
  | slnil => exact hs
  | cons t _ ih => exact .skip ih
  | cons_cons t _ ih => exact .token trivial NodeKind.noConfusion ih

end Over

end Outline

/-! ## From parts of the row to indices -/

section Indices

variable {before inner part behind : List Token} {brace : Token}

/-- What stands behind an opening brace, up to an index inside of its block. -/
theorem tokensBehind_block {i : Nat} (hi : i ≤ before.length + inner.length) :
    tokensBehind (before ++ brace :: (inner ++ behind)) before.length i =
      inner.take (i - before.length) := by
  rw [tokensBehind, List.drop_take, show before ++ brace :: (inner ++ behind) =
    (before ++ [brace]) ++ (inner ++ behind) by simp]
  rw [List.drop_left' (by simp), List.take_append_of_le_length (by omega),
    show i + 1 - (before.length + 1) = i - before.length by omega]

/-- The run that ends where its block does ends at the index where it does. -/
theorem EndsBlock.isBlockEnd (h : EndsBlock inner behind) :
    IsBlockEnd (before ++ brace :: (inner ++ behind)) before.length
      (before.length + inner.length) := by
  have hall : tokensBehind (before ++ brace :: (inner ++ behind)) before.length
      (before.length + inner.length) = inner := by
    rw [tokensBehind_block (Nat.le_refl _), Nat.add_sub_cancel_left, List.take_length]
  have hlength : (before ++ brace :: (inner ++ behind)).length =
      before.length + inner.length + behind.length + 1 := by
    simp only [List.length_append, List.length_cons, Nat.add_assoc]
  constructor
  · rintro i hi ⟨hlt, -, hmore⟩
    rw [tokensBehind_block (Nat.le_of_lt hi)] at hmore
    -- a shorter front of the run still has the block open
    have hne : inner.take (i - before.length) ≠ inner := by
      intro heq
      have := congrArg List.length heq
      rw [List.length_take] at this
      omega
    have := h.stays _ (List.take_prefix _ _) hne
    omega
  · rcases h.ends with hone | ⟨rfl, hle⟩
    · refine Or.inl ⟨?_, by omega, by rw [hall]; omega⟩
      -- an empty run closes nothing
      cases inner with
      | nil => exact absurd hone (by decide)
      | cons t inner =>
        rw [List.length_cons]
        omega
    · refine Or.inr ⟨by rw [hlength, List.length_nil], ?_⟩
      rintro ⟨-, -, hmore⟩
      rw [hall] at hmore
      omega

/-- A node that ends where its kind has to end has an extent that does. -/
theorem NodeKind.EndsWith.endsAt {kind : NodeKind} (h : kind.EndsWith part behind)
    (hpart : part ≠ []) :
    kind.EndsAt (before ++ (part ++ behind)) ⟨before.length, before.length + (part.length - 1)⟩ := by
  have hblock : (∃ brace inner, part = brace :: inner ∧ brace.isPunct "\x7b" = true ∧
      EndsBlock inner behind) → OpensAt (before ++ (part ++ behind)) before.length ∧
        IsBlockEnd (before ++ (part ++ behind)) before.length
          (before.length + (part.length - 1)) := by
    rintro ⟨brace, inner, rfl, hbrace, hinner⟩
    exact ⟨⟨brace, by simp, hbrace⟩, hinner.isBlockEnd⟩
  have hplain : (∀ t ∈ part, ¬ t.isBrace = true) → ∀ i t, before.length ≤ i →
      i ≤ before.length + (part.length - 1) → (before ++ (part ++ behind))[i]? = some t →
        ¬ t.isBrace = true := by
    intro hbrace i t hlo hhi ht
    have hpos := List.length_pos_of_ne_nil hpart
    rw [List.getElem?_append_right hlo, List.getElem?_append_left (by omega)] at ht
    exact hbrace t (List.mem_of_getElem? ht)
  cases kind with
  | functionBody | ifBody | loopBody => exact hblock h
  | variableDeclaration | condition | functionCall | returnStatement | assignment => exact hplain h
  | elseBranch =>
    obtain ⟨keyword, next, inner, rfl, hkeyword, hnext⟩ := h
    refine ⟨⟨keyword, by simp, hkeyword⟩, ?_⟩
    rcases hnext with ⟨hopens, hinner⟩ | hif
    · have hend : IsBlockEnd ((before ++ [keyword]) ++ next :: (inner ++ behind))
          (before ++ [keyword]).length ((before ++ [keyword]).length + inner.length) :=
        hinner.isBlockEnd
      rw [List.append_assoc, List.singleton_append, List.length_append, List.length_singleton]
        at hend
      refine Or.inl ⟨⟨next, by simp, hopens⟩, ?_⟩
      rw [List.length_cons, List.length_cons, Nat.add_sub_cancel, ← Nat.add_assoc,
        Nat.add_right_comm]
      exact hend
    · exact Or.inr ⟨next, by simp, hif⟩
  | _ => trivial

end Indices

/-! ## Extents for the nodes of an outline -/

/-- The extent with a number in a table. -/
def extentIn (table : Array Extent) (id : Nat) : Extent := (table[id]?).getD ⟨0, 0⟩

/-- What `Tree.StandsOver` and `NodeKind.EndsAt` say of some nodes whose tokens have indices that are
    at least `lo` and less than `hi`. -/
structure Fits (t : Tree) (tokens : List Token) (extent : Nat → Extent) (lo hi : Nat)
    (nodes : List Tree.Node) : Prop where
  inside : ∀ n ∈ nodes, lo ≤ (extent n.id).first ∧ (extent n.id).first ≤ (extent n.id).last ∧
    (extent n.id).last < hi
  covers : ∀ n ∈ nodes, ∃ first last, tokens[(extent n.id).first]? = some first ∧
    tokens[(extent n.id).last]? = some last ∧ n.label = .covering n.label.kind n.label.value first last
  ends : ∀ n ∈ nodes, n.label.kind.EndsAt tokens (extent n.id)
  ordered : nodes.Pairwise fun n m => (extent n.id).first ≤ (extent m.id).first
  below : ∀ n ∈ nodes, ∀ m ∈ t.children n.id,
    (extent n.id).first ≤ (extent m.id).first ∧ (extent m.id).last ≤ (extent n.id).last
  apart : ∀ n ∈ nodes, (t.children n.id).Pairwise (Apart extent n.label.kind)

namespace Fits

variable {t : Tree} {tokens : List Token} {extent : Nat → Extent} {lo mid hi : Nat}
  {nodes more : List Tree.Node} {n : Tree.Node}

theorem nil : Fits t tokens extent lo hi [] :=
  ⟨by simp, by simp, by simp, List.Pairwise.nil, by simp, by simp⟩

theorem widen {lo' hi' : Nat} (h : Fits t tokens extent lo hi nodes) (hlo : lo' ≤ lo)
    (hhi : hi ≤ hi') : Fits t tokens extent lo' hi' nodes := by
  refine ⟨fun n hn => ?_, h.covers, h.ends, h.ordered, h.below, h.apart⟩
  have := h.inside n hn
  omega

/-- Nodes may stand behind others. -/
theorem append (h : Fits t tokens extent lo mid nodes) (hmore : Fits t tokens extent mid hi more)
    (hlo : lo ≤ mid) (hhi : mid ≤ hi) : Fits t tokens extent lo hi (nodes ++ more) := by
  constructor
  · exact List.forall_mem_append.mpr
      ⟨(h.widen (Nat.le_refl _) hhi).inside, (hmore.widen hlo (Nat.le_refl _)).inside⟩
  · exact List.forall_mem_append.mpr ⟨h.covers, hmore.covers⟩
  · exact List.forall_mem_append.mpr ⟨h.ends, hmore.ends⟩
  · refine List.pairwise_append.mpr ⟨h.ordered, hmore.ordered, fun n hn m hm => ?_⟩
    have := h.inside n hn
    have := hmore.inside m hm
    omega
  · exact List.forall_mem_append.mpr ⟨h.below, hmore.below⟩
  · exact List.forall_mem_append.mpr ⟨h.apart, hmore.apart⟩

/-- A node stands before the nodes below it, and its tokens are around theirs. -/
theorem cons (e : Extent) {id : Nat} {ids : List Nat} {l : Label} {first last : Token}
    (he : extent id = e) (h : Fits t tokens extent e.first (e.last + 1) nodes)
    (hle : e.first ≤ e.last) (hfirst : tokens[e.first]? = some first)
    (hlast : tokens[e.last]? = some last) (hl : l = .covering l.kind l.value first last)
    (hends : l.kind.EndsAt tokens e) (hbelow : ∀ m ∈ t.children id, m ∈ nodes)
    (hapart : (t.children id).Pairwise (Apart extent l.kind)) :
    Fits t tokens extent e.first (e.last + 1) (⟨id, l, ids⟩ :: nodes) := by
  subst he
  constructor
  · exact List.forall_mem_cons.mpr ⟨⟨Nat.le_refl _, hle, Nat.lt_succ_self _⟩, h.inside⟩
  · exact List.forall_mem_cons.mpr ⟨⟨first, last, hfirst, hlast, hl⟩, h.covers⟩
  · exact List.forall_mem_cons.mpr ⟨hends, h.ends⟩
  · exact List.pairwise_cons.mpr ⟨fun m hm => (h.inside m hm).1, h.ordered⟩
  · refine List.forall_mem_cons.mpr ⟨fun m hm => ?_, h.below⟩
    have := h.inside m (hbelow m hm)
    dsimp only
    omega
  · exact List.forall_mem_cons.mpr ⟨hapart, h.apart⟩

/-- Extents begin in the order of the numbers. -/
theorem first_le {o : Outline} {base : Nat} (h : Fits t tokens extent lo hi (o.number base))
    {m : Tree.Node} (hn : n ∈ o.number base) (hm : m ∈ o.number base) (hle : n.id ≤ m.id) :
    (extent n.id).first ≤ (extent m.id).first := by
  -- the order of the list is that of the numbers, so one direction holds for want of a case
  have hids := Outline.pairwise_number o base
  have hflip : (o.number base).Pairwise (flip fun n m => n.id ≤ m.id →
      (extent n.id).first ≤ (extent m.id).first) :=
    hids.imp fun hlt hle => absurd hlt (Nat.not_lt.mpr hle)
  have hforward : (o.number base).Pairwise fun n m => n.id ≤ m.id →
      (extent n.id).first ≤ (extent m.id).first := by
    refine h.ordered.imp ?_
    intro n m hfirst _
    exact hfirst
  exact hforward.forall_of_forall_of_flip (fun _ _ _ => Nat.le_refl _) hflip hn hm hle

end Fits

namespace Outline

/-- The nodes at the top of an outline are nodes of it. -/
theorem mem_number_of_mem_tops {o : Outline} {base : Nat} {n : Tree.Node} (h : n ∈ o.tops base) :
    n ∈ o.number base := by
  induction o generalizing base with
  | nil => exact absurd h List.not_mem_nil
  | node l c s _ ih =>
    rw [number]
    rcases List.mem_cons.mp h with rfl | hin
    · exact List.mem_cons_self
    · exact List.mem_cons_of_mem _ (List.mem_append_right _ (ih hin))

end Outline

/-- The row `xs` of extents fits the nodes of an outline below a node of the kind `above`, numbered from
    `base` on. A table of extents only has to hold this row from the number of the first node on. -/
structure ExtentRow (t : Tree) (tokens : List Token) (above : NodeKind) (base lo hi : Nat) (o : Outline)
    (xs : List Extent) : Prop where
  length : xs.length = o.size
  fits : ∀ table, RowsAt table base xs → Fits t tokens (extentIn table) lo hi (o.number base)
  apart : ∀ table, RowsAt table base xs → (o.tops base).Pairwise (Apart (extentIn table) above)

theorem extentIn_head {table : Array Extent} {base : Nat} {e : Extent} {xs : List Extent}
    (h : RowsAt table base (e :: xs)) : extentIn table base = e := by
  rw [extentIn, h.head, Option.getD_some]

namespace ExtentRow

variable {t : Tree} {tokens : List Token} {above : NodeKind} {base lo lo' hi stop : Nat}
  {o children siblings : Outline} {l : Label} {first last : Token} {xs cs ss : List Extent}

theorem nil : ExtentRow t tokens above base lo hi .nil [] := ⟨rfl, fun _ _ => .nil, fun _ _ => .nil⟩

theorem widen (h : ExtentRow t tokens above base lo hi o xs) (hlo : lo' ≤ lo) :
    ExtentRow t tokens above base lo' hi o xs :=
  ⟨h.length, fun table htable => (h.fits table htable).widen hlo (Nat.le_refl _), h.apart⟩

/-- The extents of a node, of those below it and of its siblings. -/
theorem node (ht : t.Holds base (.node l children siblings)) (hle : lo ≤ stop) (hhi : stop < hi)
    (hfirst : tokens[lo]? = some first) (hlast : tokens[stop]? = some last)
    (hl : l = .covering l.kind l.value first last) (hends : l.kind.EndsAt tokens ⟨lo, stop⟩)
    (htype : l.kind = .type → '[' ∉ l.text.toList)
    (hc : ExtentRow t tokens l.kind (base + 1) lo (stop + 1) children cs)
    (hs : ExtentRow t tokens above (base + 1 + children.size) (stop + 1) hi siblings ss) :
    ExtentRow t tokens above base lo hi (.node l children siblings) (⟨lo, stop⟩ :: (cs ++ ss)) := by
  constructor
  · rw [List.length_cons, List.length_append, hc.length, hs.length, Forest.size]
    omega
  · intro table htable
    obtain ⟨hbelow, hbeside⟩ := htable.tail.split hc.length
    have hnode : Fits t tokens (extentIn table) lo (stop + 1)
        (⟨base, l, Outline.rootIds (base + 1) children⟩ :: children.number (base + 1)) := by
      refine Fits.cons ⟨lo, stop⟩ (extentIn_head htable) (hc.fits table hbelow) hle hfirst hlast hl
        hends ?_ ?_
      · rw [ht.children_eq]
        exact fun m hm => Outline.mem_number_of_mem_tops hm
      · rw [ht.children_eq]
        exact hc.apart table hbelow
    rw [Outline.number, ← List.cons_append]
    exact hnode.append (hs.fits table hbeside) (Nat.le_succ_of_le hle) hhi
  · intro table htable
    obtain ⟨-, hbeside⟩ := htable.tail.split hc.length
    refine List.pairwise_cons.mpr ⟨fun m hm => ?_, hs.apart table hbeside⟩
    -- the type of an array is no node of this form
    have hnot : ¬ IsArrayName above l m.label := fun h => htype h.2.1 h.2.2.1
    have hin := ((hs.fits table hbeside).inside m (Outline.mem_number_of_mem_tops hm)).1
    rw [Apart, if_neg hnot, extentIn_head htable]
    exact hin

/-- The extents of the type of an array, of the name that stands among its tokens, and of what stands
    behind them. -/
theorem array {text : String} {type name : Token}
    (ht : t.Holds base (.node (.covering .type (some text) type last) .nil
      (.node (.ofToken .identifier name) .nil siblings)))
    (htext : '[' ∈ text.toList) (hvalue : ∀ l ∈ siblings.roots, l.kind ≠ .identifier)
    (hlt : lo + 1 < stop) (hhi : stop < hi) (hfirst : tokens[lo]? = some type)
    (hname : tokens[lo + 1]? = some name) (hlast : tokens[stop]? = some last)
    (hs : ExtentRow t tokens .variableDeclaration (base + 2) (stop + 1) hi siblings ss) :
    ExtentRow t tokens .variableDeclaration base lo hi
      (.node (.covering .type (some text) type last) .nil
        (.node (.ofToken .identifier name) .nil siblings))
      (⟨lo, stop⟩ :: ⟨lo + 1, lo + 1⟩ :: ss) := by
  have hbeside : t.Holds (base + 1) (.node (.ofToken .identifier name) .nil siblings) := ht.beside
  constructor
  · simp only [List.length_cons, Forest.size, hs.length]
    omega
  · intro table htable
    -- the name stands among the tokens of the type, as a child of the type would
    have hinner : Fits t tokens (extentIn table) (lo + 1) (lo + 1 + 1)
        [⟨base + 1, .ofToken .identifier name, []⟩] := by
      refine Fits.cons ⟨lo + 1, lo + 1⟩ (extentIn_head htable.tail) .nil (Nat.le_refl _) hname hname
        rfl trivial ?_ ?_
      · rw [hbeside.children_eq]
        exact fun m hm => absurd hm List.not_mem_nil
      · rw [hbeside.children_eq]
        exact List.Pairwise.nil
    have houter : Fits t tokens (extentIn table) lo (stop + 1)
        [⟨base, .covering .type (some text) type last, []⟩,
          ⟨base + 1, .ofToken .identifier name, []⟩] := by
      refine Fits.cons ⟨lo, stop⟩ (extentIn_head htable) (hinner.widen ?_ ?_) ?_ hfirst hlast rfl
        trivial ?_ ?_
      · exact Nat.le_succ lo
      · exact Nat.succ_le_succ (Nat.le_of_lt hlt)
      · exact Nat.le_of_lt (Nat.lt_of_succ_lt hlt)
      · rw [ht.children_eq]
        exact fun m hm => absurd hm List.not_mem_nil
      · rw [ht.children_eq]
        exact List.Pairwise.nil
    exact houter.append (hs.fits table htable.tail.tail) (by omega) hhi
  · intro table htable
    have hbehind : ∀ m ∈ siblings.tops (base + 2),
        stop < (extentIn table m.id).first ∧ m.label.kind ≠ .identifier := by
      intro m hm
      have hin := ((hs.fits table htable.tail.tail).inside m (Outline.mem_number_of_mem_tops hm)).1
      have hroot : m.label ∈ siblings.roots := by
        rw [← Outline.map_label_tops siblings (base + 2)]
        exact List.mem_map_of_mem hm
      exact ⟨hin, hvalue _ hroot⟩
    refine List.pairwise_cons.mpr ⟨fun m hm => ?_, List.pairwise_cons.mpr ⟨fun m hm => ?_,
      hs.apart table htable.tail.tail⟩⟩
    · rcases List.mem_cons.mp hm with rfl | hm
      · rw [Apart, if_pos ⟨rfl, rfl, htext, rfl⟩, extentIn_head htable]
        show lo < (extentIn table (base + 1)).first ∧ (extentIn table (base + 1)).last < stop
        rw [extentIn_head htable.tail]
        exact ⟨Nat.lt_succ_self lo, hlt⟩
      · obtain ⟨hin, hkind⟩ := hbehind m hm
        rw [Apart, if_neg fun h => hkind h.2.2.2, extentIn_head htable]
        exact hin
    · obtain ⟨hin, -⟩ := hbehind m hm
      have hnot : ¬ IsArrayName .variableDeclaration (.ofToken .identifier name) m.label :=
        fun h => NodeKind.noConfusion h.2.1
      rw [Apart, if_neg hnot]
      show (extentIn table (base + 1)).last < _
      rw [extentIn_head htable.tail]
      exact Nat.lt_trans hlt hin

end ExtentRow

/-- **The nodes of an outline over tokens have extents.** -/
theorem Outline.Over.exists_extents {above : NodeKind} {s rest : List Token} {o : Outline}
    (h : Over above s rest o) {t : Tree} {base : Nat} (ht : t.Holds base o) {tokens : List Token}
    (before : List Token) (htokens : tokens = before ++ s) :
    ∃ xs hi, hi + rest.length = tokens.length ∧ before.length ≤ hi ∧
      ExtentRow t tokens above base before.length hi o xs := by
  induction h generalizing base before with
  | nil =>
    refine ⟨[], before.length, ?_, Nat.le_refl _, .nil⟩
    rw [htokens, List.length_append]
  | @skip above u s rest o h ih =>
    obtain ⟨xs, hi, hhi, hlo, hrow⟩ := ih ht (before ++ [u]) (by rw [htokens, List.append_assoc]; rfl)
    have hlength : (before ++ [u]).length = before.length + 1 := List.length_append
    rw [hlength] at hlo
    exact ⟨xs, hi, hhi, Nat.le_of_succ_le hlo, hrow.widen (by rw [hlength]; exact Nat.le_succ _)⟩
  | @node above l first last part s rest children siblings hfirst hlast hl htype hends hc hs ihc ihs =>
    have hpart : part ≠ [] := by
      rintro rfl
      exact absurd hfirst (by simp)
    have hpos := List.length_pos_of_ne_nil hpart
    obtain ⟨cs, mid, hmid, -, hbelow⟩ := ihc ht.below before htokens
    obtain ⟨ss, hi, hhi, hlo, hbeside⟩ :=
      ihs ht.beside (before ++ part) (by rw [htokens, List.append_assoc])
    have hlength : tokens.length = before.length + (part.length + s.length) := by
      rw [htokens, List.length_append, List.length_append]
    obtain rfl : mid = before.length + (part.length - 1) + 1 := by omega
    have hstop : (before ++ part).length = before.length + (part.length - 1) + 1 := by
      rw [List.length_append]
      omega
    rw [hstop] at hlo hbeside
    refine ⟨_, hi, hhi, by omega, .node ht (Nat.le_add_right _ _) hlo ?_ ?_ hl ?_ htype hbelow hbeside⟩
    · rw [htokens, List.getElem?_append_right (Nat.le_refl _), Nat.sub_self,
        ← List.head?_eq_getElem?, List.head?_append, hfirst, Option.some_or]
    · rw [htokens, List.getElem?_append_right (Nat.le_add_right _ _), Nat.add_sub_cancel_left,
        List.getElem?_append_left (by omega), ← List.getLast?_eq_getElem?, hlast]
    · rw [htokens]
      exact hends.endsAt hpart
  | @array type name last suffix s rest text siblings hlast htext hvalue hs ih =>
    have hsuffix : suffix ≠ [] := by
      rintro rfl
      exact absurd hlast (by simp)
    have hpos := List.length_pos_of_ne_nil hsuffix
    obtain ⟨ss, hi, hhi, hlo, hbehind⟩ := ih ht.beside.beside (before ++ type :: name :: suffix)
      (by rw [htokens, List.append_assoc]; rfl)
    have hstop : (before ++ type :: name :: suffix).length = before.length + (suffix.length + 1) + 1 := by
      rw [List.length_append, List.length_cons, List.length_cons]
      omega
    rw [hstop] at hlo hbehind
    refine ⟨_, hi, hhi, by omega, .array ht htext hvalue (by omega) hlo ?_ ?_ ?_ hbehind⟩
    · rw [htokens, List.getElem?_append_right (Nat.le_refl _), Nat.sub_self]
      rfl
    · rw [htokens, List.getElem?_append_right (Nat.le_add_right _ _), Nat.add_sub_cancel_left]
      rfl
    · rw [htokens, List.getElem?_append_right (Nat.le_add_right _ _), Nat.add_sub_cancel_left,
        show suffix.length + 1 = suffix.length - 1 + 1 + 1 by omega, List.getElem?_cons_succ,
        List.getElem?_cons_succ, List.getElem?_append_left (by omega), ← List.getLast?_eq_getElem?,
        hlast]

end BraceLang
