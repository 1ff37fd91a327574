import BraceLang.Proofs.Reading.Parts
import BraceLang.Proofs.Tree.Shape

/-!
# `Proofs.Tree.Leaves` — the leaves of a tree among the tokens of its source

A leaf is a token of the source, and it is the same token that the leaf shows: the leaves follow one
another as their tokens do. `Tree.LeavesFollow` says so by a map from the numbers of leaves to the
indices of tokens. It is built along `Outline.TakenFrom`, which goes through an outline and its
tokens at once and knows neither numbers nor indices.

## Contents
- `NodeKind.Takes`, the runs of tokens that become conditions, expressions and arguments.
- `Tree.LeavesFollow`.
- `Outline.TakenFrom`, with `skipAll` and `append`.
- `TakenFrom.shaped`: each node has the children that its kind allows.
-/

namespace BraceLang

/-- The span of a token, ended at its start if it ends before. -/
def Token.orderedSpan (t : Token) : Span := ⟨t.span.start, max t.span.stop t.span.start⟩

/-- The indices are those of an expression: a run of tokens up to a semicolon. -/
def IsExpressionAt (tokens : List Token) (places : List Nat) : Prop :=
  ∃ start run semicolon, run ++ [semicolon] <+: tokens.drop start ∧ IsExpression (words run) ∧
    semicolon.word = .mark ";" ∧ places = List.range' start run.length

/-- The indices are those of a condition: all that stands between a pair of parentheses. -/
def IsConditionAt (tokens : List Token) (places : List Nat) : Prop :=
  ∃ start opening run closing, opening :: (run ++ [closing]) <+: tokens.drop start ∧
    opening.word = .mark "(" ∧ Balanced (words run) ∧ closing.word = .mark ")" ∧
      places = List.range' (start + 1) run.length

/-- The indices are those of arguments: every other token between a pair of parentheses, the tokens
    in between being commas. -/
def AreArgumentsAt (tokens : List Token) (places : List Nat) : Prop :=
  ∃ start opening run closing, opening :: (run ++ [closing]) <+: tokens.drop start ∧
    opening.word = .mark "(" ∧ (run = [] ∨ IsArgumentList (words run)) ∧
      closing.word = .mark ")" ∧ places = List.range' (start + 1) ((run.length + 1) / 2) 2

/-- The tokens with the indices `places` may be the children of a node of the kind. -/
def NodeKind.Takes (tokens : List Token) (places : List Nat) : NodeKind → Prop
  | .expression => IsExpressionAt tokens places
  | .condition => IsConditionAt tokens places
  | .arguments => AreArgumentsAt tokens places
  | _ => True

/-- The map `place` leads from the leaves of the tree, in the order of their numbers, to tokens in the
    order of the source. Each leaf has the kind, the text and the position of its token, and the span
    that is given for the token; and the leaves of a condition, an expression or an argument list are
    a run of tokens of its own form. -/
structure Tree.LeavesFollow (t : Tree) (tokens : List Token) (span : Token → Span)
    (place : Nat → Nat) : Prop where
  increasing : ∀ i j n m, t.get? i = some n → t.get? j = some m → n.label.kind.isLeaf = true →
    m.label.kind.isLeaf = true → i < j → place i < place j
  token : ∀ id n, t.get? id = some n → n.label.kind.isLeaf = true →
    ∃ tok, tokens[place id]? = some tok ∧ n.label.kind = .leaf tok.kind ∧
      n.label.value = some tok.text ∧ n.label.start = tok.position ∧ n.label.span = span tok
  takes : ∀ id n, t.get? id = some n → n.label.kind.Takes tokens (n.children.map place)

namespace Outline

/-- The outline `o` has been taken from the tokens `s` up to the tokens `rest`: its leaves are tokens
    of these in their order, each node has the children that its kind allows, and conditions,
    expressions and arguments are runs of tokens of their own form. -/
inductive TakenFrom : List Token → List Token → Outline → Prop
  | nil {s : List Token} : TakenFrom s s .nil
  | skip {t : Token} {s rest : List Token} {o : Outline} (h : TakenFrom s rest o) :
    TakenFrom (t :: s) rest o
  | node {l : Label} {s middle rest : List Token} {children siblings : Outline}
      (hl : ¬ l.kind.holdsLeaves = true) (hleaf : ¬ l.kind.isLeaf = true)
      (hallows : l.kind.Allows (children.roots.map Label.kind))
      (hc : TakenFrom s middle children) (hs : TakenFrom middle rest siblings) :
      TakenFrom s rest (.node l children siblings)
  | expression {l : Label} {run s rest : List Token} {semicolon : Token} {siblings : Outline}
      (hl : l.kind = .expression) (hrun : IsExpression (words run))
      (hsemi : semicolon.word = .mark ";") (hs : TakenFrom (semicolon :: s) rest siblings) :
      TakenFrom (run ++ semicolon :: s) rest (.node l (leaves run) siblings)
  | condition {l : Label} {opening closing : Token} {run s rest : List Token} {siblings : Outline}
      (hl : l.kind = .condition) (hopening : opening.word = .mark "(") (hrun : Balanced (words run))
      (hclosing : closing.word = .mark ")") (hs : TakenFrom s rest siblings) :
      TakenFrom (opening :: (run ++ closing :: s)) rest (.node l (leaves run) siblings)
  | arguments {l : Label} {opening closing : Token} {run s rest : List Token} {siblings : Outline}
      (hl : l.kind = .arguments) (hopening : opening.word = .mark "(")
      (hrun : run = [] ∨ IsArgumentList (words run)) (hclosing : closing.word = .mark ")")
      (hs : TakenFrom s rest siblings) :
      TakenFrom (opening :: (run ++ closing :: s)) rest
        (.node l (leaves (Simple.argumentTokens run)) siblings)

namespace TakenFrom

variable {s middle rest run : List Token} {o more : Outline}

theorem skipAll (h : TakenFrom s rest o) (run : List Token) : TakenFrom (run ++ s) rest o := by
  induction run with
  | nil => exact h
  | cons t run ih => exact .skip ih

/-- Two outlines side by side are taken one after the other. -/
theorem append (h : TakenFrom s middle o) (hmore : TakenFrom middle rest more) :
    TakenFrom s rest (o ++ more) := by
  induction h with
  | nil => exact hmore
  | skip _ ih => exact .skip (ih hmore)
  | node hl hleaf hallows hc _ _ ih => exact .node hl hleaf hallows hc (ih hmore)
  | expression hl hrun hsemi _ ih => exact .expression hl hrun hsemi (ih hmore)
  | condition hl hopening hrun hclosing _ ih => exact .condition hl hopening hrun hclosing (ih hmore)
  | arguments hl hopening hrun hclosing _ ih => exact .arguments hl hopening hrun hclosing (ih hmore)

theorem exists_append (h : TakenFrom s rest o) : ∃ run, s = run ++ rest := by
  induction h with
  | nil => exact ⟨[], rfl⟩
  | @skip t _ _ _ _ ih =>
    obtain ⟨run, rfl⟩ := ih
    exact ⟨t :: run, rfl⟩
  | node _ _ _ _ _ ihc ihs =>
    obtain ⟨run, rfl⟩ := ihc
    obtain ⟨more, rfl⟩ := ihs
    exact ⟨run ++ more, by rw [List.append_assoc]⟩
  | @expression _ run _ _ _ _ _ _ _ _ ih =>
    obtain ⟨more, hmore⟩ := ih
    exact ⟨run ++ more, by rw [hmore, List.append_assoc]⟩
  | @condition _ opening closing run _ _ _ _ _ _ _ _ ih
  | @arguments _ opening closing run _ _ _ _ _ _ _ _ ih =>
    obtain ⟨more, rfl⟩ := ih
    exact ⟨opening :: (run ++ closing :: more), by simp⟩

end TakenFrom

/-! ## Runs of leaves -/

theorem roots_leaves (run : List Token) :
    (leaves run).roots = run.map fun t => .ofToken (.leaf t.kind) t := by
  induction run with
  | nil => rfl
  | cons t run ih => exact congrArg _ ih

theorem map_text_tops_leaves (run : List Token) (base : Nat) :
    ((leaves run).tops base).map (·.label.text) = run.map (·.text) := by
  have htexts := congrArg (List.map Label.text) (map_label_tops (leaves run) base)
  rwa [List.map_map, roots_leaves, List.map_map] at htexts

theorem shaped_leaves (run : List Token) : Shaped (leaves run) := by
  induction run with
  | nil => trivial
  | cons t run ih => exact ⟨rfl, trivial, ih⟩

theorem rootIds_leaves (run : List Token) (base : Nat) :
    (leaves run).rootIds base = List.range' base run.length := by
  induction run generalizing base with
  | nil => rfl
  | cons t run ih => exact congrArg _ (ih (base + 1))

/-- The leaves of a run are numbered as its tokens follow one another. -/
theorem exists_token_of_mem_leaves {run : List Token} {base : Nat} {n : Tree.Node}
    (h : n ∈ (leaves run).number base) :
    ∃ i t, run[i]? = some t ∧ n = ⟨base + i, .ofToken (.leaf t.kind) t, []⟩ := by
  induction run generalizing base with
  | nil => exact absurd h List.not_mem_nil
  | cons t run ih =>
    rcases List.mem_cons.mp h with rfl | hrest
    · exact ⟨0, t, rfl, rfl⟩
    · have hrest : n ∈ (leaves run).number (base + 1) := hrest
      obtain ⟨i, u, hu, rfl⟩ := ih hrest
      exact ⟨i + 1, u, hu, by rw [show base + (i + 1) = base + 1 + i by omega]⟩

/-- The arguments of a list are every other of its tokens. -/
theorem getElem?_argumentTokens {run : List Token} (h : IsArgumentList (words run)) :
    run.length + 1 = 2 * (Simple.argumentTokens run).length ∧
      ∀ i t, (Simple.argumentTokens run)[i]? = some t → run[2 * i]? = some t := by
  -- The list is about words, so the induction on it goes along with their tokens.
  generalize hwords : words run = w at h
  induction h generalizing run with
  | single ha =>
    obtain ⟨a, rfl, rfl⟩ := List.map_eq_singleton_iff.mp hwords
    have hargument : Simple.argumentTokens [a] = [a] :=
      List.filter_cons_of_pos (Token.isArgument_iff.mpr ha)
    rw [hargument]
    refine ⟨rfl, fun i t hi => ?_⟩
    cases i with
    | zero => exact hi
    | succ i => exact absurd hi (by simp)
  | more ha _ ih =>
    obtain ⟨a, tail, rfl, rfl, htail⟩ := List.map_eq_cons_iff.mp hwords
    obtain ⟨comma, more, rfl, hcomma, hmore⟩ := List.map_eq_cons_iff.mp htail
    obtain ⟨hlength, hget⟩ := ih hmore
    have hnot : ¬ comma.isArgument = true := by
      rw [Token.isArgument_iff, hcomma]
      exact fun h => absurd h Bool.false_ne_true
    have harguments : Simple.argumentTokens (a :: comma :: more) =
        a :: Simple.argumentTokens more := by
      rw [Simple.argumentTokens, List.filter_cons_of_pos (Token.isArgument_iff.mpr ha),
        List.filter_cons_of_neg hnot, Simple.argumentTokens]
    rw [harguments]
    refine ⟨by simp only [List.length_cons]; omega, fun i t hi => ?_⟩
    cases i with
    | zero => exact hi
    | succ i => exact hget i t hi

theorem isLeaf_of_mem_roots_leaves {run : List Token} {kind : NodeKind}
    (h : kind ∈ (leaves run).roots.map Label.kind) : kind.isLeaf = true := by
  rw [roots_leaves, List.map_map] at h
  obtain ⟨t, -, rfl⟩ := List.mem_map.mp h
  rfl

/-- Arguments are texts, numbers and names. -/
theorem allows_arguments (run : List Token) :
    NodeKind.arguments.Allows ((leaves (Simple.argumentTokens run)).roots.map Label.kind) := by
  intro k hk
  rw [roots_leaves, List.map_map] at hk
  obtain ⟨t, ht, rfl⟩ := List.mem_map.mp hk
  have hargument := (List.mem_filter.mp ht).2
  show NodeKind.leaf t.kind = _ ∨ NodeKind.leaf t.kind = _ ∨ NodeKind.leaf t.kind = _
  rw [Token.isArgument, Token.Kind.isArgument.eq_def] at hargument
  split at hargument
  · next hkind => exact Or.inl (by rw [hkind])
  · next hkind => exact Or.inr (Or.inl (by rw [hkind]))
  · next hkind => exact Or.inr (Or.inr (by rw [hkind]))
  · exact absurd hargument Bool.false_ne_true

/-- An outline that was taken from tokens is shaped. -/
theorem TakenFrom.shaped {s rest : List Token} {o : Outline} (h : TakenFrom s rest o) :
    o.Shaped := by
  induction h with
  | nil => trivial
  | skip _ ih => exact ih
  | node _ _ hallows _ _ ihc ihs => exact ⟨hallows, ihc, ihs⟩
  | @expression l run _ _ _ _ hl hrun _ _ ih =>
    refine ⟨?_, shaped_leaves run, ih⟩
    rw [hl]
    refine ⟨?_, fun k => isLeaf_of_mem_roots_leaves⟩
    intro hnil
    rw [List.map_eq_nil_iff, roots_leaves, List.map_eq_nil_iff] at hnil
    exact hrun.ne_nil (by rw [hnil]; rfl)
  | @condition l _ _ run _ _ _ hl _ _ _ _ ih =>
    refine ⟨?_, shaped_leaves run, ih⟩
    rw [hl]
    exact fun k => isLeaf_of_mem_roots_leaves
  | @arguments l _ _ run _ _ _ hl _ _ _ _ ih =>
    refine ⟨?_, shaped_leaves _, ih⟩
    rw [hl]
    exact allows_arguments run

end Outline

end BraceLang
