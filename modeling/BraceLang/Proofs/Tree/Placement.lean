import BraceLang.Proofs.Tree.Leaves

/-!
# `Proofs.Tree.Placement` — finding the token of each leaf

Where an outline was taken from tokens, the map from leaves to tokens is put together from the maps
for its parts. The parts of an outline are numbered one after the other and were taken one after the
other, so up to some number the one map counts, and from there on the other.

## Contents
- `Outline.Placed`, the map for some nodes, and `Placed.append`, which puts two maps together.
- `Placed.node` and `Placed.run`, for a node with what is below it, and from the latter
  `Placed.expression`, `Placed.condition` and `Placed.arguments`.
- `TakenFrom.exists_placed` and `TakenFrom.exists_leavesFollow`.
-/

namespace BraceLang

namespace Outline

/-- The map `place` leads from the leaves among the nodes to tokens whose indices are at least `lo`
    and less than `hi`. -/
structure Placed (tokens : List Token) (place : Nat → Nat) (lo hi : Nat) (nodes : List Tree.Node) :
    Prop where
  inside : ∀ n ∈ nodes, n.label.kind.isLeaf = true → lo ≤ place n.id ∧ place n.id < hi
  token : ∀ n ∈ nodes, n.label.kind.isLeaf = true →
    ∃ t, tokens[place n.id]? = some t ∧ n.label = .ofToken (.leaf t.kind) t
  increasing : ∀ n ∈ nodes, ∀ m ∈ nodes, n.label.kind.isLeaf = true → m.label.kind.isLeaf = true →
    n.id < m.id → place n.id < place m.id
  takes : ∀ n ∈ nodes, n.label.kind.Takes tokens (n.children.map place)

theorem mem_rootIds_bounds {o : Outline} {base id : Nat} (h : id ∈ o.rootIds base) :
    base ≤ id ∧ id < base + o.size := by
  induction o generalizing base with
  | nil => exact absurd h List.not_mem_nil
  | node l c s _ ihs =>
    rw [Forest.size]
    rcases List.mem_cons.mp h with rfl | hs
    · omega
    · have := ihs hs
      omega

/-- The children of a node of an outline are numbered within the outline. -/
theorem mem_children_bounds {o : Outline} {base id : Nat} {n : Tree.Node} (hn : n ∈ o.number base)
    (hid : id ∈ n.children) : base ≤ id ∧ id < base + o.size := by
  induction o generalizing base with
  | nil => exact absurd hn List.not_mem_nil
  | node l c s ihc ihs =>
    rw [Forest.size]
    rw [number] at hn
    rcases List.mem_cons.mp hn with rfl | hrest
    · have := mem_rootIds_bounds hid
      omega
    · rcases List.mem_append.mp hrest with hin | hin
      · have := ihc hin
        omega
      · have := ihs hin
        omega

namespace Placed

variable {tokens : List Token} {place f g : Nat → Nat} {lo mid hi k : Nat}
  {nodes more : List Tree.Node} {n : Tree.Node}

theorem nil : Placed tokens place lo hi [] :=
  ⟨by simp, by simp, by simp, by simp⟩

/-- Only the values of the map at the nodes and at their children count. -/
theorem congr (h : Placed tokens f lo hi nodes)
    (hid : ∀ n ∈ nodes, g n.id = f n.id ∧ ∀ c ∈ n.children, g c = f c) :
    Placed tokens g lo hi nodes := by
  constructor
  · intro n hn hleaf
    rw [(hid n hn).1]
    exact h.inside n hn hleaf
  · intro n hn hleaf
    rw [(hid n hn).1]
    exact h.token n hn hleaf
  · intro n hn m hm hleaf hleaf' hlt
    rw [(hid n hn).1, (hid m hm).1]
    exact h.increasing n hn m hm hleaf hleaf' hlt
  · intro n hn
    rw [List.map_congr_left (hid n hn).2]
    exact h.takes n hn

theorem widen {lo' hi' : Nat} (h : Placed tokens f lo hi nodes) (hlo : lo' ≤ lo) (hhi : hi ≤ hi') :
    Placed tokens f lo' hi' nodes := by
  refine ⟨fun n hn hleaf => ?_, h.token, h.increasing, h.takes⟩
  have := h.inside n hn hleaf
  omega

/-- A node that is no leaf and holds none has no place of its own. -/
theorem cons (h : Placed tokens f lo hi nodes) (hleaf : ¬ n.label.kind.isLeaf = true)
    (htakes : n.label.kind.Takes tokens (n.children.map f)) :
    Placed tokens f lo hi (n :: nodes) := by
  have hin : ∀ m ∈ n :: nodes, m.label.kind.isLeaf = true → m ∈ nodes := by
    intro m hm hmleaf
    rcases List.mem_cons.mp hm with rfl | hmem
    · exact absurd hmleaf hleaf
    · exact hmem
  constructor
  · exact fun m hm hmleaf => h.inside m (hin m hm hmleaf) hmleaf
  · exact fun m hm hmleaf => h.token m (hin m hm hmleaf) hmleaf
  · exact fun m hm m' hm' hmleaf hmleaf' =>
      h.increasing m (hin m hm hmleaf) m' (hin m' hm' hmleaf') hmleaf hmleaf'
  · intro m hm
    rcases List.mem_cons.mp hm with rfl | hmem
    · exact htakes
    · exact h.takes m hmem

/-- Two maps are put together where the numbers of the nodes and the tokens both go on. -/
theorem append (hn : Placed tokens f lo mid nodes) (hm : Placed tokens g mid hi more)
    (hlo : lo ≤ mid) (hhi : mid ≤ hi) (hbelow : ∀ n ∈ nodes, n.id < k ∧ ∀ c ∈ n.children, c < k)
    (habove : ∀ m ∈ more, k ≤ m.id ∧ ∀ c ∈ m.children, k ≤ c) :
    Placed tokens (fun id => if id < k then f id else g id) lo hi (nodes ++ more) := by
  have hn' : Placed tokens (fun id => if id < k then f id else g id) lo mid nodes :=
    hn.congr fun n hmem =>
      ⟨if_pos (hbelow n hmem).1, fun c hc => if_pos ((hbelow n hmem).2 c hc)⟩
  have hm' : Placed tokens (fun id => if id < k then f id else g id) mid hi more :=
    hm.congr fun m hmem =>
      ⟨if_neg (Nat.not_lt.mpr (habove m hmem).1),
        fun c hc => if_neg (Nat.not_lt.mpr ((habove m hmem).2 c hc))⟩
  constructor
  · intro n hmem hleaf
    rcases List.mem_append.mp hmem with hin | hin
    · have := hn'.inside n hin hleaf
      omega
    · have := hm'.inside n hin hleaf
      omega
  · intro n hmem
    rcases List.mem_append.mp hmem with hin | hin
    · exact hn'.token n hin
    · exact hm'.token n hin
  · intro n hmem m hmem' hleaf hleaf' hlt
    rcases List.mem_append.mp hmem with hin | hin <;> rcases List.mem_append.mp hmem' with hin' | hin'
    · exact hn'.increasing n hin m hin' hleaf hleaf' hlt
    · exact Nat.lt_of_lt_of_le (hn'.inside n hin hleaf).2 (hm'.inside m hin' hleaf').1
    · have := (habove n hin).1
      have := (hbelow m hin').1
      omega
    · exact hm'.increasing n hin m hin' hleaf hleaf' hlt
  · intro n hmem
    rcases List.mem_append.mp hmem with hin | hin
    · exact hn'.takes n hin
    · exact hm'.takes n hin

/-- Leaves are placed at tokens that stand apart by the same distance. -/
theorem leaves {run : List Token} {start step : Nat} (base : Nat) (hstep : 0 < step)
    (hrun : ∀ i t, run[i]? = some t → tokens[start + step * i]? = some t ∧ start + step * i < hi) :
    Placed tokens (fun id => start + step * (id - base)) start hi
      ((Outline.leaves run).number base) := by
  constructor
  · intro n hn hleaf
    obtain ⟨i, t, ht, rfl⟩ := exists_token_of_mem_leaves hn
    have := (hrun i t ht).2
    dsimp only
    rw [Nat.add_sub_cancel_left]
    omega
  · intro n hn hleaf
    obtain ⟨i, t, ht, rfl⟩ := exists_token_of_mem_leaves hn
    refine ⟨t, ?_, rfl⟩
    dsimp only
    rw [Nat.add_sub_cancel_left]
    exact (hrun i t ht).1
  · intro n hn m hm _ _ hlt
    obtain ⟨i, t, -, rfl⟩ := exists_token_of_mem_leaves hn
    obtain ⟨j, u, -, rfl⟩ := exists_token_of_mem_leaves hm
    dsimp only at hlt ⊢
    rw [Nat.add_sub_cancel_left, Nat.add_sub_cancel_left]
    exact Nat.add_lt_add_left (Nat.mul_lt_mul_of_pos_left (by omega) hstep) start
  · intro n hn
    obtain ⟨i, t, -, rfl⟩ := exists_token_of_mem_leaves hn
    trivial

end Placed

/-- The places of leaves that stand apart by the same distance. -/
theorem map_rootIds_leaves (run : List Token) (base start step : Nat) :
    ((leaves run).rootIds base).map (fun id => start + step * (id - base)) =
      List.range' start run.length step := by
  rw [rootIds_leaves]
  apply List.ext_getElem
  · rw [List.length_map, List.length_range', List.length_range']
  · intro i hi _
    rw [List.getElem_map, List.getElem_range', List.getElem_range', Nat.one_mul,
      Nat.add_sub_cancel_left]

/-- A node is placed with what is below it and what stands beside it. -/
theorem Placed.node {tokens : List Token} {f g : Nat → Nat} {l : Label}
    {children siblings : Outline} {base lo mid hi : Nat} (hl : ¬ l.kind.isLeaf = true)
    (hc : Placed tokens f lo mid (children.number (base + 1)))
    (hs : Placed tokens g mid hi (siblings.number (base + 1 + children.size)))
    (hlo : lo ≤ mid) (hhi : mid ≤ hi)
    (htakes : l.kind.Takes tokens ((children.rootIds (base + 1)).map f)) :
    ∃ place, Placed tokens place lo hi (number base (.node l children siblings)) := by
  -- The children come before the siblings, in their numbers and among the tokens.
  have hboth := hc.append (k := base + 1 + children.size) hs hlo hhi
    (fun n hn => ⟨(id_of_mem_number hn).2, fun c hc => (mem_children_bounds hn hc).2⟩)
    (fun m hm => ⟨(id_of_mem_number hm).1, fun c hc => (mem_children_bounds hm hc).1⟩)
  refine ⟨_, hboth.cons hl ?_⟩
  rw [List.map_congr_left (g := f)]
  · exact htakes
  · intro c hc
    exact if_pos (mem_rootIds_bounds hc).2

/-- A node that holds leaves, and what stands beside it, are placed together. -/
theorem Placed.run {tokens run : List Token} {g : Nat → Nat} {l : Label} {siblings : Outline}
    {base start mid hi : Nat} (step : Nat) (hl : ¬ l.kind.isLeaf = true) (hstep : 0 < step)
    (hrun : ∀ i t, run[i]? = some t → tokens[start + step * i]? = some t ∧ start + step * i < mid)
    (htakes : l.kind.Takes tokens (List.range' start run.length step))
    (hlo : start ≤ mid) (hhi : mid ≤ hi)
    (hs : Placed tokens g mid hi (siblings.number (base + 1 + (Outline.leaves run).size))) :
    ∃ place, Placed tokens place start hi (number base (.node l (Outline.leaves run) siblings)) := by
  refine Placed.node hl (Placed.leaves (base + 1) hstep hrun) hs hlo hhi ?_
  rw [map_rootIds_leaves]
  exact htakes

theorem takes_of_not_holdsLeaves {kind : NodeKind} (h : ¬ kind.holdsLeaves = true)
    (tokens : List Token) (places : List Nat) : kind.Takes tokens places := by
  cases kind with
  | expression | condition | arguments => exact absurd rfl h
  | _ => trivial

/-- The tokens of a run, found in the whole row. -/
theorem getElem?_run (before after : List Token) {run : List Token} {i : Nat} {t : Token}
    (h : run[i]? = some t) : (before ++ (run ++ after))[before.length + i]? = some t := by
  obtain ⟨hlt, -⟩ := List.getElem?_eq_some_iff.mp h
  rw [List.getElem?_append_right (Nat.le_add_right _ _), Nat.add_sub_cancel_left,
    List.getElem?_append_left hlt, h]

/-- A node whose leaves are found between parentheses, each `step` tokens after the one before, is
    placed with what stands beside it. -/
theorem Placed.parenthesized {tokens before run picked s : List Token} {opening closing : Token}
    {g : Nat → Nat} {l : Label} {siblings : Outline} {base hi : Nat} (step : Nat)
    (htokens : tokens = before ++ opening :: (run ++ closing :: s)) (hl : ¬ l.kind.isLeaf = true)
    (hstep : 0 < step) (hpicked : ∀ i t, picked[i]? = some t → run[step * i]? = some t)
    (htakes : l.kind.Takes tokens (List.range' (before.length + 1) picked.length step))
    (hhi : before.length + run.length + 2 ≤ hi)
    (hs : Placed tokens g (before.length + run.length + 2) hi
      (siblings.number (base + 1 + (Outline.leaves picked).size))) :
    ∃ place, Placed tokens place before.length hi
      (number base (.node l (Outline.leaves picked) siblings)) := by
  have hplaced : ∃ place, Placed tokens place (before.length + 1) hi
      (number base (.node l (Outline.leaves picked) siblings)) := by
    refine Placed.run step hl hstep ?_ htakes (by omega) hhi hs
    intro i t hi
    obtain ⟨hlt, -⟩ := List.getElem?_eq_some_iff.mp (hpicked i t hi)
    have hget := getElem?_run (before ++ [opening]) (closing :: s) (hpicked i t hi)
    rw [List.append_assoc, List.singleton_append, ← htokens, List.length_append] at hget
    exact ⟨hget, by omega⟩
  obtain ⟨place, hplace⟩ := hplaced
  exact ⟨place, hplace.widen (Nat.le_succ _) (Nat.le_refl _)⟩

section LeafNodes

variable {tokens before run s : List Token} {opening closing semicolon : Token} {g : Nat → Nat}
  {l : Label} {siblings : Outline} {base hi : Nat}

theorem Placed.expression (htokens : tokens = before ++ (run ++ semicolon :: s))
    (hl : l.kind = .expression) (hrun : IsExpression (words run))
    (hsemi : semicolon.word = .mark ";") (hhi : before.length + run.length ≤ hi)
    (hs : Placed tokens g (before.length + run.length) hi
      (siblings.number (base + 1 + (Outline.leaves run).size))) :
    ∃ place, Placed tokens place before.length hi
      (number base (.node l (Outline.leaves run) siblings)) := by
  refine Placed.run 1 (by rw [hl]; exact Bool.false_ne_true) Nat.one_pos ?_ ?_
    (Nat.le_add_right _ _) hhi hs
  · intro i t hi
    obtain ⟨hlt, -⟩ := List.getElem?_eq_some_iff.mp hi
    rw [Nat.one_mul, htokens]
    exact ⟨getElem?_run before _ hi, Nat.add_lt_add_left hlt _⟩
  · rw [hl]
    refine ⟨before.length, run, semicolon, ?_, hrun, hsemi, rfl⟩
    rw [htokens, List.drop_left]
    exact ⟨s, by simp⟩

theorem Placed.condition (htokens : tokens = before ++ opening :: (run ++ closing :: s))
    (hl : l.kind = .condition) (hopening : opening.word = .mark "(")
    (hrun : Balanced (words run)) (hclosing : closing.word = .mark ")")
    (hhi : before.length + run.length + 2 ≤ hi)
    (hs : Placed tokens g (before.length + run.length + 2) hi
      (siblings.number (base + 1 + (Outline.leaves run).size))) :
    ∃ place, Placed tokens place before.length hi
      (number base (.node l (Outline.leaves run) siblings)) := by
  refine Placed.parenthesized 1 htokens (by rw [hl]; exact Bool.false_ne_true) Nat.one_pos ?_ ?_
    hhi hs
  · intro i t hi
    rw [Nat.one_mul]
    exact hi
  · rw [hl]
    refine ⟨before.length, opening, run, closing, ?_, hopening, hrun, hclosing, rfl⟩
    rw [htokens, List.drop_left]
    exact ⟨s, by simp⟩

theorem Placed.arguments (htokens : tokens = before ++ opening :: (run ++ closing :: s))
    (hl : l.kind = .arguments) (hopening : opening.word = .mark "(")
    (hrun : run = [] ∨ IsArgumentList (words run)) (hclosing : closing.word = .mark ")")
    (hhi : before.length + run.length + 2 ≤ hi)
    (hs : Placed tokens g (before.length + run.length + 2) hi
      (siblings.number (base + 1 + (Outline.leaves (Simple.argumentTokens run)).size))) :
    ∃ place, Placed tokens place before.length hi
      (number base (.node l (Outline.leaves (Simple.argumentTokens run)) siblings)) := by
  -- The places of arguments are two apart, since a comma stands after each but the last.
  have hevery : (run.length + 1) / 2 = (Simple.argumentTokens run).length ∧
      ∀ i t, (Simple.argumentTokens run)[i]? = some t → run[2 * i]? = some t := by
    rcases hrun with rfl | hlist
    · exact ⟨rfl, fun i t hi => absurd hi (by simp [Simple.argumentTokens])⟩
    · obtain ⟨hcount, hget⟩ := getElem?_argumentTokens hlist
      exact ⟨by omega, hget⟩
  refine Placed.parenthesized 2 htokens (by rw [hl]; exact Bool.false_ne_true) Nat.two_pos
    hevery.2 ?_ hhi hs
  rw [hl]
  refine ⟨before.length, opening, run, closing, ?_, hopening, hrun, hclosing, ?_⟩
  · rw [htokens, List.drop_left]
    exact ⟨s, by simp⟩
  · rw [hevery.1]

end LeafNodes

/-- The leaves of an outline that was taken from tokens can be placed among these. -/
theorem TakenFrom.exists_placed {s rest : List Token} {o : Outline} (h : TakenFrom s rest o)
    {tokens : List Token} (before : List Token) (htokens : tokens = before ++ s) (base : Nat) :
    ∃ place, Placed tokens place before.length (tokens.length - rest.length) (o.number base) := by
  -- `before` grows by what has been taken, and the places lie between it and `rest`.
  induction h generalizing before base with
  | nil => exact ⟨id, Placed.nil⟩
  | @skip t s _ _ _ ih =>
    obtain ⟨place, hplace⟩ := ih (before ++ [t]) (by rw [htokens]; simp) base
    rw [List.length_append] at hplace
    exact ⟨place, hplace.widen (Nat.le_add_right _ _) (Nat.le_refl _)⟩
  | @node l _ middle rest children siblings hl hleaf _ hc hs ihc ihs =>
    obtain ⟨f, hf⟩ := ihc before htokens (base + 1)
    obtain ⟨run, rfl⟩ := hc.exists_append
    obtain ⟨more, rfl⟩ := hs.exists_append
    rw [← List.append_assoc] at htokens
    obtain ⟨g, hg⟩ := ihs (before ++ run) htokens (base + 1 + children.size)
    have hlength := congrArg List.length htokens
    simp only [List.length_append] at hlength hf hg
    have hmid : tokens.length - (more.length + rest.length) ≤ before.length + run.length := by
      omega
    exact Placed.node hleaf (hf.widen (Nat.le_refl _) hmid) hg (by omega) (by omega)
      (takes_of_not_holdsLeaves hl _ _)
  | @expression l run s rest semicolon siblings hl hrun hsemi hs ih =>
    obtain ⟨g, hg⟩ := ih (before ++ run) (by rw [htokens, List.append_assoc])
      (base + 1 + (leaves run).size)
    obtain ⟨more, hmore⟩ := hs.exists_append
    have hlength := congrArg List.length htokens
    rw [hmore] at hlength
    simp only [List.length_append] at hlength hg
    exact Placed.expression htokens hl hrun hsemi (by omega) hg
  | @condition l opening closing run s rest siblings hl hopening hrun hclosing hs ih =>
    obtain ⟨g, hg⟩ := ih (before ++ opening :: (run ++ [closing])) (by rw [htokens]; simp)
      (base + 1 + (leaves run).size)
    obtain ⟨more, hmore⟩ := hs.exists_append
    have hlength := congrArg List.length htokens
    rw [hmore] at hlength
    simp only [List.length_append, List.length_cons, List.length_nil] at hlength hg
    exact Placed.condition htokens hl hopening hrun hclosing (by omega) hg
  | @arguments l opening closing run s rest siblings hl hopening hrun hclosing hs ih =>
    obtain ⟨g, hg⟩ := ih (before ++ opening :: (run ++ [closing])) (by rw [htokens]; simp)
      (base + 1 + (leaves (Simple.argumentTokens run)).size)
    obtain ⟨more, hmore⟩ := hs.exists_append
    have hlength := congrArg List.length htokens
    rw [hmore] at hlength
    simp only [List.length_append, List.length_cons, List.length_nil] at hlength hg
    exact Placed.arguments htokens hl hopening hrun hclosing (by omega) hg

/-- **The leaves of a tree follow the tokens that its outline was taken from.** -/
theorem TakenFrom.exists_leavesFollow {tokens rest : List Token} {o : Outline}
    (h : TakenFrom tokens rest o) :
    ∃ place, (Tree.ofOutline o).LeavesFollow tokens Token.orderedSpan place := by
  obtain ⟨place, hplace⟩ := h.exists_placed [] rfl 0
  refine ⟨place, ?_, ?_, ?_⟩
  · intro i j n m hn hm hleaf hleaf' hlt
    obtain ⟨hmem, rfl⟩ := Tree.get?_ofOutline_eq_some_iff.mp hn
    obtain ⟨hmem', rfl⟩ := Tree.get?_ofOutline_eq_some_iff.mp hm
    exact hplace.increasing n hmem m hmem' hleaf hleaf' hlt
  · intro id n hn hleaf
    obtain ⟨hmem, rfl⟩ := Tree.get?_ofOutline_eq_some_iff.mp hn
    obtain ⟨t, ht, hlabel⟩ := hplace.token n hmem hleaf
    rw [hlabel]
    exact ⟨t, ht, rfl, rfl, rfl, rfl⟩
  · intro id n hn
    obtain ⟨hmem, rfl⟩ := Tree.get?_ofOutline_eq_some_iff.mp hn
    exact hplace.takes n hmem

end Outline

end BraceLang
