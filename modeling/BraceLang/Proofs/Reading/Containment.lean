import BraceLang.Proofs.Reading.Faithfulness
import BraceLang.Proofs.Reading.Places
import BraceLang.Proofs.Scope.Lookup
import BraceLang.Proofs.Tree.Parts
import BraceLang.Proofs.Tree.PreOrder

/-!
# `Proofs.Reading.Containment` — nodes that contain one another in the text

Of two nodes of a tree that was read, one stands below the other, or their spans are apart. The one exception
is an array: its type reaches around its name. So where a node stands in the tree can be told from the
spans: what contains a declaration in the text, and is not a part of one, stands above it in the tree.

## Contents
- `Below.trans`, `Below.eq_or_child` and `Below.of_closed`, with `SpansNest.of_below`.
- **`SpansNest.below_or_apart`**.
- `NodeKind.isOperand`, what may stand below a declaration, and **`SpansNest.around_or_apart`**.
- `WellShaped.not_below_part`: no declaration stands in a condition or a parameter list.
- `BelongsTo.toBelow` and `BelongsTo.below_of_below`, the nearest block around a node.
- `Program.spansNest`, `Program.start_lt_stop` and `Program.wellShaped`, of a tree that was read.
-/

namespace BraceLang

namespace Tree

variable {t : Tree} {id other : Nat} {n m : Node}

/-! ## What is below a node -/

theorem Below.exists_node (h : t.Below id other) : ∃ n, t.get? id = some n := by
  induction h with
  | self hn => exact ⟨_, hn⟩
  | child _ _ _ ih => exact ih

theorem Below.trans {last : Nat} (h : t.Below id other) (h' : t.Below other last) : t.Below id last := by
  induction h' with
  | self => exact h
  | child _ hn hm ih => exact .child ih hn hm

/-- What is below a node is the node itself or below one of its children. -/
theorem Below.eq_or_child (h : t.Below id other) (hn : t.get? id = some n)
    (hget : ∀ c ∈ n.children, (t.get? c).isSome = true) :
    other = id ∨ ∃ c ∈ n.children, t.Below c other := by
  induction h with
  | self => exact .inl rfl
  | @child above _ m _ hm hin ih =>
    right
    rcases ih with rfl | ⟨c, hc, hbelow⟩
    · rw [hn] at hm
      obtain rfl := Option.some.inj hm
      obtain ⟨x, hx⟩ := Option.isSome_iff_exists.mp (hget _ hin)
      exact ⟨_, hin, .self hx⟩
    · exact ⟨c, hc, .child hbelow hm hin⟩

theorem mem_children (hn : t.get? id = some n) (hin : other ∈ n.children)
    (hm : t.get? other = some m) : m ∈ t.children id := by
  rw [children, hn]
  exact List.mem_filterMap.mpr ⟨other, hin, hm⟩

/-- The span of a node contains those of the nodes below it. -/
theorem SpansNest.of_below (h : t.SpansNest) (hbelow : t.Below id other) (hn : t.get? id = some n)
    (hm : t.get? other = some m) :
    n.label.span.start ≤ m.label.span.start ∧ m.label.span.stop ≤ n.label.span.stop := by
  induction hbelow generalizing m with
  | self =>
    rw [hn] at hm
    obtain rfl := Option.some.inj hm
    exact ⟨Nat.le_refl _, Nat.le_refl _⟩
  | child _ habove hin ih =>
    obtain ⟨hstart, hstop⟩ := ih habove
    obtain ⟨hstart', hstop'⟩ := h.below _ _ habove m (mem_children habove hin hm)
    exact ⟨hstart.trans hstart', hstop'.trans hstop⟩

/-- A property of kinds that each kind hands on to its children holds of all that is below a node. -/
theorem Below.of_closed {P : NodeKind → Prop} (hshape : t.WellShaped)
    (hclosed : ∀ kind below, P kind → kind.Allows below → ∀ k ∈ below, P k)
    (h : t.Below id other) (hn : t.get? id = some n) (hP : P n.label.kind)
    (hm : t.get? other = some m) : P m.label.kind := by
  induction h generalizing m with
  | self =>
    rw [hn] at hm
    obtain rfl := Option.some.inj hm
    exact hP
  | child _ habove hin ih =>
    exact hclosed _ _ (ih habove) (hshape.allows _ _ habove) _
      (List.mem_map_of_mem (mem_children habove hin hm))

/-! ## Nested or apart -/

namespace InPreOrder

/-- A node that is not the root has a parent. -/
theorem exists_parent (h : t.InPreOrder) (hm : t.get? other = some m) (hne : other ≠ Tree.root) :
    ∃ above n, t.get? above = some n ∧ other ∈ n.children := by
  have hlt : other < t.size := by
    rw [get?, Array.getElem?_eq_some_iff] at hm
    exact hm.1
  have hcount := h.one_parent other hlt
  rw [if_neg hne] at hcount
  have hin : other ∈ t.nodes.toList.flatMap Node.children :=
    List.count_pos_iff.mp (hcount ▸ Nat.one_pos)
  obtain ⟨n, hn, hchild⟩ := List.mem_flatMap.mp hin
  obtain ⟨above, habove⟩ := List.mem_iff_getElem?.mp hn
  rw [Array.getElem?_toList] at habove
  exact ⟨above, n, habove, hchild⟩

/-- What has a number between that of a node and that of a child of it stands below an earlier child. -/
theorem exists_child_of_between (h : t.InPreOrder) {between child : Nat} (hn : t.get? id = some n)
    (hchild : child ∈ n.children) (hlo : id < between) (hhi : between < child) :
    ∃ c ∈ n.children, c < child ∧ t.Below c between := by
  obtain ⟨count, -, hbelow, -⟩ := h.descendants id
  have hlast := (hbelow child).mp (.child (.self hn) hn hchild)
  have hin : t.Below id between := (hbelow between).mpr ⟨hlo.le, by omega⟩
  have hget : ∀ c ∈ n.children, (t.get? c).isSome = true := by
    intro c hc
    have hlt := (h.children_bounds _ _ hn c hc).2
    rw [get?, Array.getElem?_eq_getElem hlt]
    rfl
  rcases hin.eq_or_child hn hget with heq | ⟨c, hc, hcbelow⟩
  · omega
  · obtain ⟨count', -, hbelow', -⟩ := h.descendants c
    have hle := ((hbelow' between).mp hcbelow).1
    exact ⟨c, hc, by omega, hcbelow⟩

/-- The children of a node are in the order of their numbers. -/
theorem pairwise_children (h : t.InPreOrder) (hn : t.get? id = some n) :
    (t.children id).Pairwise fun a b => a.id < b.id := by
  rw [children, hn]
  refine (h.children_increasing _ _ hn).filterMap _ fun i j hij a ha b hb => ?_
  rw [h.id_eq i a ha, h.id_eq j b hb]
  exact hij

end InPreOrder

/-- Of two children of a node, the first ends before the second begins, but in the declaration of an array. -/
theorem SpansNest.apart_of_lt (h : t.SpansNest) (horder : t.InPreOrder) (hn : t.get? id = some n)
    {a b : Node} (ha : a ∈ t.children id) (hb : b ∈ t.children id) (hlt : a.id < b.id) :
    a.label.span.stop ≤ b.label.span.start ∨ n.label.kind = .variableDeclaration := by
  have hboth := (h.apart id n hn).and (horder.pairwise_children hn)
  obtain ⟨i, hi, rfl⟩ := List.mem_iff_getElem.mp ha
  obtain ⟨j, hj, rfl⟩ := List.mem_iff_getElem.mp hb
  rw [List.pairwise_iff_getElem] at hboth
  have hij : i < j := by
    rcases Nat.lt_trichotomy i j with hij | rfl | hji
    · exact hij
    · omega
    · have := (hboth j i hj hi hji).2
      omega
  have hapart := (hboth i j hi hj hij).1
  split at hapart
  · next harray => exact .inr harray.1
  · exact .inl hapart

/-- **Of two nodes, the later one stands below the other or behind it in the text**, unless both belong to
    one declaration. -/
theorem SpansNest.below_or_apart (h : t.SpansNest) (horder : t.InPreOrder) {i j : Nat} {a b : Node}
    (ha : t.get? i = some a) (hb : t.get? j = some b) (hle : i ≤ j) :
    t.Below i j ∨ a.label.span.stop ≤ b.label.span.start ∨
      ∃ k d, t.get? k = some d ∧ d.label.kind = .variableDeclaration ∧ t.Below k i ∧ t.Below k j := by
  induction j using Nat.strongRecOn generalizing b with
  | ind j ih =>
    rcases Nat.eq_or_lt_of_le hle with rfl | hlt
    · exact .inl (.self ha)
    have hne : j ≠ root := by
      rw [root]
      omega
    obtain ⟨above, n, hn, hin⟩ := horder.exists_parent hb hne
    have hbelow : t.Below above j := .child (.self hn) hn hin
    have hmem := mem_children hn hin hb
    rcases Nat.lt_or_ge above i with hbetween | hle'
    · -- the first node stands below an earlier child of the parent of the second
      obtain ⟨c, hc, hlt', hca⟩ := horder.exists_child_of_between hn hin hbetween hlt
      obtain ⟨m, hm⟩ := hca.exists_node
      have hnumber : m.id < b.id := by
        rw [horder.id_eq c m hm, horder.id_eq j b hb]
        exact hlt'
      rcases h.apart_of_lt horder hn (mem_children hn hc hm) hmem hnumber with hapart | hkind
      · exact .inr (.inl ((h.of_below hca hm ha).2.trans hapart))
      · have hai : t.Below above i := Below.trans (.child (.self hn) hn hc) hca
        exact .inr (.inr ⟨above, n, hn, hkind, hai, hbelow⟩)
    · have habove : above < j := (horder.children_bounds _ _ hn _ hin).1
      rcases ih above habove hn hle' with hin' | hapart | ⟨k, d, hd, hkind, hki, hka⟩
      · exact .inl (.child hin' hn hin)
      · exact .inr (.inl (hapart.trans (h.below _ _ hn b hmem).1))
      · exact .inr (.inr ⟨k, d, hd, hkind, hki, .child hka hn hin⟩)

end Tree

/-! ## Declarations -/

namespace NodeKind

/-- Whether the node may stand below a declaration. -/
def isOperand : NodeKind → Bool
  | .type | .identifier | .expression | .leaf _ => true
  | _ => false

variable {kind k : NodeKind} {below : List NodeKind}

theorem isOperand_of_isLeaf (h : kind.isLeaf = true) : kind.isOperand = true := by
  cases kind with
  | leaf => rfl
  | _ => exact absurd h Bool.false_ne_true

theorem isOperand_of_allows (hkind : kind.isOperand = true ∨ kind = .variableDeclaration)
    (h : kind.Allows below) : ∀ k ∈ below, k.isOperand = true := by
  intro k hk
  cases kind with
  | type | identifier | leaf =>
    rw [show below = [] from h] at hk
    exact absurd hk List.not_mem_nil
  | expression => exact isOperand_of_isLeaf (h.2 k hk)
  | variableDeclaration =>
    rcases h with rfl | rfl <;> simp only [List.mem_cons, List.not_mem_nil, or_false] at hk
    · rcases hk with rfl | rfl <;> rfl
    · rcases hk with rfl | rfl | rfl <;> rfl
  | _ => exact hkind.elim (fun h => absurd h Bool.false_ne_true) nofun

/-- Below parts of statements and functions there are only such parts. -/
theorem isPart_of_allows (hkind : kind.isPart = true) (h : kind.Allows below) :
    ∀ k ∈ below, k.isPart = true := by
  have hleaf {k : NodeKind} (hk : k.isLeaf = true) : k.isPart = true := by
    cases k with
    | leaf => rfl
    | _ => exact absurd hk Bool.false_ne_true
  intro k hk
  cases kind with
  | type | identifier | leaf =>
    rw [show below = [] from h] at hk
    exact absurd hk List.not_mem_nil
  | expression => exact hleaf (h.2 k hk)
  | condition => exact hleaf (h k hk)
  | arguments => rcases h k hk with rfl | rfl | rfl <;> rfl
  | parameters =>
    rw [h k hk]
    rfl
  | parameter =>
    rw [show below = _ from h] at hk
    simp only [List.mem_cons, List.not_mem_nil, or_false] at hk
    rcases hk with rfl | rfl <;> rfl
  | _ => exact absurd hkind Bool.false_ne_true

end NodeKind

namespace Tree

variable {t : Tree} {n d : Node} {i j : Nat}

/-- A node that is no declaration and may not stand below one does not belong to one. -/
theorem WellShaped.not_below_declaration (h : t.WellShaped) (hd : t.get? i = some d)
    (hkind : d.label.kind = .variableDeclaration) (hn : t.get? j = some n)
    (hne : n.label.kind ≠ .variableDeclaration) (hnot : n.label.kind.isOperand = false) :
    ¬ t.Below i j := by
  intro hbelow
  rcases hbelow.eq_or_child hd (h.exists_child i d hd) with rfl | ⟨c, hc, hcn⟩
  · rw [hd] at hn
    obtain rfl := Option.some.inj hn
    exact hne hkind
  · obtain ⟨m, hm⟩ := hcn.exists_node
    have hchild : m.label.kind.isOperand = true :=
      NodeKind.isOperand_of_allows (.inr hkind) (h.allows i d hd) _
        (List.mem_map_of_mem (mem_children hd hc hm))
    have hclosed (kind : NodeKind) (below : List NodeKind) (hP : kind.isOperand = true)
        (hallows : kind.Allows below) : ∀ k ∈ below, k.isOperand = true :=
      NodeKind.isOperand_of_allows (.inl hP) hallows
    have hoperand := hcn.of_closed (P := fun kind => kind.isOperand = true) h hclosed hm hchild hn
    exact absurd hoperand (Bool.eq_false_iff.mp hnot)

/-- A node that is a part, such as a condition or a parameter list, has no declaration below it. -/
theorem WellShaped.not_below_part (h : t.WellShaped) (hn : t.get? i = some n)
    (hpart : n.label.kind.isPart = true) (hd : t.get? j = some d)
    (hkind : d.label.kind = .variableDeclaration) : ¬ t.Below i j := by
  intro hbelow
  have hclosed (kind : NodeKind) (below : List NodeKind) (hP : kind.isPart = true)
      (hallows : kind.Allows below) : ∀ k ∈ below, k.isPart = true :=
    NodeKind.isPart_of_allows hP hallows
  have hparts := hbelow.of_closed (P := fun kind => kind.isPart = true) h hclosed hn hpart hd
  rw [hkind] at hparts
  exact absurd hparts Bool.false_ne_true

/-- **A node that may not stand below a declaration is around it or apart from it in the text.** -/
theorem SpansNest.around_or_apart (h : t.SpansNest) (horder : t.InPreOrder) (hshape : t.WellShaped)
    (hd : t.get? i = some d) (hkind : d.label.kind = .variableDeclaration) (hn : t.get? j = some n)
    (hne : n.label.kind ≠ .variableDeclaration) (hnot : n.label.kind.isOperand = false) :
    t.Below j i ∨ d.label.span.stop ≤ n.label.span.start ∨ n.label.span.stop ≤ d.label.span.start := by
  rcases Nat.le_total i j with hle | hle
  · rcases h.below_or_apart horder hd hn hle with hbelow | hapart | ⟨k, d', hd', hkind', -, hbelow⟩
    · exact absurd hbelow (hshape.not_below_declaration hd hkind hn hne hnot)
    · exact .inr (.inl hapart)
    · exact absurd hbelow (hshape.not_below_declaration hd' hkind' hn hne hnot)
  · rcases h.below_or_apart horder hn hd hle with hbelow | hapart | ⟨k, d', hd', hkind', hbelow, -⟩
    · exact .inl hbelow
    · exact .inr (.inr hapart)
    · exact absurd hbelow (hshape.not_below_declaration hd' hkind' hn hne hnot)

/-! ## The nearest block -/

/-- A block is above what belongs to it. -/
theorem BelongsTo.toBelow (h : t.BelongsTo i j) : t.Below j i := by
  induction h with
  | directly hn _ hin => exact .child (.self hn) hn hin
  | through hn _ hin _ ih => exact .child ih hn hin

/-- Any other block above it is above that block. -/
theorem BelongsTo.below_of_below {o : Outline} {b : Nat} (h : (ofOutline o).BelongsTo i j)
    (hn : (ofOutline o).get? b = some n) (hblock : n.label.kind.isBlock = true)
    (hbelow : (ofOutline o).Below b i) (hne : b ≠ i) : (ofOutline o).Below b j := by
  have hparent {above x : Nat} {m : Node} (hm : (ofOutline o).get? above = some m) (hx : x ∈ m.children)
      (hbx : (ofOutline o).Below b x) (hne : b ≠ x) : (ofOutline o).Below b above := by
    cases hbx with
    | self => exact absurd rfl hne
    | @child above' _ m' hbelow hm' hx' =>
      obtain ⟨hmem, rfl⟩ := get?_ofOutline_eq_some_iff.mp hm
      obtain ⟨hmem', rfl⟩ := get?_ofOutline_eq_some_iff.mp hm'
      rwa [Outline.eq_of_mem_children hmem hmem' hx hx']
  induction h with
  | directly hm _ hin => exact hparent hm hin hbelow hne
  | @through m _ above _ hm hkind hin _ ih =>
    refine ih (hparent hm hin hbelow hne) ?_
    rintro rfl
    rw [hn] at hm
    obtain rfl := Option.some.inj hm
    rw [hblock] at hkind
    exact Bool.noConfusion hkind

end Tree

/-! ## Trees that were read -/

namespace Program

variable {p : Program} {limit : Nat} {tokens : List Token} {source : String}

theorem exists_standsOver (h : read limit tokens = .ok p) : ∃ extent, p.tree.StandsOver tokens extent := by
  obtain ⟨extent, hroot, hfits, hapart⟩ := exists_fits h
  exact ⟨extent, standsOver_of_fits hroot hfits hapart⟩

theorem wellShaped (h : read limit tokens = .ok p) : p.tree.WellShaped :=
  Tree.wellShaped_ofOutline rfl (takenFrom_outline h).shaped

theorem spansNest (h : read limit (tokenize source).tokens = .ok p) : p.tree.SpansNest := by
  obtain ⟨extent, hover⟩ := exists_standsOver h
  exact spansNest_of_standsOver hover (tokenize_successive source) (read_tokens h)

/-- Every node but the root has some text. -/
theorem start_lt_stop (h : read limit (tokenize source).tokens = .ok p) {id : Nat} {n : Tree.Node}
    (hn : p.tree.get? id = some n) (hid : id ≠ Tree.root) : n.label.span.start < n.label.span.stop := by
  obtain ⟨extent, hover⟩ := exists_standsOver h
  have hs := tokenize_successive source
  obtain ⟨first, last, hfirst, hlast, -, -, hspan⟩ := bounds_of_standsOver hover hs hn hid
  have hle := hs.start_le hfirst hlast (hover.covers id n hn hid).1
  rw [hspan]
  exact hle.trans_lt (hs.start_lt_stop last (List.mem_of_getElem? hlast))

end Program

end BraceLang
