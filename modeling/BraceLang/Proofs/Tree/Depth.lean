import Mathlib.Order.Bounds.Defs
import BraceLang.Proofs.Tree.Numbering

/-!
# `Proofs.Tree.Depth` — how many blocks stand around one another

Whether a program nests too deeply is decided while it is read, but it is a property of its syntax
tree: the number of blocks on the way from the root to a node. `Tree.AtDepth` counts along the
edges of the tree. The outline of the tree lists the same numbers in pre-order, and there they can be
followed while the outline is built.

## Contents
- `NodeKind.isBlock`, `Tree.AtDepth`, `Tree.HasDepth` and `Tree.FirstBlockAt`.
- `Outline.nested`, the nodes of an outline with their depths, and `Outline.depth`, the greatest,
  with `depth_node`, `depth_block` and `depth_append`.
- `Outline.firstBeyond?`, the first block that has too many others around it.
- `atDepth_iff_mem_nested`, `hasDepth_ofOutline` and `firstBlockAt_ofOutline`.
-/

namespace BraceLang

namespace NodeKind

/-- Whether the node is a block. The `else` branch that holds another `if` is one. -/
def isBlock : NodeKind → Bool
  | .functionBody | .ifBody | .elseBranch | .loopBody => true
  | _ => false

/-- The depth of a node of the kind, if its parent has the depth `around`. -/
def depthBelow (around : Nat) (kind : NodeKind) : Nat :=
  if kind.isBlock then around + 1 else around

theorem depthBelow_of_isBlock {kind : NodeKind} (h : kind.isBlock = true) (around : Nat) :
    kind.depthBelow around = around + 1 :=
  if_pos h

theorem depthBelow_of_not_isBlock {kind : NodeKind} (h : kind.isBlock = false) (around : Nat) :
    kind.depthBelow around = around := by
  rw [depthBelow, h]
  exact if_neg Bool.false_ne_true

theorem around_le_depthBelow (around : Nat) (kind : NodeKind) :
    around ≤ kind.depthBelow around := by
  rw [depthBelow]
  split
  · exact Nat.le_succ _
  · exact Nat.le_refl _

end NodeKind

namespace Tree

/-- On the path from the root to the node `id`, both of them included, there are `depth` blocks. -/
inductive AtDepth (t : Tree) : Nat → Nat → Prop
  | root {n : Node} (hn : t.get? Tree.root = some n) :
    AtDepth t Tree.root (n.label.kind.depthBelow 0)
  | child {id depth : Nat} {n m : Node} (hid : AtDepth t id depth) (hn : t.get? id = some n)
      (hchild : m.id ∈ n.children) (hm : t.get? m.id = some m) :
      AtDepth t m.id (m.label.kind.depthBelow depth)

/-- The greatest number of blocks on a path from the root is `depth`. -/
def HasDepth (t : Tree) (depth : Nat) : Prop := IsGreatest {d | ∃ id, t.AtDepth id d} depth

/-- Of all blocks with exactly `depth` blocks on the path to them, the block `n` has the least
    number. -/
def FirstBlockAt (t : Tree) (depth : Nat) (n : Node) : Prop :=
  t.get? n.id = some n ∧
    IsLeast {id | t.AtDepth id depth ∧ ∃ m, t.get? id = some m ∧ m.label.kind.isBlock = true} n.id

end Tree

namespace Outline

/-- The nodes of an outline in pre-order, each with its depth, if the outline is numbered from `base`
    and `around` blocks stand around it. -/
def nested (base around : Nat) : Outline → List (Tree.Node × Nat)
  | .nil => []
  | .node l children siblings =>
    (⟨base, l, rootIds (base + 1) children⟩, l.kind.depthBelow around) ::
      (nested (base + 1) (l.kind.depthBelow around) children ++
        nested (base + 1 + children.size) around siblings)

/-- The greatest depth in an outline with `around` blocks around it. -/
def depth (around : Nat) : Outline → Nat
  | .nil => around
  | .node l children siblings =>
    max (depth (l.kind.depthBelow around) children) (depth around siblings)

/-- The node is a block with more than `limit` blocks on the path to it. -/
def isBeyond (limit : Nat) (n : Tree.Node × Nat) : Bool :=
  n.1.label.kind.isBlock && n.2 == limit + 1

/-- The first block with more than `limit` blocks on the path to it, if `around` blocks stand around
    the outline. -/
def firstBeyond? (limit around : Nat) : Outline → Option Label
  | .nil => none
  | .node l children siblings =>
    if l.kind.isBlock && around == limit then some l
    else (firstBeyond? limit (l.kind.depthBelow around) children).or
      (firstBeyond? limit around siblings)

variable {o more children siblings : Outline} {l : Label} {base limit around : Nat}

/-! ## The list of depths -/

theorem map_fst_nested (o : Outline) (base around : Nat) :
    (o.nested base around).map Prod.fst = o.number base := by
  induction o generalizing base around with
  | nil => rfl
  | node l c s ihc ihs =>
    rw [nested, number, List.map_cons, List.map_append, ihc, ihs]

theorem mem_number_of_mem_nested {n : Tree.Node} {d : Nat} (h : (n, d) ∈ o.nested base around) :
    n ∈ o.number base := by
  rw [← map_fst_nested o base around]
  exact List.mem_map_of_mem h

/-- The nodes at the top of an outline are in the list. -/
theorem exists_mem_nested_of_mem_rootIds (around : Nat) {id : Nat} (h : id ∈ o.rootIds base) :
    ∃ n : Tree.Node, n.id = id ∧ (n, n.label.kind.depthBelow around) ∈ o.nested base around := by
  induction o generalizing base with
  | nil => exact absurd h List.not_mem_nil
  | node l c s _ ihs =>
    rw [rootIds] at h
    rcases List.mem_cons.mp h with rfl | hs
    · exact ⟨_, rfl, List.mem_cons_self⟩
    · obtain ⟨n, hid, hn⟩ := ihs hs
      exact ⟨n, hid, List.mem_cons_of_mem _ (List.mem_append_right _ hn)⟩

/-- With a node, its children are in the list. -/
theorem exists_mem_nested_of_mem_children {n : Tree.Node} {d id : Nat}
    (hn : (n, d) ∈ o.nested base around) (hid : id ∈ n.children) :
    ∃ m : Tree.Node, m.id = id ∧ (m, m.label.kind.depthBelow d) ∈ o.nested base around := by
  induction o generalizing base around with
  | nil => exact absurd hn List.not_mem_nil
  | node l c s ihc ihs =>
    rw [nested] at hn ⊢
    rcases List.mem_cons.mp hn with heq | hrest
    · obtain ⟨rfl, rfl⟩ := Prod.mk.inj heq
      obtain ⟨m, hm, hmem⟩ :=
        exists_mem_nested_of_mem_rootIds (l.kind.depthBelow around) hid
      exact ⟨m, hm, List.mem_cons_of_mem _ (List.mem_append_left _ hmem)⟩
    · rcases List.mem_append.mp hrest with hc | hs
      · obtain ⟨m, hm, hmem⟩ := ihc hc
        exact ⟨m, hm, List.mem_cons_of_mem _ (List.mem_append_left _ hmem)⟩
      · obtain ⟨m, hm, hmem⟩ := ihs hs
        exact ⟨m, hm, List.mem_cons_of_mem _ (List.mem_append_right _ hmem)⟩

/-! ## The greatest depth -/

theorem around_le_depth (o : Outline) (around : Nat) : around ≤ o.depth around := by
  induction o generalizing around with
  | nil => exact Nat.le_refl _
  | node l c s _ ihs => exact Nat.le_trans (ihs around) (Nat.le_max_right _ _)

/-- One more block around an outline makes everything in it one deeper. -/
theorem depth_succ (o : Outline) (around : Nat) : o.depth (around + 1) = o.depth around + 1 := by
  induction o generalizing around with
  | nil => rfl
  | node l c s ihc ihs =>
    have hbelow : l.kind.depthBelow (around + 1) = l.kind.depthBelow around + 1 := by
      rw [NodeKind.depthBelow, NodeKind.depthBelow]
      split <;> rfl
    rw [depth, depth, hbelow, ihc, ihs, Nat.succ_max_succ]

theorem depth_node (h : l.kind.isBlock = false) (around : Nat) :
    depth around (.node l children siblings) =
      max (depth around children) (depth around siblings) := by
  rw [depth, NodeKind.depthBelow_of_not_isBlock h]

theorem depth_block (h : l.kind.isBlock = true) (around : Nat) :
    depth around (.node l children siblings) =
      max (depth (around + 1) children) (depth around siblings) := by
  rw [depth, NodeKind.depthBelow_of_isBlock h]

theorem depth_append (o more : Outline) (around : Nat) :
    (o ++ more).depth around = max (o.depth around) (more.depth around) := by
  induction o with
  | nil => exact (Nat.max_eq_right (around_le_depth more around)).symm
  | node l c s _ ihs => rw [Forest.node_append, depth, depth, ihs, Nat.max_assoc]

/-- A node without children does not count if it is no block. -/
theorem depth_plain (h : l.kind.isBlock = false) (around : Nat) :
    depth around (.node l .nil siblings) = depth around siblings := by
  rw [depth_node h]
  exact Nat.max_eq_right (around_le_depth siblings around)

/-- A node that stands alone and is no block is as deep as what is below it. -/
theorem depth_single (h : l.kind.isBlock = false) (around : Nat) :
    depth around (.single l children) = depth around children := by
  rw [Forest.single, depth_node h]
  exact Nat.max_eq_left (around_le_depth children around)

/-- Nodes without children do not count if none of them is a block. -/
theorem depth_ofLabels {labels : List Label} (h : ∀ l ∈ labels, l.kind.isBlock = false)
    (around : Nat) : depth around (.ofLabels labels) = around := by
  induction labels with
  | nil => rfl
  | cons l labels ih =>
    rw [Forest.ofLabels, depth_plain (h l List.mem_cons_self),
      ih fun m hm => h m (List.mem_cons_of_mem l hm)]

/-- No node of the list is deeper than the outline. -/
theorem le_depth_of_mem_nested {n : Tree.Node} {d : Nat} (h : (n, d) ∈ o.nested base around) :
    d ≤ o.depth around := by
  induction o generalizing base around with
  | nil => exact absurd h List.not_mem_nil
  | node l c s ihc ihs =>
    rw [nested] at h
    rw [depth]
    rcases List.mem_cons.mp h with heq | hrest
    · obtain ⟨-, rfl⟩ := Prod.mk.inj heq
      exact Nat.le_trans (around_le_depth c _) (Nat.le_max_left _ _)
    · rcases List.mem_append.mp hrest with hc | hs
      · exact Nat.le_trans (ihc hc) (Nat.le_max_left _ _)
      · exact Nat.le_trans (ihs hs) (Nat.le_max_right _ _)

/-- Some node of an outline has the depth of the outline. -/
theorem exists_mem_nested_depth (h : o ≠ .nil) (base around : Nat) :
    ∃ n, (n, o.depth around) ∈ o.nested base around := by
  induction o generalizing base around with
  | nil => exact absurd rfl h
  | node l c s ihc ihs =>
    rw [depth, nested]
    -- The deeper of the two sides has such a node. If it has no nodes at all, it is the children,
    -- and then the node itself is as deep.
    by_cases hlt : depth (l.kind.depthBelow around) c < depth around s
    · have hs : s ≠ .nil := by
        rintro rfl
        have hc := around_le_depth c (l.kind.depthBelow around)
        have hbelow := l.kind.around_le_depthBelow around
        rw [depth] at hlt
        omega
      obtain ⟨n, hn⟩ := ihs hs (base + 1 + c.size) around
      rw [Nat.max_eq_right (Nat.le_of_lt hlt)]
      exact ⟨n, List.mem_cons_of_mem _ (List.mem_append_right _ hn)⟩
    · rw [Nat.max_eq_left (Nat.le_of_not_lt hlt)]
      by_cases hc : c = .nil
      · subst hc
        exact ⟨_, List.mem_cons_self⟩
      · obtain ⟨n, hn⟩ := ihc hc (base + 1) (l.kind.depthBelow around)
        exact ⟨n, List.mem_cons_of_mem _ (List.mem_append_left _ hn)⟩

theorem depth_leaves (tokens : List Token) (around : Nat) :
    depth around (leaves tokens) = around := by
  apply depth_ofLabels
  intro l hl
  obtain ⟨t, -, rfl⟩ := List.mem_map.mp hl
  rfl

theorem depth_expression (tokens : List Token) (around : Nat) :
    depth around (expression tokens) = around := by
  cases tokens with
  | nil => rfl
  | cons t tokens => rw [expression, depth_single rfl, depth_leaves]

/-! ## The first block beyond a limit -/

theorem firstBeyond?_node (h : l.kind.isBlock = false) :
    firstBeyond? limit around (.node l children siblings) =
      (children.firstBeyond? limit around).or (siblings.firstBeyond? limit around) := by
  rw [firstBeyond?, NodeKind.depthBelow_of_not_isBlock h, h, Bool.false_and,
    if_neg Bool.false_ne_true]

theorem firstBeyond?_block (h : l.kind.isBlock = true) :
    firstBeyond? limit around (.node l children siblings) =
      if around = limit then some l
      else (children.firstBeyond? limit (around + 1)).or (siblings.firstBeyond? limit around) := by
  rw [firstBeyond?, NodeKind.depthBelow_of_isBlock h, h, Bool.true_and]
  by_cases hlimit : around = limit
  · rw [if_pos (beq_iff_eq.mpr hlimit), if_pos hlimit]
  · rw [if_neg (by rw [beq_iff_eq]; exact hlimit), if_neg hlimit]

theorem firstBeyond?_append (o more : Outline) (limit around : Nat) :
    (o ++ more).firstBeyond? limit around =
      (o.firstBeyond? limit around).or (more.firstBeyond? limit around) := by
  induction o with
  | nil => rfl
  | node l c s _ ihs =>
    rw [Forest.node_append, firstBeyond?, firstBeyond?, ihs]
    by_cases h : (l.kind.isBlock && around == limit) = true
    · rw [if_pos h, if_pos h]
      rfl
    · rw [if_neg h, if_neg h, Option.or_assoc]

/-- No block is beyond a limit that the depth of the outline does not exceed. -/
theorem firstBeyond?_eq_none (h : o.depth around ≤ limit) :
    o.firstBeyond? limit around = none := by
  induction o generalizing around with
  | nil => rfl
  | node l c s ihc ihs =>
    rw [depth] at h
    rw [firstBeyond?, ihc (Nat.le_trans (Nat.le_max_left _ _) h),
      ihs (Nat.le_trans (Nat.le_max_right _ _) h)]
    rw [if_neg]
    · rfl
    · rw [Bool.and_eq_true, beq_iff_eq]
      rintro ⟨hblock, rfl⟩
      have hbelow := around_le_depth c (l.kind.depthBelow around)
      rw [NodeKind.depthBelow_of_isBlock hblock] at hbelow h
      omega

/-- The first block beyond a limit that the depth of the outline exceeds is the first one in the list
    that is one deeper than the limit. -/
theorem firstBeyond?_eq_find? (h : around ≤ limit) (base : Nat) :
    o.firstBeyond? limit around =
      ((o.nested base around).find? (isBeyond limit)).map fun n => n.1.label := by
  induction o generalizing base around with
  | nil => rfl
  | node l c s ihc ihs =>
    rw [firstBeyond?, nested, List.find?_cons, List.find?_append]
    by_cases hblock : l.kind.isBlock = true
    · by_cases hlimit : around = limit
      · subst hlimit
        rw [hblock, NodeKind.depthBelow_of_isBlock hblock]
        simp [isBeyond, hblock]
      · have hbelow : around + 1 ≤ limit := by omega
        rw [NodeKind.depthBelow_of_isBlock hblock, ihc hbelow (base + 1),
          ihs h (base + 1 + c.size)]
        have hne : isBeyond limit (⟨base, l, rootIds (base + 1) c⟩, around + 1) = false := by
          simp [isBeyond, hlimit]
        rw [hne, if_neg (by simpa [hblock] using hlimit), Option.map_or]
    · rw [NodeKind.depthBelow_of_not_isBlock (Bool.eq_false_iff.mpr hblock), ihc h (base + 1),
        ihs h (base + 1 + c.size)]
      have hne : isBeyond limit (⟨base, l, rootIds (base + 1) c⟩, around) = false := by
        simp [isBeyond, hblock]
      rw [hne, if_neg (by simp [hblock]), Option.map_or]

/-- A limit that the depth of the outline exceeds leaves some block beyond it. -/
theorem isSome_firstBeyond? (hle : around ≤ limit) (h : limit < o.depth around) :
    (o.firstBeyond? limit around).isSome = true := by
  induction o generalizing around with
  | nil => exact absurd h (Nat.not_lt.mpr hle)
  | node l c s ihc ihs =>
    rw [depth] at h
    rw [firstBeyond?]
    -- Depths grow by one at a block, so the limit is not passed without a block right at it.
    by_cases hblock : (l.kind.isBlock && around == limit) = true
    · rw [if_pos hblock]
      rfl
    · rw [if_neg hblock, Option.isSome_or, Bool.or_eq_true]
      rcases Nat.lt_or_ge limit (depth (l.kind.depthBelow around) c) with hc | hc
      · refine Or.inl (ihc ?_ hc)
        rw [NodeKind.depthBelow]
        split
        · next hkind =>
          rw [hkind, Bool.true_and, beq_iff_eq] at hblock
          omega
        · exact hle
      · exact Or.inr (ihs hle (by omega))

end Outline

/-! ## Parts of a program without blocks -/

theorem LoopKind.isBlock_nodeKind (kind : LoopKind) : kind.nodeKind.isBlock = false := by
  cases kind <;> rfl

theorem Simple.isBlock_label (x : Simple) : x.label.kind.isBlock = false := by
  cases x <;> rfl

/-- No part of a statement without a block is one. -/
theorem Simple.depth_parts (x : Simple) (around : Nat) : x.parts.depth around = around := by
  cases x with
  | declaration type name suffix initializer semicolon =>
    rw [parts, Outline.depth_plain rfl, Outline.depth_plain rfl, Outline.depth_expression]
  | call name opening arguments closing semicolon =>
    rw [parts, Outline.depth_plain rfl, Outline.depth_single rfl, Outline.depth_leaves]
  | ret keyword value semicolon => exact Outline.depth_expression value around
  | assignment target operator value semicolon =>
    rw [parts, Outline.depth_plain rfl, Outline.depth_expression]

theorem ParameterItem.depth_outline (i : ParameterItem) (around : Nat) :
    i.outline.depth around = around := by
  cases i with
  | parameter type name =>
    rw [outline, Outline.depth_single rfl, Outline.depth_plain rfl, Outline.depth_single rfl]
    rfl
  | skipped => rfl

/-- No part of a function before its body is a block. -/
theorem Function.depth_startOutline (f : Function) (around : Nat) :
    f.startOutline.depth around = around := by
  rw [startOutline, Outline.depth_plain rfl, Outline.depth_plain rfl, ParameterList.outline,
    Outline.depth_single rfl]
  induction f.parameters.items with
  | nil => rfl
  | cons i items ih =>
    rw [List.foldr_cons, Outline.depth_append, i.depth_outline, ih, Nat.max_self]

/-! ## The same in the tree -/

namespace Tree

variable {t : Tree} {base around : Nat} {l : Label} {o children : Outline}

/-- The depths in the list are depths in the tree, if they are for the nodes at the top. -/
theorem Holds.atDepth_of_mem_nested (h : t.Holds base o)
    (htops : ∀ n ∈ o.tops base, t.AtDepth n.id (n.label.kind.depthBelow around)) {n : Node} {d : Nat}
    (hn : (n, d) ∈ o.nested base around) : t.AtDepth n.id d := by
  induction o generalizing base around with
  | nil => exact absurd hn List.not_mem_nil
  | node l c s ihc ihs =>
    rw [Outline.nested] at hn
    rw [Outline.tops] at htops
    have hroot := htops _ List.mem_cons_self
    rcases List.mem_cons.mp hn with heq | hrest
    · obtain ⟨rfl, rfl⟩ := Prod.mk.inj heq
      exact hroot
    · rcases List.mem_append.mp hrest with hc | hs
      · refine ihc h.below ?_ hc
        intro m hm
        rw [← h.below.filterMap_get?, List.mem_filterMap] at hm
        obtain ⟨id, hid, hget⟩ := hm
        obtain ⟨m', hm', hmem⟩ :=
          Outline.exists_mem_nested_of_mem_rootIds (l.kind.depthBelow around) hid
        have hget' := h.below.get?_of_mem_number (Outline.mem_number_of_mem_nested hmem)
        rw [hm', hget] at hget'
        obtain rfl := Option.some.inj hget'
        rw [← hm'] at hid hget
        exact .child hroot h.root hid hget
      · exact ihs h.beside (fun m hm => htops m (List.mem_cons_of_mem _ hm)) hs

/-- A number has a depth in the tree if and only if it has that depth in the outline. -/
theorem atDepth_iff_mem_nested {id d : Nat} :
    (ofOutline (.single l children)).AtDepth id d ↔
      ∃ n : Node, n.id = id ∧ (n, d) ∈ Outline.nested 0 0 (.single l children) := by
  have hholds := holds_ofOutline (.single l children)
  constructor
  · intro h
    induction h with
    | root hn =>
      rw [show (ofOutline _).get? root = _ from hholds.root] at hn
      obtain rfl := Option.some.inj hn
      exact ⟨_, rfl, List.mem_cons_self⟩
    | child _ hn hchild hm ih =>
      obtain ⟨n', hid, hmem⟩ := ih
      have hget := hholds.get?_of_mem_number (Outline.mem_number_of_mem_nested hmem)
      rw [hid, hn] at hget
      obtain rfl := Option.some.inj hget
      obtain ⟨m', hid', hmem'⟩ := Outline.exists_mem_nested_of_mem_children hmem hchild
      have hget' := hholds.get?_of_mem_number (Outline.mem_number_of_mem_nested hmem')
      rw [hid', hm] at hget'
      obtain rfl := Option.some.inj hget'
      exact ⟨_, rfl, hmem'⟩
  · rintro ⟨n, rfl, hmem⟩
    refine hholds.atDepth_of_mem_nested ?_ hmem
    intro m hm
    obtain rfl := List.mem_singleton.mp hm
    exact .root hholds.root

/-- The depth of a tree is the depth of its outline. -/
theorem hasDepth_ofOutline (l : Label) (children : Outline) :
    (ofOutline (.single l children)).HasDepth (Outline.depth 0 (.single l children)) := by
  constructor
  · have hne : Forest.single l children ≠ .nil := by
      intro h
      exact absurd h (by simp [Forest.single])
    obtain ⟨n, hn⟩ := Outline.exists_mem_nested_depth hne 0 0
    exact ⟨n.id, atDepth_iff_mem_nested.mpr ⟨n, rfl, hn⟩⟩
  · rintro d ⟨id, hid⟩
    obtain ⟨n, -, hn⟩ := atDepth_iff_mem_nested.mp hid
    exact Outline.le_depth_of_mem_nested hn

/-- The first block of an outline beyond a limit is the block of its tree with the least number among
    those one deeper than the limit. -/
theorem firstBlockAt_ofOutline {limit : Nat} {block : Label}
    (h : Outline.firstBeyond? limit 0 (.single l children) = some block) :
    ∃ n, (ofOutline (.single l children)).FirstBlockAt (limit + 1) n ∧ n.label = block := by
  have hholds := holds_ofOutline (.single l children)
  rw [Outline.firstBeyond?_eq_find? (Nat.zero_le _) 0, Option.map_eq_some_iff] at h
  obtain ⟨⟨n, d⟩, hfind, rfl⟩ := h
  have hbeyond := List.find?_some hfind
  rw [Outline.isBeyond, Bool.and_eq_true, beq_iff_eq] at hbeyond
  obtain ⟨hblock, rfl⟩ := hbeyond
  have hmem := List.mem_of_find?_eq_some hfind
  have hget := hholds.get?_of_mem_number (Outline.mem_number_of_mem_nested hmem)
  refine ⟨n, ⟨hget, ⟨atDepth_iff_mem_nested.mpr ⟨n, rfl, hmem⟩, n, hget, hblock⟩, ?_⟩, rfl⟩
  rintro id ⟨hid, m, hm, hmblock⟩
  obtain ⟨m', rfl, hmem'⟩ := atDepth_iff_mem_nested.mp hid
  have hget' := hholds.get?_of_mem_number (Outline.mem_number_of_mem_nested hmem')
  rw [hm] at hget'
  obtain rfl := Option.some.inj hget'
  -- Whatever stands before the block in the list is no block of its depth.
  obtain ⟨-, before, after, hsplit, hbefore⟩ := List.find?_eq_some_iff_append.mp hfind
  rw [hsplit] at hmem'
  rcases List.mem_append.mp hmem' with hin | hin
  · exact absurd (hbefore _ hin) (by simp [Outline.isBeyond, hmblock])
  · rcases List.mem_cons.mp hin with heq | hafter
    · obtain ⟨rfl, -⟩ := Prod.mk.inj heq
      exact Nat.le_refl _
    · have hpairwise := Outline.pairwise_number (.single l children) 0
      rw [← Outline.map_fst_nested _ 0 0, hsplit, List.map_append, List.map_cons] at hpairwise
      have hlater := (List.pairwise_append.mp hpairwise).2.1
      exact Nat.le_of_lt ((List.pairwise_cons.mp hlater).1 m (List.mem_map_of_mem hafter))

end Tree

end BraceLang
