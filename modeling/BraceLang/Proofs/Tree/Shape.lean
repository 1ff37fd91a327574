import BraceLang.Proofs.Tree.Numbering

/-!
# `Proofs.Tree.Shape` — which nodes may stand below which

Each kind of node has its own children: a fixed row of them, or any number of nodes of some kinds. An
outline is **shaped** if that holds at each of its nodes, which is a matter of a node and the trees
right below it. `Tree.WellShaped` says the same in terms of what the tree answers.

## Contents
- `NodeKind.isStatement` and `NodeKind.Allows`.
- `Outline.Shaped` and `Tree.WellShaped`.
- `wellShaped_ofOutline`.
-/

namespace BraceLang

namespace NodeKind

/-- Whether the node is a statement. -/
def isStatement : NodeKind → Bool
  | .variableDeclaration | .ifStatement | .functionCall | .returnStatement | .forStatement
  | .whileStatement | .assignment => true
  | _ => false

/-- The rows of kinds that the children of a node may have. -/
def Allows : NodeKind → List NodeKind → Prop
  | .program, below => ∀ k ∈ below, k = .functionDeclaration
  | .functionDeclaration, below =>
    below = [.type, .identifier, .parameters] ∨
      below = [.type, .identifier, .parameters, .functionBody]
  | .parameters, below => ∀ k ∈ below, k = .parameter
  | .parameter, below => below = [.type, .identifier]
  | .functionBody, below | .ifBody, below | .elseBranch, below | .loopBody, below =>
    ∀ k ∈ below, k.isStatement = true
  | .variableDeclaration, below =>
    below = [.type, .identifier] ∨ below = [.type, .identifier, .expression]
  | .ifStatement, below => below = [.condition, .ifBody] ∨ below = [.condition, .ifBody, .elseBranch]
  | .forStatement, below | .whileStatement, below => below = [.condition, .loopBody]
  | .functionCall, below => below = [.identifier, .arguments]
  | .returnStatement, below => below = [] ∨ below = [.expression]
  | .assignment, below => below = [.identifier, .expression]
  | .arguments, below => ∀ k ∈ below, k = .leaf .string ∨ k = .leaf .number ∨ k = .leaf .identifier
  | .expression, below => below ≠ [] ∧ ∀ k ∈ below, k.isLeaf = true
  | .condition, below => ∀ k ∈ below, k.isLeaf = true
  | .type, below | .identifier, below | .leaf _, below => below = []

/-- Whether leaves may stand below the node. -/
def holdsLeaves : NodeKind → Bool
  | .condition | .expression | .arguments => true
  | _ => false

theorem not_isStatement_of_isLeaf {kind : NodeKind} (h : kind.isLeaf = true) :
    ¬ kind.isStatement = true := by
  cases kind with
  | leaf => exact Bool.false_ne_true
  | _ => exact absurd h Bool.false_ne_true

/-- A node below which a leaf may stand is a condition, an expression or an argument list. -/
theorem holdsLeaves_of_allows {kind leaf : NodeKind} {below : List NodeKind}
    (h : kind.Allows below) (hmem : leaf ∈ below) (hleaf : leaf.isLeaf = true) :
    kind.holdsLeaves = true := by
  -- Where the row is fixed, no entry of it is a leaf; where it is not, its entries are of one sort.
  cases kind with
  | condition | expression | arguments => rfl
  | program | parameters =>
    rw [h leaf hmem] at hleaf
    exact absurd hleaf Bool.false_ne_true
  | functionBody | ifBody | elseBranch | loopBody =>
    exact absurd (h leaf hmem) (not_isStatement_of_isLeaf hleaf)
  | type | identifier | leaf =>
    rw [show below = [] from h] at hmem
    exact absurd hmem List.not_mem_nil
  | functionDeclaration | variableDeclaration | ifStatement | returnStatement =>
    rcases h with rfl | rfl <;> simp only [List.mem_cons, List.not_mem_nil, or_false] at hmem <;>
      rcases hmem with rfl | rfl | rfl | rfl <;> exact absurd hleaf Bool.false_ne_true
  | parameter | forStatement | whileStatement | functionCall | assignment =>
    rw [show below = _ from h] at hmem
    simp only [List.mem_cons, List.not_mem_nil, or_false] at hmem
    rcases hmem with rfl | rfl <;> exact absurd hleaf Bool.false_ne_true

end NodeKind

namespace Outline

/-- Each node of the outline has the children that its kind allows. -/
def Shaped : Outline → Prop
  | .nil => True
  | .node l children siblings =>
    l.kind.Allows (children.roots.map Label.kind) ∧ Shaped children ∧ Shaped siblings

/-- A node stands at the top of an outline or below another node of it. -/
theorem mem_rootIds_or_exists_parent {o : Outline} {base : Nat} {n : Tree.Node}
    (h : n ∈ o.number base) : n.id ∈ o.rootIds base ∨ ∃ m ∈ o.number base, n.id ∈ m.children := by
  induction o generalizing base with
  | nil => exact absurd h List.not_mem_nil
  | node l c s ihc ihs =>
    rw [number] at h ⊢
    rw [rootIds]
    rcases List.mem_cons.mp h with rfl | hrest
    · exact Or.inl List.mem_cons_self
    · rcases List.mem_append.mp hrest with hc | hs
      · rcases ihc hc with htop | ⟨m, hm, hin⟩
        · exact Or.inr ⟨_, List.mem_cons_self, htop⟩
        · exact Or.inr ⟨m, List.mem_cons_of_mem _ (List.mem_append_left _ hm), hin⟩
      · rcases ihs hs with htop | ⟨m, hm, hin⟩
        · exact Or.inl (List.mem_cons_of_mem _ htop)
        · exact Or.inr ⟨m, List.mem_cons_of_mem _ (List.mem_append_right _ hm), hin⟩

end Outline

namespace Tree

variable {t : Tree} {base : Nat} {l : Label} {o children : Outline}

/-- The root is a program, each node has the children that its kind allows, and leaves only stand
    below conditions, expressions and argument lists. -/
structure WellShaped (t : Tree) : Prop where
  root : ∃ n, t.get? root = some n ∧ n.label.kind = .program
  exists_child : ∀ id n, t.get? id = some n → ∀ child ∈ n.children, (t.get? child).isSome = true
  allows : ∀ id n, t.get? id = some n → n.label.kind.Allows ((t.children id).map (·.label.kind))
  leaf : ∀ id n, t.get? id = some n → n.label.kind.isLeaf = true →
    ∃ above m, t.get? above = some m ∧ id ∈ m.children ∧ m.label.kind.holdsLeaves = true

/-- In a tree that holds a shaped outline, a node has the children that its kind allows. -/
theorem Holds.allows (h : t.Holds base o) (ho : o.Shaped) {n : Node} (hn : n ∈ o.number base) :
    (t.children n.id).map Node.id = n.children ∧
      n.label.kind.Allows ((t.children n.id).map (·.label.kind)) := by
  induction o generalizing base with
  | nil => exact absurd hn List.not_mem_nil
  | node l c s ihc ihs =>
    obtain ⟨hallows, hc, hs⟩ := ho
    rw [Outline.number] at hn
    rcases List.mem_cons.mp hn with rfl | hrest
    · dsimp only
      rw [h.children_eq]
      refine ⟨Outline.map_id_tops c _, ?_⟩
      rw [← Outline.map_label_tops c (base + 1), List.map_map] at hallows
      exact hallows
    · rcases List.mem_append.mp hrest with hin | hin
      · exact ihc h.below hc hin
      · exact ihs h.beside hs hin

/-- The children of a node are nodes of the tree. -/
theorem exists_mem_children (ho : o.Shaped) {id child : Nat} {n : Node}
    (hn : (ofOutline o).get? id = some n) (hchild : child ∈ n.children) :
    ∃ m ∈ (ofOutline o).children id, (ofOutline o).get? child = some m := by
  obtain ⟨hmem, rfl⟩ := get?_ofOutline_eq_some_iff.mp hn
  rw [← ((holds_ofOutline o).allows ho hmem).1] at hchild
  obtain ⟨m, hm, rfl⟩ := List.mem_map.mp hchild
  refine ⟨m, hm, ?_⟩
  rw [Tree.children, hn] at hm
  obtain ⟨_, -, hget⟩ := List.mem_filterMap.mp hm
  obtain ⟨hmem', -⟩ := get?_ofOutline_eq_some_iff.mp hget
  exact get?_ofOutline_eq_some_iff.mpr ⟨hmem', rfl⟩

/-- **The tree of a shaped outline is well-shaped.** -/
theorem wellShaped_ofOutline (hroot : l.kind = .program)
    (ho : Outline.Shaped (.single l children)) : (ofOutline (.single l children)).WellShaped := by
  have hholds := holds_ofOutline (.single l children)
  constructor
  · exact ⟨_, hholds.root, hroot⟩
  · intro id n hn child hchild
    obtain ⟨m, -, hget⟩ := exists_mem_children ho hn hchild
    rw [hget]
    rfl
  · intro id n hn
    obtain ⟨hmem, rfl⟩ := get?_ofOutline_eq_some_iff.mp hn
    exact (hholds.allows ho hmem).2
  · intro id n hn hleaf
    obtain ⟨hmem, rfl⟩ := get?_ofOutline_eq_some_iff.mp hn
    rcases Outline.mem_rootIds_or_exists_parent hmem with htop | ⟨m, hm, hin⟩
    · -- The one node at the top is the program.
      have hid : n.id = Tree.root := List.mem_singleton.mp htop
      rw [hid, show (ofOutline _).get? Tree.root = _ from hholds.root] at hn
      obtain rfl := Option.some.inj hn
      rw [hroot] at hleaf
      exact absurd hleaf Bool.false_ne_true
    · -- It stands in the row of kinds that its parent allows, and it is a leaf.
      have hparent := get?_ofOutline_eq_some_iff.mpr ⟨hm, rfl⟩
      obtain ⟨child, hchild, hget⟩ := exists_mem_children ho hparent hin
      obtain rfl := Option.some.inj (hget.symm.trans hn)
      refine ⟨m.id, m, hparent, hin, ?_⟩
      exact NodeKind.holdsLeaves_of_allows (hholds.allows ho hm).2
        (List.mem_map_of_mem (f := fun m : Node => m.label.kind) hchild) hleaf

end Tree

end BraceLang
