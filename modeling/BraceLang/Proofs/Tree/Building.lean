import BraceLang.Program.TreeBuilder
import BraceLang.Proofs.Tree.Functions

/-!
# `Proofs.Tree.Building` — the tree that is built is the tree of the program

A step of the builder leads from one table to another. Tables are written as lists here: what is built
for a part of the program stands behind all other nodes, and a node that has children added is in the
middle, with the nodes below it behind. `Builds m o` says that `m` builds the one tree of the outline
`o`, and `Adds f o` that `f` adds all of its trees to a node.

## Contents
- `Tree.LeadsTo`, `Tree.Builds` and `Tree.Adds`, with one lemma for each way to put steps together.
- `Code.adds_build` and so on, one for each part of a program.
- **`Program.build_eq_tree`**.
-/

namespace BraceLang

namespace Tree

/-- From the nodes `before` the step `m` gives `a` and leaves the nodes `after`. -/
def LeadsTo {α : Type} (m : Grow α) (before : List Node) (a : α) (after : List Node) : Prop :=
  m.run before.toArray = (a, after.toArray)

/-- The step builds the one tree of the outline behind all other nodes. -/
def Builds (m : Grow Nat) (o : Outline) : Prop :=
  ∀ before, LeadsTo m before before.length (before ++ o.number before.length)

/-- The step adds the trees of the outline to a node, behind the children that it has; the nodes
    themselves come behind those that are below it. -/
def Adds (f : Nat → Grow Unit) (o : Outline) : Prop :=
  ∀ before id l ids below, before.length = id →
    LeadsTo (f id) (before ++ ⟨id, l, ids⟩ :: below) ()
      (before ++ ⟨id, l, ids ++ o.rootIds (id + 1 + below.length)⟩ ::
        (below ++ o.number (id + 1 + below.length)))

variable {α β : Type} {m : Grow α} {f : α → Grow β} {a : α} {b : β} {s s' s'' : List Node}

theorem LeadsTo.bind (hm : LeadsTo m s a s') (hf : LeadsTo (f a) s' b s'') :
    LeadsTo (m >>= f) s b s'' := by
  rw [LeadsTo, StateT.run_bind, hm]
  exact hf

theorem leadsTo_pure (a : α) (s : List Node) : LeadsTo (pure a) s a s := rfl

theorem leadsTo_alloc (kind : NodeKind) (value : Option String) (start : Position) (span : Span)
    (s : List Node) : LeadsTo (alloc kind value start span) s s.length
      (s ++ [⟨s.length, ⟨kind, value, start, start, span⟩, []⟩]) := by
  show (s.toArray.size, s.toArray.push _) = _
  rw [List.size_toArray, List.push_toArray]

/-- Changing a node in the middle. -/
theorem leadsTo_changeNode {before : List Node} {id : Nat} (h : before.length = id)
    (change : Node → Node) (n : Node) (below : List Node) :
    LeadsTo (changeNode id change) (before ++ n :: below) () (before ++ change n :: below) := by
  subst h
  have hmodify : (before ++ n :: below).modify before.length change =
      before ++ change n :: below := by
    rw [List.modify_eq_set_getElem?]
    simp
  show ((), (before ++ n :: below).toArray.modify before.length change) = _
  rw [List.modify_toArray, hmodify]

/-! ## Putting steps together -/

section Steps

variable {f g : Nat → Grow Unit} {m : Grow Nat} {o more children : Outline} {l : Label}
  {kind : NodeKind} {value : Option String}

theorem adds_nothing : Adds (fun _ => pure ()) .nil := by
  intro before id l ids below _
  show LeadsTo _ _ _ (before ++ ⟨id, l, ids ++ []⟩ :: (below ++ []))
  rw [List.append_nil, List.append_nil]
  exact leadsTo_pure () _

theorem Adds.append (hf : Adds f o) (hg : Adds g more) :
    Adds (fun id => do f id; g id) (o ++ more) := by
  intro before id l ids below hid
  -- the second step finds the trees of the first among the nodes below
  have hfirst := hf before id l ids below hid
  have hsecond := hg before id l (ids ++ o.rootIds (id + 1 + below.length))
    (below ++ o.number (id + 1 + below.length)) hid
  rw [List.length_append, Outline.length_number, ← Nat.add_assoc, List.append_assoc,
    List.append_assoc, ← Outline.rootIds_append, ← Outline.number_append] at hsecond
  exact hfirst.bind hsecond

/-- A node is built and then listed as a child. -/
theorem Builds.adds (h : Builds m (.single l children)) :
    Adds (addChild m) (.single l children) := by
  intro before id l' ids below hid
  -- the new node stands behind all others, and then its parent in the middle is changed
  have hbuild := h (before ++ ⟨id, l', ids⟩ :: below)
  have hlength : (before ++ (⟨id, l', ids⟩ : Node) :: below).length = id + 1 + below.length := by
    rw [List.length_append, List.length_cons]
    omega
  rw [hlength, List.append_assoc, List.cons_append] at hbuild
  exact hbuild.bind (leadsTo_changeNode hid _ _ _)

/-- A node is added, then what is below it, and then its end is set. -/
theorem builds_node {start stop : Position} {span : Span} {byte : Nat} (h : Adds f children) :
    Builds (buildNode kind value start span stop byte f)
      (.single ⟨kind, value, start, stop, ⟨span.start, max byte span.start⟩⟩ children) := by
  intro before
  have hbelow := h before before.length ⟨kind, value, start, start, span⟩ [] [] rfl
  have hclose : LeadsTo (close before.length stop byte)
      (before ++ ⟨before.length, ⟨kind, value, start, start, span⟩,
        children.rootIds (before.length + 1)⟩ :: children.number (before.length + 1)) ()
      (before ++ ⟨before.length, ⟨kind, value, start, stop, ⟨span.start, max byte span.start⟩⟩,
        children.rootIds (before.length + 1)⟩ :: children.number (before.length + 1)) :=
    leadsTo_changeNode rfl _ _ _
  rw [Forest.single, Outline.number, Outline.number, List.append_nil]
  exact (leadsTo_alloc _ _ _ _ _).bind (hbelow.bind (hclose.bind (leadsTo_pure _ _)))

theorem builds_over {first last : Token} (h : Adds f children) :
    Builds (buildOver kind value first last f)
      (.single (.covering kind value first last) children) :=
  builds_node h

theorem builds_token (kind : NodeKind) (t : Token) :
    Builds (buildToken kind t) (.single (.ofToken kind t) .nil) :=
  builds_over adds_nothing

theorem adds_leaves (run : List Token) : Adds (addLeaves run) (Outline.leaves run) := by
  induction run with
  | nil => exact adds_nothing
  | cons t run ih => exact (builds_token _ t).adds.append ih

theorem adds_expression (run : List Token) : Adds (addExpression run) (Outline.expression run) := by
  cases run with
  | nil => exact adds_nothing
  | cons first rest => exact (builds_over (adds_leaves _)).adds

end Steps

end Tree

/-! ## The parts of a program -/

open BraceLang.Tree

/-- A statement without a block. -/
theorem Simple.builds_build (s : Simple) : Builds s.build (.single s.label s.parts) := by
  cases s with
  | declaration type name suffix initializer semicolon =>
    exact builds_over ((builds_over adds_nothing).adds.append
      ((builds_token _ _).adds.append (adds_expression _)))
  | call name opening arguments closing semicolon =>
    exact builds_over ((builds_token _ _).adds.append (builds_over (adds_leaves _)).adds)
  | ret keyword value semicolon => exact builds_over (adds_expression value)
  | assignment target operator value semicolon =>
    exact builds_over ((builds_token _ _).adds.append (adds_expression value))

theorem Header.builds_buildCondition (h : Header) :
    Builds h.buildCondition (.single h.conditionLabel (Outline.leaves h.condition)) :=
  builds_over (adds_leaves h.condition)

/-- The statements of a block. -/
theorem Code.adds_build (c : Code) : Adds c.build c.outline := by
  induction c with
  | done => exact adds_nothing
  | skip t rest ih => exact ih
  | simple s rest ih => exact s.builds_build.adds.append ih
  | loop kind h body closing rest ihb ih | ifThen h body closing rest ihb ih =>
    exact (builds_over (h.builds_buildCondition.adds.append (builds_over ihb).adds)).adds.append ih
  | ifThenElse h body closing e other otherClosing rest ihb iho ih =>
    exact (builds_over (h.builds_buildCondition.adds.append
      ((builds_over ihb).adds.append (builds_over iho).adds))).adds.append ih

namespace Function

theorem adds_buildItems (items : List ParameterItem) :
    Adds (ParameterList.buildItems items)
      (items.foldr (fun i rest => i.outline ++ rest) .nil) := by
  induction items with
  | nil => exact adds_nothing
  | cons i items ih =>
    cases i with
    | parameter type name =>
      exact (builds_over ((builds_token _ _).adds.append (builds_token _ _).adds)).adds.append ih
    | skipped t => exact ih

theorem adds_buildBody (f : Function) : Adds (buildBody f.body) f.bodyOutline := by
  obtain ⟨type, name, parameters, body, semicolon⟩ := f
  cases body with
  | none => exact adds_nothing
  | some b => exact (builds_over b.code.adds_build).adds

theorem builds_build (f : Function) : Builds f.build f.outline :=
  builds_over ((builds_token _ _).adds.append ((builds_token _ _).adds.append
    ((builds_over (adds_buildItems _)).adds.append f.adds_buildBody)))

end Function

namespace Program

theorem adds_buildItems (items : List ProgramItem) : Adds (buildItems items)
    ((mk items).functions.foldr (fun f rest => f.outline ++ rest) .nil) := by
  induction items with
  | nil => exact adds_nothing
  | cons i items ih =>
    cases i with
    | function f => exact f.builds_build.adds.append ih
    | skipped t => exact ih

/-- **The tree that is built is the tree of the program.** -/
theorem build_eq_tree (p : Program) : p.build = p.tree := by
  have hroot : Builds p.buildRoot p.outline := by
    have hnode : Builds p.buildRoot (.single _ _) := builds_node (adds_buildItems p.items)
    rw [Nat.max_zero] at hnode
    exact hnode
  have hstart : p.buildRoot.run #[] = (0, (p.outline.number 0).toArray) := hroot []
  rw [build, hstart]
  rfl

end Program

end BraceLang
