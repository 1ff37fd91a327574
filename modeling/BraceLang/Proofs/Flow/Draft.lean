import BraceLang.Flow.Builder
import BraceLang.Proofs.Tree.Functions
import BraceLang.Proofs.Tree.Leaves
import BraceLang.Proofs.Tree.Walk

/-!
# `Proofs.Flow.Draft` — what a step in building a graph does

The steps of a builder change a draft and may fail. `Gives m before a after` says that a step does
not fail from one draft and leads to another. The drafts are written as lists, where the nodes of a
part of the code stand one after the other, so that a change of a node is a change in the middle of
an append.

A builder asks the syntax tree for the text of each statement. In a tree that holds the statement it
is the text that `Simple.station` and `Header.station` have.

## Contents
- `Flow.Gives`, with `bind` and one lemma for each kind of step.
- `Simple.HasValue` and `Code.HasValues`: no initializer is empty, as in every program that was read.
- `Holds.gives_pushSimple` and `Holds.gives_pushHeader`, the node of a statement.
- `Holds.loopBlock`, `Holds.ifThenBlock` and `Holds.ifThenElseBlocks`, the numbers of its blocks.
- `Holds.functionBody`: a builder never runs out of fuel before the end of a body.
-/

namespace BraceLang

namespace Flow

/-- The draft with a row of nodes. -/
def Draft.ofNodes (nodes : List Node) (returns : List Nat) : Draft := ⟨nodes.toArray, returns⟩

/-- From the draft `before` the step `m` does not fail: it gives `a` and leaves the draft `after`. -/
def Gives {α : Type} (m : Build α) (before : Draft) (a : α) (after : Draft) : Prop :=
  m.run before = .ok (a, after)

variable {α β : Type} {m : Build α} {f : α → Build β} {a : α} {b : β} {d d' d'' : Draft}
  {nodes more : List Node} {returns : List Nat} {v : Node}

theorem Gives.bind (hm : Gives m d a d') (hf : Gives (f a) d' b d'') : Gives (m >>= f) d b d'' := by
  rw [Gives, StateT.run_bind, hm]
  exact hf

theorem gives_pure (a : α) (d : Draft) : Gives (pure a) d a d := rfl

theorem gives_lift {x : Except Failure α} (h : x = .ok a) (d : Draft) :
    Gives (liftM x) d a d := by
  rw [h]
  rfl

theorem gives_get (d : Draft) : Gives get d d d := rfl

/-- A new node stands behind all others. -/
theorem gives_push (station : Station) (nodes : List Node) (returns : List Nat) :
    Gives (push station) (.ofNodes nodes returns) nodes.length
      (.ofNodes (nodes ++ [⟨station, []⟩]) returns) := by
  show Except.ok (nodes.toArray.size, Draft.mk (nodes.toArray.push ⟨station, []⟩) returns) = _
  rw [List.size_toArray, List.push_toArray]
  rfl

theorem gives_modifyNode (id : Nat) (change : Node → Node) (nodes : List Node)
    (returns : List Nat) :
    Gives (modifyNode id change) (.ofNodes nodes returns) ()
      (.ofNodes (nodes.modify id change) returns) := by
  show Except.ok ((), Draft.mk (nodes.toArray.modify id change) returns) = _
  rw [List.modify_toArray]
  rfl

theorem modify_append_cons (nodes more : List Node) (v : Node) (change : Node → Node) :
    (nodes ++ v :: more).modify nodes.length change = nodes ++ change v :: more := by
  induction nodes with
  | nil => rfl
  | cons w nodes ih => rw [List.cons_append, List.length_cons, List.modify_succ_cons, ih]; rfl

/-- Linking a node in the middle of a row. -/
theorem gives_addEdge {id : Nat} (hid : nodes.length = id) (target : Nat) (v : Node)
    (more : List Node) (returns : List Nat) :
    Gives (addEdge id target) (.ofNodes (nodes ++ v :: more) returns) ()
      (.ofNodes (nodes ++ ⟨v.station, v.successors ++ [target]⟩ :: more) returns) := by
  subst hid
  have hlink := gives_modifyNode nodes.length (·.addSuccessor target) (nodes ++ v :: more) returns
  rw [modify_append_cons] at hlink
  exact hlink

theorem modify_append_of_lt {id : Nat} (h : id < nodes.length) (more : List Node)
    (change : Node → Node) : (nodes ++ more).modify id change = nodes.modify id change ++ more := by
  induction nodes generalizing id with
  | nil => exact absurd h (Nat.not_lt_zero id)
  | cons w nodes ih =>
    cases id with
    | zero => rfl
    | succ id =>
      rw [List.cons_append, List.modify_succ_cons, ih (Nat.lt_of_succ_lt_succ h),
        List.modify_succ_cons, List.cons_append]

end Flow

/-! ## The node of a statement -/

/-- The initializer of a declaration is not empty. -/
def Simple.HasValue : Simple → Prop
  | .declaration _ _ _ initializer _ => ∀ i ∈ initializer, i.value ≠ []
  | _ => True

/-- No initializer of a declaration in some code is empty. -/
def Code.HasValues : Code → Prop
  | .done => True
  | .skip _ rest => rest.HasValues
  | .simple s rest => s.HasValue ∧ rest.HasValues
  | .loop _ _ body _ rest | .ifThen _ body _ rest => body.HasValues ∧ rest.HasValues
  | .ifThenElse _ body _ _ other _ rest => body.HasValues ∧ other.HasValues ∧ rest.HasValues

namespace Tree.Holds

open BraceLang.Flow

variable {t : Tree} {base : Nat} {l : Label} {siblings : Outline} {tokens : List Token}

/-- The text of the expression below a statement that ends with it. -/
theorem expression?_eq (before : Outline)
    (h : t.Holds base (.node l (before ++ Outline.expression tokens) siblings))
    (hbefore : before.rootOfKind? .expression = none) :
    (t.childOfKind? base .expression).map (fun e => t.leafText e.id) =
      if tokens.isEmpty then none else some (joinTexts tokens) := by
  have hnone : (before.tops (base + 1)).find? (·.label.kind == .expression) = none := by
    rw [Outline.rootOfKind?, ← Outline.map_label_tops before (base + 1), List.find?_map,
      Option.map_eq_none_iff] at hbefore
    exact hbefore
  rw [h.childOfKind?_eq, Outline.tops_append, List.find?_append, hnone, Option.none_or]
  cases tokens with
  | nil => rfl
  | cons first rest =>
    have hexpression := (h.below.append).2
    exact congrArg some (hexpression.leafText_leaves rfl)

/-- The text of a statement without a block. -/
theorem statementLabel_eq {s : Simple} {ids : List Nat} (hs : s.HasValue)
    (h : t.Holds base (.node s.label s.parts siblings)) :
    t.statementLabel ⟨base, s.label, ids⟩ = s.flowLabel := by
  cases s with
  | declaration type name suffix initializer semicolon =>
    have hvalue := expression?_eq (.node _ .nil (.node _ .nil .nil)) h rfl
    have htype : t.childText base .type = Simple.typeText type suffix := h.childText_eq .type
    have hname : t.childText base .identifier = name.text := h.childText_eq .identifier
    rw [Tree.statementLabel]
    simp only [hvalue, htype, hname, Simple.label, Label.covering]
    cases initializer with
    | none => rfl
    | some i =>
      have hvalue : i.value.isEmpty = false := List.isEmpty_eq_false_iff.mpr (hs i rfl)
      simp only [Option.map_some, Option.getD_some, hvalue]
      rfl
  | call name opening arguments closing semicolon =>
    have hnode : t.childOfKind? base .arguments =
        some ⟨base + 2, .covering .arguments none opening closing,
          (Outline.leaves (Simple.argumentTokens arguments)).rootIds (base + 3)⟩ := by
      rw [h.childOfKind?_eq]
      rfl
    have htexts : (t.children (base + 2)).map (·.label.text) =
        (Simple.argumentTokens arguments).map (·.text) :=
      (congrArg _ h.below.beside.children_eq).trans (Outline.map_text_tops_leaves _ _)
    rw [Tree.statementLabel]
    simp only [hnode, Option.map_some, Option.getD_some, htexts, Simple.label, Label.covering]
    rfl
  | ret keyword value semicolon =>
    have hvalue := expression?_eq .nil h rfl
    rw [Tree.statementLabel]
    simp only [hvalue, Simple.label, Label.covering]
    cases value <;> rfl
  | assignment target operator value semicolon =>
    have hvalue := expression?_eq (.node _ .nil .nil) h rfl
    have htarget : t.childText base .identifier = target.text := h.childText_eq .identifier
    rw [Tree.statementLabel]
    simp only [hvalue, htarget, Simple.label, Label.covering]
    cases value <;> rfl

/-- The node of a statement without a block. -/
theorem gives_pushSimple {s : Simple} (hs : s.HasValue)
    (h : t.Holds base (.node s.label s.parts siblings)) (ids : List Nat) (nodes : List Flow.Node)
    (returns : List Nat) :
    Gives (t.pushSimple ⟨base, s.label, ids⟩) (.ofNodes nodes returns) nodes.length
      (.ofNodes (nodes ++ [⟨s.station base, []⟩]) returns) := by
  have hstation : (⟨Tree.simpleKind s.label.kind, none, t.statementLabel ⟨base, s.label, ids⟩,
      some base⟩ : Station) = s.station base := by
    rw [h.statementLabel_eq hs]
    cases s <;> rfl
  rw [Tree.pushSimple, hstation]
  exact gives_push _ nodes returns

/-- The node of a statement with blocks. -/
theorem gives_pushHeader {hd : Header} {blocks : Outline} (kind : Flow.Kind) (keyword : String)
    (h : t.Holds base
      (.node l (.node hd.conditionLabel (Outline.leaves hd.condition) blocks) siblings))
    (ids : List Nat) (nodes : List Flow.Node) (returns : List Nat) :
    Gives (t.pushHeader kind keyword ⟨base, l, ids⟩) (.ofNodes nodes returns) nodes.length
      (.ofNodes (nodes ++ [⟨hd.station kind keyword base, []⟩]) returns) := by
  have hcondition : (t.childOfKind? base .condition).map (fun c => t.leafText c.id) =
      some (joinTexts hd.condition) := by
    rw [h.childOfKind?_eq]
    exact congrArg some (h.below.leafText_leaves rfl)
  rw [Tree.pushHeader]
  simp only [hcondition, Option.getD_some]
  exact gives_push _ nodes returns

/-! ## The blocks of a statement -/

section Blocks

variable {hd : Header} {body other c : Code} {closing otherClosing : Option Token} {e : ElseHead}

theorem loopBlock {kind : LoopKind} (h : t.Holds base (Code.loop kind hd body closing c).outline) :
    (t.childOfKind? base .loopBody).map Node.id = some (base + 2 + hd.condition.length) := by
  obtain ⟨-, -, conditionIds, hchildren⟩ := h.oneBlock
  rw [childOfKind?, hchildren]
  rfl

theorem ifThenBlock (h : t.Holds base (Code.ifThen hd body closing c).outline) :
    (t.childOfKind? base .ifBody).map Node.id = some (base + 2 + hd.condition.length) ∧
      t.childOfKind? base .elseBranch = none := by
  obtain ⟨-, -, conditionIds, hchildren⟩ := h.oneBlock
  rw [childOfKind?, childOfKind?, hchildren]
  exact ⟨rfl, rfl⟩

theorem ifThenElseBlocks
    (h : t.Holds base (Code.ifThenElse hd body closing e other otherClosing c).outline) :
    (t.childOfKind? base .ifBody).map Node.id = some (base + 2 + hd.condition.length) ∧
      (t.childOfKind? base .elseBranch).map Node.id =
        some (base + 3 + hd.condition.length + body.nodeCount) := by
  obtain ⟨-, -, -, conditionIds, hchildren⟩ := h.twoBlocks
  rw [childOfKind?, childOfKind?, hchildren, Code.size_outline]
  exact ⟨rfl, rfl⟩

end Blocks

/-! ## The body of a function -/

/-- A function has neither a body nor code, or its body stands behind its parameters, and the code of
    it has fewer nodes than the tree. -/
theorem functionBody {id : Nat} {f : Function} {more : Outline} (h : t.Holds id (f.outline ++ more)) :
    (f.body = none ∧ f.code = .done) ∨ ∃ b fuel, f.body = some b ∧
      t.Holds (id + 1 + f.startOutline.size) (.node (.covering .functionBody none b.brace b.last)
        f.code.outline .nil) ∧ t.size = fuel + 1 ∧ f.code.nodeCount ≤ fuel := by
  have hin := (h.below.append).2
  rw [Function.code]
  cases hb : f.body with
  | none => exact .inl ⟨rfl, rfl⟩
  | some b =>
    rw [hb] at hin
    have hbody : t.Holds (id + 1 + f.startOutline.size) b.outline := hin
    have hsize : 1 + b.code.outline.size + 0 ≤ t.size := hbody.size_le
    rw [Code.size_outline] at hsize
    exact .inr ⟨b, t.size - 1, rfl, hbody, by omega, show b.code.nodeCount ≤ _ by omega⟩

end Tree.Holds

end BraceLang
