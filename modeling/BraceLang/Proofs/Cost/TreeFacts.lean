import BraceLang.Cost.TreeFacts
import BraceLang.Proofs.Tree.Functions
import BraceLang.Proofs.Tree.Parts

/-!
# `Proofs.Cost.TreeFacts` — the facts found in a tree are those of the program

The walk over the tree carries its findings along and counts the loops around a node on the way
down, while the facts about a program are added up from the facts about its parts. Both agree since
the greatest number of loops found so far is never below the number of loops around the place where
the walk is.

## Contents
- `Outline.visit` and `Holds.foldl_visit`: the walk, told from the outline.
- `Outline.visit_plain`, for nodes that are neither loops nor declarations.
- `Code.visit_outline` and `Code.any_labels`, the two walks over some code.
- **`Program.facts_tree`**.
-/

namespace BraceLang

open Cost

namespace Outline

/-- The facts with those about a node itself, when `depth` loops stand around it. -/
def ownFacts (depth : Nat) (facts : Facts) (l : Label) (children : Outline) : Facts :=
  if l.kind.isLoop then facts.addLoop (depth + 1)
  else if l.kind = .variableDeclaration then
    facts.addDeclaration (children.rootText .identifier) (children.rootText .type)
  else facts

/-- The number of loops around the children of a node around which `depth` loops stand. -/
def loopsBelow (depth : Nat) (l : Label) : Nat := if l.kind.isLoop then depth + 1 else depth

/-- The facts with those about an outline, when `depth` loops stand around it. -/
def visit (depth : Nat) (facts : Facts) : Outline → Facts
  | .nil => facts
  | .node l children siblings =>
    visit depth (visit (loopsBelow depth l) (ownFacts depth facts l children) children) siblings

end Outline

namespace Tree.Holds

variable {t : Tree} {base fuel : Nat} {l : Label} {o children siblings : Outline}

/-- The walk over a node, if the walk over its children is as the outline says. -/
theorem visit_eq (h : t.Holds base (.node l children siblings))
    (hbelow : ∀ depth facts, (children.rootIds (base + 1)).foldl (t.visit fuel depth) facts =
      children.visit depth facts) (depth : Nat) (facts : Facts) :
    t.visit (fuel + 1) depth facts base =
      children.visit (Outline.loopsBelow depth l) (Outline.ownFacts depth facts l children) := by
  rw [Tree.visit, h.root, Outline.loopsBelow, Outline.ownFacts, h.childText_eq, h.childText_eq]
  dsimp only
  split
  · exact hbelow _ _
  · split <;> exact hbelow _ _

/-- The walk over the trees at the top of a part. -/
theorem foldl_visit (h : t.Holds base o) (hfuel : o.size ≤ fuel) (depth : Nat) (facts : Facts) :
    (o.rootIds base).foldl (t.visit fuel depth) facts = o.visit depth facts := by
  induction o generalizing base fuel depth facts with
  | nil => rfl
  | node l c s ihc ihs =>
    rw [Forest.size] at hfuel
    have hhead : t.visit fuel depth facts base =
        Outline.visit (Outline.loopsBelow depth l) (Outline.ownFacts depth facts l c) c := by
      obtain ⟨fuel, rfl⟩ : ∃ k, fuel = k + 1 := ⟨fuel - 1, by omega⟩
      have hsize : c.size ≤ fuel := by omega
      exact h.visit_eq (fun depth facts => ihc h.below hsize depth facts) depth facts
    rw [Outline.rootIds, List.foldl_cons, hhead, ihs h.beside (by omega), Outline.visit]

end Tree.Holds

/-! ## Nodes that do not count -/

/-- Whether nodes of a kind contribute to the facts: loops, declarations and calls do. -/
def NodeKind.counts (kind : NodeKind) : Bool :=
  kind.isLoop || kind == .variableDeclaration || kind == .functionCall

theorem NodeKind.counts_of_isPart {kind : NodeKind} (h : kind.isPart = true) :
    kind.counts = false := by
  cases kind <;> first | rfl | nomatch h

namespace Outline

variable {l : Label} {o children siblings : Outline}

theorem visit_append (o more : Outline) (depth : Nat) (facts : Facts) :
    visit depth facts (o ++ more) = visit depth (visit depth facts o) more := by
  induction o generalizing facts with
  | nil => rfl
  | node l c s _ ihs => rw [Forest.node_append, visit, visit, ihs]

/-- A node that does not count leaves the facts to the nodes below it. -/
theorem visit_node_of_not_counts (h : l.kind.counts = false) (depth : Nat) (facts : Facts) :
    visit depth facts (.node l children siblings) =
      visit depth (visit depth facts children) siblings := by
  simp only [NodeKind.counts, Bool.or_eq_false_iff, beq_eq_false_iff_ne] at h
  rw [visit, loopsBelow, ownFacts, h.1.1]
  simp only [Bool.false_eq_true, if_false, if_neg h.1.2]

/-- Nodes that do not count change nothing. -/
theorem visit_plain (h : ∀ l ∈ o.labels, l.kind.counts = false) (depth : Nat) (facts : Facts) :
    visit depth facts o = facts := by
  induction o generalizing facts with
  | nil => rfl
  | node l c s ihc ihs =>
    rw [Forest.labels_node] at h
    rw [visit_node_of_not_counts (h l List.mem_cons_self),
      ihc fun m hm => h m (List.mem_cons_of_mem _ (List.mem_append_left _ hm)),
      ihs fun m hm => h m (List.mem_cons_of_mem _ (List.mem_append_right _ hm))]

theorem not_counts_leaves {tokens : List Token} :
    ∀ l ∈ (leaves tokens).labels, l.kind.counts = false :=
  fun l hl => NodeKind.counts_of_isPart (isPart_leaves tokens l hl)

end Outline

/-- No node below a statement without a block counts. -/
theorem Simple.not_counts_parts (s : Simple) : ∀ l ∈ s.parts.labels, l.kind.counts = false :=
  fun l hl => NodeKind.counts_of_isPart (s.isPart_parts l hl)

theorem Function.not_counts_startOutline (f : Function) :
    ∀ l ∈ f.startOutline.labels, l.kind.counts = false :=
  fun l hl => NodeKind.counts_of_isPart (f.isPart_startOutline l hl)

/-! ## The walks over code -/

/-- The name and the type of each variable that some code declares. -/
def Code.declared (c : Code) : List (String × String) := c.simples.filterMap Simple.declared?

namespace Code

variable {h : Header} {body other rest : Code} {closing otherClosing : Option Token}

theorem declared_simple (s : Simple) (rest : Code) :
    (simple s rest).declared = s.declared?.toList ++ rest.declared := by
  rw [declared, simples, List.filterMap_cons]
  cases s.declared? <;> rfl

theorem declared_loop {kind : LoopKind} :
    (loop kind h body closing rest).declared = body.declared ++ rest.declared :=
  List.filterMap_append

theorem declared_ifThen :
    (ifThen h body closing rest).declared = body.declared ++ rest.declared :=
  List.filterMap_append

theorem declared_ifThenElse {e : ElseHead} :
    (ifThenElse h body closing e other otherClosing rest).declared =
      body.declared ++ (other.declared ++ rest.declared) := by
  rw [declared, simples, List.filterMap_append, List.filterMap_append]
  rfl

end Code

namespace Cost.Facts

/-- The facts with `loops` more loops, at most `depth` of them around one another, and with the
    declarations `declared`. -/
def extend (facts : Facts) (loops depth : Nat) (declared : List (String × String)) : Facts :=
  { facts with
    loopCount := facts.loopCount + loops
    loopDepth := max facts.loopDepth depth
    declarationCount := facts.declarationCount + declared.length
    arrays := facts.arrays ++ declared.filter fun (_, type) => isArrayType type }

theorem extend_extend (facts : Facts) (loops more depth deeper : Nat)
    (declared others : List (String × String)) :
    (facts.extend loops depth declared).extend more deeper others =
      facts.extend (loops + more) (max depth deeper) (declared ++ others) := by
  simp only [extend, Nat.add_assoc, Nat.max_assoc, List.length_append, List.filter_append,
    List.append_assoc]

theorem extend_nothing {facts : Facts} {depth : Nat} (h : depth ≤ facts.loopDepth) :
    facts.extend 0 depth [] = facts := by
  rw [extend, Nat.max_eq_left h]
  simp only [Nat.add_zero, List.length_nil, List.filter_nil, List.append_nil]

theorem addLoop_eq (facts : Facts) (depth : Nat) : facts.addLoop depth = facts.extend 1 depth [] := by
  simp only [addLoop, extend, List.length_nil, Nat.add_zero, List.filter_nil, List.append_nil]

theorem addDeclaration_eq (facts : Facts) (name type : String) :
    facts.addDeclaration name type = facts.extend 0 0 [(name, type)] := by
  simp only [addDeclaration, extend, Nat.add_zero, Nat.max_zero, List.length_singleton,
    List.filter_cons, List.filter_nil]
  split <;> simp only [List.append_nil]

/-- The facts with those about some code, when `depth` loops stand around it. -/
def addCode (facts : Facts) (depth : Nat) (c : Code) : Facts :=
  facts.extend c.loopCount (depth + c.loopDepth) c.declared

theorem le_loopDepth_extend {facts : Facts} {depth : Nat} (h : depth ≤ facts.loopDepth)
    (loops deeper : Nat) (declared : List (String × String)) :
    depth ≤ (facts.extend loops deeper declared).loopDepth :=
  Nat.le_trans h (Nat.le_max_left _ _)

end Cost.Facts

/-- A statement without a block counts if it is a declaration. -/
theorem Simple.visit_node (s : Simple) (siblings : Outline) (depth : Nat) (facts : Facts) :
    Outline.visit depth facts (.node s.label s.parts siblings) =
      siblings.visit depth (facts.extend 0 0 s.declared?.toList) := by
  have hparts := fun depth facts => Outline.visit_plain s.not_counts_parts depth facts
  rw [Outline.visit, hparts]
  cases s with
  | declaration type name suffix initializer semicolon =>
    exact congrArg (fun facts => siblings.visit depth facts) (Facts.addDeclaration_eq _ _ _)
  | _ =>
    exact congrArg (fun facts => siblings.visit depth facts)
      (Facts.extend_nothing (Nat.zero_le _)).symm

/-- The condition of a header does not count. -/
theorem Header.visit_node (h : Header) (blocks : Outline) (depth : Nat) (facts : Facts) :
    Outline.visit depth facts (.node h.conditionLabel (Outline.leaves h.condition) blocks) =
      blocks.visit depth facts := by
  rw [Outline.visit_node_of_not_counts rfl, Outline.visit_plain Outline.not_counts_leaves]

/-- The walk over some code adds up the facts about it, if no more loops stand around the code than
    have been found around one place before. -/
theorem Code.visit_outline (c : Code) (depth : Nat) (facts : Facts)
    (hdepth : depth ≤ facts.loopDepth) : c.outline.visit depth facts = facts.addCode depth c := by
  induction c generalizing depth facts with
  | done => exact (Facts.extend_nothing hdepth).symm
  | skip _ rest ih => exact ih depth facts hdepth
  | simple s rest ih =>
    rw [outline, s.visit_node, ih depth _ (Facts.le_loopDepth_extend hdepth _ _ _), Facts.addCode,
      Facts.extend_extend, Facts.addCode, declared_simple, loopCount, loopDepth, Nat.zero_add,
      Nat.zero_max]
  | loop kind h body closing rest ihb ih =>
    have hloop : kind.nodeKind.isLoop = true := by cases kind <;> rfl
    have hin : depth + 1 ≤ (facts.extend 1 (depth + 1) []).loopDepth := Nat.le_max_right _ _
    have hout := Facts.le_loopDepth_extend (Nat.le_of_succ_le hin) body.loopCount
      (depth + 1 + body.loopDepth) body.declared
    rw [outline, Outline.visit, Outline.loopsBelow, Outline.ownFacts]
    simp only [Label.covering, hloop, if_true]
    rw [h.visit_node, Forest.single, Outline.visit_node_of_not_counts rfl, Outline.visit,
      Facts.addLoop_eq, ihb _ _ hin, Facts.addCode, ih _ _ hout, Facts.addCode,
      Facts.extend_extend, Facts.extend_extend, Facts.addCode, declared_loop, loopCount, loopDepth,
      List.nil_append]
    congr 1 <;> omega
  | ifThen h body closing rest ihb ih =>
    have hout := Facts.le_loopDepth_extend hdepth body.loopCount (depth + body.loopDepth)
      body.declared
    rw [outline, Outline.visit_node_of_not_counts rfl, h.visit_node, Forest.single,
      Outline.visit_node_of_not_counts rfl, Outline.visit, ihb _ _ hdepth, Facts.addCode,
      ih _ _ hout, Facts.addCode, Facts.extend_extend, Facts.addCode, declared_ifThen, loopCount,
      loopDepth, Nat.add_max_add_left]
  | ifThenElse h body closing e other otherClosing rest ihb iho ih =>
    have hmiddle := Facts.le_loopDepth_extend hdepth body.loopCount (depth + body.loopDepth)
      body.declared
    have hout := Facts.le_loopDepth_extend hmiddle other.loopCount (depth + other.loopDepth)
      other.declared
    rw [outline, Outline.visit_node_of_not_counts rfl, h.visit_node, Forest.single,
      Outline.visit_node_of_not_counts rfl, Outline.visit_node_of_not_counts rfl, Outline.visit,
      ihb _ _ hdepth, Facts.addCode, iho _ _ hmiddle, Facts.addCode, ih _ _ hout, Facts.addCode,
      Facts.extend_extend, Facts.extend_extend, Facts.addCode, declared_ifThenElse, loopCount,
      loopDepth, Nat.add_max_add_left, Nat.add_max_add_left, Nat.add_assoc, Nat.max_assoc]

/-! ## Calls -/

/-- Whether a label is that of a call of the function with a name. -/
def Label.isCallOf (name : String) (l : Label) : Bool :=
  l.kind == .functionCall && l.text == name

/-- A node that does not count is no call. -/
theorem any_isCallOf_plain {labels : List Label} (h : ∀ l ∈ labels, l.kind.counts = false)
    (name : String) : labels.any (Label.isCallOf name) = false := by
  rw [List.any_eq_false]
  intro l hl
  have hkind := h l hl
  simp only [NodeKind.counts, Bool.or_eq_false_iff] at hkind
  rw [Label.isCallOf, hkind.2]
  exact Bool.false_ne_true

/-- A statement without a block is a call if it names a called function. -/
theorem Simple.isCallOf_label (s : Simple) (name : String) :
    s.label.isCallOf name = (s.callee? == some name) := by
  cases s <;> rfl

theorem any_labels_node {l : Label} {children siblings : Outline} {name : String}
    (hl : l.isCallOf name = false) :
    (Forest.node l children siblings).labels.any (Label.isCallOf name) =
      (children.labels.any (Label.isCallOf name) || siblings.labels.any (Label.isCallOf name)) := by
  rw [Forest.labels_node, List.any_cons, List.any_append, hl, Bool.false_or]

/-- The calls in some code are the statements that name a called function. -/
theorem Code.any_labels (c : Code) (name : String) :
    c.outline.labels.any (Label.isCallOf name) = c.simples.any fun s => s.callee? == some name := by
  have hleaves : ∀ h : Header, (Outline.leaves h.condition).labels.any (Label.isCallOf name) = false :=
    fun h => any_isCallOf_plain Outline.not_counts_leaves name
  induction c with
  | done => rfl
  | skip _ rest ih => exact ih
  | simple s rest ih =>
    rw [outline, Forest.labels_node, List.any_cons, List.any_append, s.isCallOf_label,
      any_isCallOf_plain s.not_counts_parts, ih, Bool.false_or, simples, List.any_cons]
  | loop kind h body closing rest ihb ih =>
    have hl : Label.isCallOf name (.covering kind.nodeKind none h.keyword
        (blockLast h.brace body closing)) = false := by cases kind <;> rfl
    rw [outline, any_labels_node hl, any_labels_node rfl, hleaves, Forest.single,
      any_labels_node rfl, Forest.labels_nil, List.any_nil, Bool.or_false, Bool.false_or, ihb, ih,
      simples, List.any_append]
  | ifThen h body closing rest ihb ih =>
    rw [outline, any_labels_node rfl, any_labels_node rfl, hleaves, Forest.single,
      any_labels_node rfl, Forest.labels_nil, List.any_nil, Bool.or_false, Bool.false_or, ihb, ih,
      simples, List.any_append]
  | ifThenElse h body closing e other otherClosing rest ihb iho ih =>
    rw [outline, any_labels_node rfl, any_labels_node rfl, hleaves, any_labels_node rfl,
      Forest.single, any_labels_node rfl, Forest.labels_nil, List.any_nil, Bool.or_false,
      Bool.false_or, ihb, iho, ih, simples, List.any_append, List.any_append, Bool.or_assoc]

/-- A function calls itself if some call below its node bears its name. -/
theorem Tree.Holds.callsItself_eq {t : Tree} {id : Nat} {f : Function} {more : Outline}
    (h : t.Holds id (f.outline ++ more)) : t.callsItself (f.node id) = f.callsItself := by
  have hlabels : t.callsItself (f.node id) =
      (f.label :: (f.startOutline ++ f.bodyOutline).labels).any (Label.isCallOf f.name.text) := by
    show (t.descendants id).any _ = _
    rw [Tree.Holds.descendants_eq h, List.any_cons, List.any_cons,
      ← Outline.map_label_number _ (id + 1), List.any_map]
    rfl
  rw [hlabels, List.any_cons, Forest.labels_append, List.any_append,
    any_isCallOf_plain f.not_counts_startOutline, Function.callsItself, Function.bodyOutline,
    Function.simples]
  cases f.body with
  | none => rfl
  | some b =>
    show (_ || (_ || (Forest.node _ b.code.outline .nil).labels.any _)) = _
    rw [any_labels_node rfl, b.code.any_labels, Forest.labels_nil, List.any_nil, Bool.or_false]
    rfl

/-! ## The facts about a program -/

/-- The facts with those about the body of a function. -/
def Cost.Facts.addBody (facts : Facts) (body : Option Block) : Facts :=
  match body with
  | none => facts
  | some b => facts.addCode 0 b.code

/-- The walk over a function adds up the facts about its body. -/
theorem Function.visit_outline (f : Function) (siblings : Outline) (facts : Facts) :
    Outline.visit 0 facts (f.outline ++ siblings) = siblings.visit 0 (facts.addBody f.body) := by
  have hstart := Outline.visit_plain f.not_counts_startOutline 0 facts
  have hbody : f.bodyOutline.visit 0 facts = facts.addBody f.body := by
    rw [Function.bodyOutline]
    cases f.body with
    | none => rfl
    | some b =>
      show Outline.visit 0 facts (.node _ b.code.outline .nil) = _
      rw [Outline.visit_node_of_not_counts rfl, b.code.visit_outline 0 facts (Nat.zero_le _)]
      rfl
  rw [Outline.visit_append, f.outline_eq, Forest.single, Outline.visit_node_of_not_counts rfl,
    Outline.visit_append, hstart, hbody, Outline.visit]

namespace Program

/-- The code of the bodies of some functions. -/
def bodies (fs : List Function) : List Code := fs.filterMap fun f => f.body.map Block.code

/-- The walk over some functions adds up the facts about their bodies. -/
theorem visit_functions (fs : List Function) (facts : Facts) :
    Outline.visit 0 facts (fs.foldr (fun f rest => f.outline ++ rest) .nil) =
      { facts with
        loopCount := ((bodies fs).map Code.loopCount).foldl (· + ·) facts.loopCount
        loopDepth := ((bodies fs).map Code.loopDepth).foldl max facts.loopDepth
        declarationCount := facts.declarationCount +
          ((fs.flatMap Function.simples).filterMap Simple.declared?).length
        arrays := facts.arrays ++ ((fs.flatMap Function.simples).filterMap Simple.declared?).filter
          fun (_, type) => Facts.isArrayType type } := by
  induction fs generalizing facts with
  | nil => simp [Outline.visit, bodies]
  | cons f fs ih =>
    rw [List.foldr_cons, f.visit_outline, ih, bodies, bodies, List.filterMap_cons,
      List.flatMap_cons, List.filterMap_append, Function.simples]
    cases f.body with
    | none => rfl
    | some b =>
      simp only [Facts.addBody, Facts.addCode, Facts.extend, Code.declared, Option.map_some,
        List.map_cons, List.foldl_cons, List.length_append, List.filter_append, List.append_assoc,
        Nat.add_assoc, Nat.zero_add]

/-- **The facts found in the tree of a program are those of the program.** -/
theorem facts_tree (p : Program) : p.tree.facts = Facts.ofProgram p := by
  have hroot : p.tree.Holds 0 p.outline := Tree.holds_ofOutline p.outline
  have hvisit := hroot.foldl_visit hroot.size_le 0 Facts.nothing
  rw [outline, Forest.single, Outline.visit_node_of_not_counts rfl, visit_functions] at hvisit
  have hcalls : ∀ d ∈ p.numberedFunctions, p.tree.callsItself (d.2.node d.1) = d.2.callsItself := by
    rintro ⟨id, f⟩ hf
    obtain ⟨more, hheld⟩ := p.tree_holds_functions.function hf
    exact hheld.callsItself_eq
  have hrecursive : (p.tree.functions.filter p.tree.callsItself).map (·.label.text) =
      (p.functions.filter Function.callsItself).map (·.name.text) := by
    rw [p.functions_tree, ← p.map_snd_numberedFunctions, List.filter_map, List.map_map,
      List.filter_map, List.map_map]
    exact congrArg _ (List.filter_congr hcalls)
  have hwalk : p.tree.visit p.tree.size 0 Facts.nothing Tree.root = _ := hvisit
  rw [Tree.facts, hrecursive, hwalk, Facts.ofProgram]
  simp only [Outline.visit, Facts.nothing, Nat.zero_add, List.nil_append, bodies]

end Program

end BraceLang
