import BraceLang.Cost.Estimate
import BraceLang.Proofs.Cost.TreeFacts
import BraceLang.Proofs.Reading.Wrapping

/-!
# `Proofs.Cost.Growth` — the estimate of a text that grows

The facts about a program are added up from those about its functions, so those about a closed text and
another one behind it are the facts about both taken together. A loop around the contents of a body is one
loop more, and it stands around the deepest loops of this body. In both cases no fact gets smaller, and a
class is the greater the greater the facts are.

## Contents
- `Facts.timeClass_mono` and `Facts.spaceClass_mono`, with `Facts.EstimatedWithin`.
- `Facts.beside`, with `Facts.ofProgram_append` and `Facts.timeClass_beside`.
- `Facts.ofProgram_inLoop`.
- `Program.facts_append` and `Program.facts_inLoop`, and **`Program.estimate_grows`**.
-/

namespace BraceLang

open Cost

namespace Cost.Facts

variable {f g : Facts}

/-! ## Greater facts -/

/-- The class of the time, told from whether there are loops in loops, and loops at all. -/
def classOfLoops (nested loops : Bool) : Class :=
  if nested then .quadratic else if loops then .linear else .constant

/-- The class of the space, told from whether there are arrays, and many variables. -/
def classOfStorage (arrays many : Bool) : Class :=
  if arrays then .linear else if many then .logarithmic else .constant

theorem timeClass_eq (f : Facts) : f.timeClass = classOfLoops f.hasNestedLoops f.hasLoops := rfl

theorem spaceClass_eq (f : Facts) (threshold : Nat) :
    f.spaceClass threshold = classOfStorage f.hasArrays (decide (threshold < f.declarationCount)) := by
  simp only [spaceClass, classOfStorage, decide_eq_true_eq]

/-- More loops, deeper ones or both: the class of the time is no smaller. -/
theorem timeClass_mono (hcount : f.loopCount ≤ g.loopCount) (hdepth : f.loopDepth ≤ g.loopDepth) :
    f.timeClass ≤ g.timeClass := by
  have hclass : ∀ nested nested' loops loops' : Bool, (nested → nested') → (loops → loops') →
      classOfLoops nested loops ≤ classOfLoops nested' loops' := by decide
  rw [timeClass_eq, timeClass_eq]
  refine hclass _ _ _ _ (fun hnested => ?_) (fun hloops => ?_)
  · rw [hasNestedLoops, decide_eq_true_eq] at hnested ⊢
    exact Nat.le_trans hnested hdepth
  · rw [hasLoops, decide_eq_true_eq] at hloops ⊢
    exact Nat.lt_of_lt_of_le hloops hcount

/-- More variables, or arrays where there were none: the class of the space is no smaller. -/
theorem spaceClass_mono (harrays : f.hasArrays = true → g.hasArrays = true)
    (hcount : f.declarationCount ≤ g.declarationCount) (threshold : Nat) :
    f.spaceClass threshold ≤ g.spaceClass threshold := by
  have hclass : ∀ arrays arrays' many many' : Bool, (arrays → arrays') → (many → many') →
      classOfStorage arrays many ≤ classOfStorage arrays' many' := by decide
  rw [spaceClass_eq, spaceClass_eq]
  refine hclass _ _ _ _ harrays fun hmany => ?_
  rw [decide_eq_true_eq] at hmany ⊢
  exact Nat.lt_of_lt_of_le hmany hcount

/-- Whatever the graphs are, an estimate that the facts `g` lead to has no smaller classes than one that
    the facts `f` lead to. -/
def EstimatedWithin (f g : Facts) : Prop :=
  ∀ graph graph' threshold,
    (f.estimate graph threshold).time.cls ≤ (g.estimate graph' threshold).time.cls ∧
      (f.estimate graph threshold).space.cls ≤ (g.estimate graph' threshold).space.cls

theorem estimatedWithin_of_le (hloops : f.loopCount ≤ g.loopCount) (hdepth : f.loopDepth ≤ g.loopDepth)
    (hcount : f.declarationCount ≤ g.declarationCount) (harrays : f.arrays ⊆ g.arrays) :
    f.EstimatedWithin g := by
  intro graph graph' threshold
  refine ⟨timeClass_mono hloops hdepth, spaceClass_mono (fun hf => ?_) hcount threshold⟩
  simp only [hasArrays, Bool.not_eq_true', List.isEmpty_eq_false_iff_exists_mem] at hf ⊢
  obtain ⟨array, hin⟩ := hf
  exact ⟨array, harrays hin⟩

/-! ## The facts about two programs -/

/-- The facts about two programs taken together. -/
def beside (f g : Facts) : Facts :=
  { loopCount := f.loopCount + g.loopCount
    loopDepth := max f.loopDepth g.loopDepth
    declarationCount := f.declarationCount + g.declarationCount
    arrays := f.arrays ++ g.arrays
    recursive := f.recursive ++ g.recursive }

theorem estimatedWithin_beside_left (f g : Facts) : f.EstimatedWithin (f.beside g) :=
  estimatedWithin_of_le (Nat.le_add_right _ _) (Nat.le_max_left _ _) (Nat.le_add_right _ _)
    (List.subset_append_left _ _)

theorem estimatedWithin_beside_right (f g : Facts) : g.EstimatedWithin (f.beside g) :=
  estimatedWithin_of_le (Nat.le_add_left _ _) (Nat.le_max_right _ _) (Nat.le_add_left _ _)
    (List.subset_append_right _ _)

/-- The class of the time that two programs take together is the greater one. -/
theorem timeClass_beside (f g : Facts) :
    IsGreatest {f.timeClass, g.timeClass} (f.beside g).timeClass := by
  have hclass : ∀ nested nested' loops loops' : Bool,
      classOfLoops (nested || nested') (loops || loops') = classOfLoops nested loops ∨
        classOfLoops (nested || nested') (loops || loops') = classOfLoops nested' loops' := by decide
  have hnested : (f.beside g).hasNestedLoops = (f.hasNestedLoops || g.hasNestedLoops) := by
    simp only [hasNestedLoops, beside, le_max_iff, Bool.decide_or]
  have hloops : (f.beside g).hasLoops = (f.hasLoops || g.hasLoops) := by
    simp only [hasLoops, beside, Nat.add_pos_iff_pos_or_pos, Bool.decide_or]
  refine ⟨?_, ?_⟩
  · rw [timeClass_eq (f.beside g), hnested, hloops]
    exact hclass _ _ _ _
  · rintro c (rfl | rfl)
    · exact timeClass_mono (Nat.le_add_right _ _) (Nat.le_max_left _ _)
    · exact timeClass_mono (Nat.le_add_left _ _) (Nat.le_max_right _ _)

theorem foldl_append_of_assoc {α : Type} {op : α → α → α} {e : α} [Std.Associative op]
    [Std.LawfulIdentity op e] (xs ys : List α) :
    (xs ++ ys).foldl op e = op (xs.foldl op e) (ys.foldl op e) := by
  have hright : op (xs.foldl op e) e = xs.foldl op e := Std.LawfulRightIdentity.right_id _
  calc (xs ++ ys).foldl op e
      = ys.foldl op (op (xs.foldl op e) e) := by rw [List.foldl_append, hright]
    _ = op (xs.foldl op e) (ys.foldl op e) := List.foldl_assoc

/-- **The facts about two programs one behind the other are those about both taken together.** -/
theorem ofProgram_append (items others : List ProgramItem) :
    ofProgram ⟨items ++ others⟩ = (ofProgram ⟨items⟩).beside (ofProgram ⟨others⟩) := by
  simp only [ofProgram, beside, Program.functions_append, List.filterMap_append, List.map_append,
    List.flatMap_append, List.filter_append, List.length_append, foldl_append_of_assoc]

/-- The facts about a program that is a single function with a body. -/
theorem ofProgram_function {f : Function} {b : Block} (hb : f.body = some b) :
    ofProgram ⟨[.function f]⟩ =
      { loopCount := b.code.loopCount
        loopDepth := b.code.loopDepth
        declarationCount := (f.simples.filterMap Simple.declared?).length
        arrays := (f.simples.filterMap Simple.declared?).filter fun (_, type) => isArrayType type
        recursive := ([f].filter Function.callsItself).map (·.name.text) } := by
  have hfunctions : (Program.mk [.function f]).functions = [f] := rfl
  rw [ofProgram, hfunctions]
  simp only [List.filterMap_cons, hb, Option.map_some, List.filterMap_nil, List.map_cons, List.map_nil,
    List.foldl_cons, List.foldl_nil, Nat.zero_add, Nat.zero_max, List.flatMap_cons, List.flatMap_nil,
    List.append_nil]

/-- **A loop around the contents of a body is one more, and it stands around the deepest ones of them.** -/
theorem ofProgram_inLoop {f : Function} {b : Block} (before after : List ProgramItem) (hb : f.body = some b)
    (kind : LoopKind) (header : Header) (last : Token) :
    ofProgram ⟨before ++ .function (f.inLoop kind header last) :: after⟩ =
      (ofProgram ⟨before ++ .function f :: after⟩).addLoop (1 + b.code.loopDepth) := by
  have hloop : (f.inLoop kind header last).body = some (b.inLoop kind header last) :=
    congrArg (Option.map _) hb
  have hsimples : (f.inLoop kind header last).simples = f.simples := by
    rw [Function.simples, Function.simples, hb, hloop]
    exact List.append_nil _
  have hcalls : (f.inLoop kind header last).callsItself = f.callsItself := by
    rw [Function.callsItself, Function.callsItself, hsimples]
    rfl
  have hrecursive : ([f.inLoop kind header last].filter Function.callsItself).map (·.name.text) =
      ([f].filter Function.callsItself).map (·.name.text) := by
    rw [List.filter_singleton, List.filter_singleton, hcalls]
    cases f.callsItself <;> rfl
  have hcount : (b.inLoop kind header last).code.loopCount = b.code.loopCount + 1 := by
    show 1 + b.code.loopCount + 0 = _
    omega
  have hdepth : (b.inLoop kind header last).code.loopDepth =
      max b.code.loopDepth (1 + b.code.loopDepth) := by
    show max (1 + b.code.loopDepth) 0 = _
    omega
  have hfunction : ofProgram ⟨[.function (f.inLoop kind header last)]⟩ =
      (ofProgram ⟨[.function f]⟩).addLoop (1 + b.code.loopDepth) := by
    rw [ofProgram_function hloop, ofProgram_function hb, hsimples, hrecursive, hcount, hdepth]
    rfl
  have hbeside (x y z : Facts) (depth : Nat) :
      (x.beside (y.addLoop depth)).beside z = ((x.beside y).beside z).addLoop depth := by
    simp only [beside, addLoop, Facts.mk.injEq, and_true]
    omega
  rw [List.append_cons, ofProgram_append, ofProgram_append, hfunction, List.append_cons, ofProgram_append,
    ofProgram_append, hbeside]

theorem estimatedWithin_addLoop (f : Facts) (depth : Nat) : f.EstimatedWithin (f.addLoop depth) :=
  estimatedWithin_of_le (Nat.le_succ _) (Nat.le_max_left _ _) (Nat.le_refl _) (List.Subset.refl _)

end Cost.Facts

/-! ## Texts that grow -/

namespace Program

variable {limit limit' : Nat} {tokens more : List Token} {p q : Program} {before after : List ProgramItem}
  {f : Function} {b : Block} {closing last : Token} {kind : LoopKind} {header : Header}

/-- The facts about a closed text with another one behind it. -/
theorem facts_append (hread : read limit tokens = .ok p) (hclosed : p.IsClosed)
    (hmore : read limit' more = .ok q) :
    (read (max limit limit') (tokens ++ more)).isOk = true ∧
      ∀ limit'' joint, read limit'' (tokens ++ more) = .ok joint →
        joint.tree.facts = p.tree.facts.beside q.tree.facts := by
  have hitems := reads_of_read hread
  have hothers := reads_of_read hmore
  have hterminated : Terminated tokens := read_tokens hread ▸ hclosed.2
  have hjoint := hitems.append hclosed.1 hterminated hothers
  refine ⟨?_, fun limit'' joint h => ?_⟩
  · have hdepth := hitems.isOk_read_iff.mp (by rw [hread]; rfl)
    have hdepth' := hothers.isOk_read_iff.mp (by rw [hmore]; rfl)
    rw [hjoint.isOk_read_iff, depth_outline, functionsOutline_append, Outline.depth_append]
    rw [depth_outline] at hdepth hdepth'
    omega
  · obtain rfl := hjoint.eq_of_read h
    rw [facts_tree, facts_tree, facts_tree]
    exact Facts.ofProgram_append p.items q.items

/-- The facts about a text with a loop around the contents of a body. -/
theorem facts_inLoop (hread : read limit tokens = .ok p) (hitems : p.items = before ++ .function f :: after)
    (hb : f.body = some b) (hclosing : b.closing = some closing) (hheader : header.Proper (.loop kind))
    (hlast : last.word = .mark "\x7d") :
    (read (limit + 1) (textAround before f b closing after
        (header.tokens ++ (b.code.tokens ++ [last])))).isOk = true ∧
      ∀ limit' q, read limit' (textAround before f b closing after
          (header.tokens ++ (b.code.tokens ++ [last]))) = .ok q →
        q.tree.facts = p.tree.facts.addLoop (1 + b.code.loopDepth) := by
  obtain ⟨hwrapped, hdepth⟩ := reads_inLoop hread hitems hb hclosing hheader hlast
  refine ⟨hwrapped.isOk_read_iff.mpr hdepth, fun limit' q h => ?_⟩
  obtain rfl := hwrapped.eq_of_read h
  have hp : p = ⟨before ++ .function f :: after⟩ := congrArg mk hitems
  rw [facts_tree, facts_tree, Facts.ofProgram_inLoop before after hb, hp]

/-- **The estimate never drops when code is added.** Behind a closed text another one can be put: then loops
    and declarations are added up, the deeper loops count, and arrays and recursive functions come in turn,
    so the class of the time is the greater one of both and the class of the space is no smaller than
    either. The contents of a body that is closed can be put into a loop: then there is one loop more, which
    stands around the deepest loops of that body, and no class is smaller. -/
theorem estimate_grows (hread : read limit tokens = .ok p) :
    (p.IsClosed → ∀ (limit' : Nat) (more : List Token) (q : Program), read limit' more = .ok q →
      (read (max limit limit') (tokens ++ more)).isOk = true ∧
      ∀ limit'' joint, read limit'' (tokens ++ more) = .ok joint →
        joint.tree.facts = p.tree.facts.beside q.tree.facts ∧
        (∀ graph graph' graph'' threshold,
          IsGreatest {(p.tree.facts.estimate graph threshold).time.cls,
              (q.tree.facts.estimate graph' threshold).time.cls}
            (joint.tree.facts.estimate graph'' threshold).time.cls) ∧
        p.tree.facts.EstimatedWithin joint.tree.facts ∧ q.tree.facts.EstimatedWithin joint.tree.facts) ∧
    ∀ before f b closing after, p.items = before ++ .function f :: after → f.body = some b →
      b.closing = some closing → textAround before f b closing after b.code.tokens = tokens ∧
      ∀ (kind : LoopKind) (header : Header) (last : Token),
        header.Proper (.loop kind) → last.word = .mark "\x7d" →
        (read (limit + 1) (textAround before f b closing after
            (header.tokens ++ (b.code.tokens ++ [last])))).isOk = true ∧
        ∀ limit' q, read limit' (textAround before f b closing after
              (header.tokens ++ (b.code.tokens ++ [last]))) = .ok q →
          q.tree.facts = p.tree.facts.addLoop (1 + b.code.loopDepth) ∧
          p.tree.facts.EstimatedWithin q.tree.facts := by
  refine ⟨fun hclosed limit' more q hmore => ?_, fun before f b closing after hitems hb hclosing => ?_⟩
  · obtain ⟨hok, hfacts⟩ := facts_append hread hclosed hmore
    refine ⟨hok, fun limit'' joint hjoint => ?_⟩
    rw [hfacts limit'' joint hjoint]
    exact ⟨rfl, fun _ _ _ _ => Facts.timeClass_beside _ _, Facts.estimatedWithin_beside_left _ _,
      Facts.estimatedWithin_beside_right _ _⟩
  · refine ⟨textAround_eq hread hitems hb hclosing, fun kind header last hheader hlast => ?_⟩
    obtain ⟨hok, hfacts⟩ := facts_inLoop hread hitems hb hclosing hheader hlast
    refine ⟨hok, fun limit' q hq => ?_⟩
    rw [hfacts limit' q hq]
    exact ⟨rfl, Facts.estimatedWithin_addLoop _ _⟩

/-- The second function has a loop and more variables than the first. -/
def loopBehind : List Token :=
  (tokenize "int f(int a); void g() \x7b int x[2]; while (x) \x7b g(); \x7d \x7d").tokens

/-- Of two items the second is a function with a closed body. -/
def secondIsClosed : List ProgramItem → Bool
  | [_, .function f] => f.body.any fun b => b.closing.isSome
  | _ => false

/-- A function that is left open, with a loop in a loop. -/
def openNest : List Token := (tokenize "void h() \x7b for (;;) \x7b while (a) \x7b int b;").tokens

/-- A token that says a word, wherever it stands. -/
def saying (w : Word) : Token := ⟨w.kind, w.text, .first, ⟨0, 0⟩⟩

/-- The header of a loop, `while (c)` and a brace. -/
def whileC : Header :=
  ⟨saying (.reserved "while"), saying (.mark "("), [saying ⟨.identifier, "c"⟩], saying (.mark ")"),
    saying (.mark "\x7b")⟩

theorem estimate_grows_loopBehind :
    ∃ p q joint, read 2 loopBehind = .ok p ∧ p.IsClosed ∧ read 3 openNest = .ok q ∧
      read 3 (loopBehind ++ openNest) = .ok joint ∧ joint.tree.facts = p.tree.facts.beside q.tree.facts ∧
      ∃ before f b closing after, p.items = before ++ .function f :: after ∧ f.body = some b ∧
        b.closing = some closing ∧ ∃ wrapped, read 3 (textAround before f b closing after
          (whileC.tokens ++ (b.code.tokens ++ [saying (.mark "\x7d")]))) = .ok wrapped ∧
            wrapped.tree.facts = p.tree.facts.addLoop (1 + b.code.loopDepth) ∧
            p.tree.facts.EstimatedWithin wrapped.tree.facts := by
  have hok : (read 2 loopBehind).isOk = true := by decide +kernel
  have hmore : (read 3 openNest).isOk = true := by decide +kernel
  have hall : ((read 2 loopBehind).toOption.all fun p => decide p.IsClosed) = true := by decide +kernel
  have hbody : ((read 2 loopBehind).toOption.any fun p => secondIsClosed p.items) = true := by decide +kernel
  obtain ⟨p, hread⟩ := exists_ok_of_isOk hok
  obtain ⟨q, hq⟩ := exists_ok_of_isOk hmore
  rw [hread] at hall hbody
  have hclosed : p.IsClosed := of_decide_eq_true hall
  obtain ⟨happend, hwrap⟩ := estimate_grows hread
  obtain ⟨hjoint, hfacts⟩ := happend hclosed 3 openNest q hq
  obtain ⟨joint, hjoint⟩ := exists_ok_of_isOk hjoint
  have hheader : whileC.Proper (.loop .whileLoop) := by
    have hhead : Header.readAny? (whileC.tokens ++ []) = some (.loop .whileLoop, whileC, []) := by
      decide +kernel
    exact (Header.readAny?_eq_some_iff.mp hhead).1
  obtain ⟨item, f, hitems, b, closing, hb, hclosing⟩ : ∃ item f, p.items = [item, .function f] ∧
      ∃ b closing, f.body = some b ∧ b.closing = some closing := by
    rw [Except.toOption, Option.any_some, secondIsClosed.eq_def] at hbody
    split at hbody
    · next item f hitems =>
      obtain ⟨b, hb, hclosing⟩ := (Option.any_eq_true _ _).mp hbody
      obtain ⟨closing, hclosing⟩ := Option.isSome_iff_exists.mp hclosing
      exact ⟨item, f, hitems, b, closing, hb, hclosing⟩
    · exact absurd hbody Bool.false_ne_true
  obtain ⟨-, hloop⟩ := hwrap [item] f b closing [] hitems hb hclosing
  obtain ⟨hwrapped, hgrown⟩ := hloop .whileLoop whileC (saying (.mark "\x7d")) hheader rfl
  obtain ⟨wrapped, hwrapped⟩ := exists_ok_of_isOk hwrapped
  obtain ⟨hadded, hwithin⟩ := hgrown 3 wrapped hwrapped
  exact ⟨p, q, joint, hread, hclosed, hq, hjoint, (hfacts 3 joint hjoint).1, [item], f, b, closing, [],
    hitems, hb, hclosing, wrapped, hwrapped, hadded, hwithin⟩

end Program

end BraceLang
