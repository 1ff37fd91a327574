import BraceLang.Proofs.Reading.Concatenation
import BraceLang.Proofs.Tree.Parts

/-!
# `Proofs.Reading.Gaps` — the gaps between statements

Each statement has a **gap** behind its last token, and each block has one behind its opening brace. These
are the places at which a block goes on to its next statement. An `else` that holds another `if` is a
block without a brace, so it has no gap of its own.

The gaps are listed in the order of the nodes they belong to, so the list says of each statement and each
block of a tree where its gap is.

## Contents
- `Gap`, and `Code.gaps`, `Function.gaps` and `Program.gaps`.
- `NodeKind.hasGap` and `Label.HasGap`, which nodes have gaps and where these are.
- `Code.Reads.forall₂_gaps`, `Function.Reads.forall₂_gaps` and **`Program.forall₂_gaps`**.
-/

namespace BraceLang

/-- All tokens in front of a place behind a statement or behind the opening brace of a block; none for a
    block without a brace. -/
abbrev Gap := Option (List Token)

/-- The same place, when further tokens stand in front. -/
def Gap.behind (run : List Token) (g : Gap) : Gap := g.map (run ++ ·)

/-- The gaps of the statements and the blocks in some code, in pre-order. -/
def Code.gaps : Code → List Gap
  | done => []
  | skip t rest => rest.gaps.map (Gap.behind [t])
  | simple x rest => some x.tokens :: rest.gaps.map (Gap.behind x.tokens)
  | loop _ h body closing rest | ifThen h body closing rest =>
    let part := h.tokens ++ (body.tokens ++ closing.toList)
    some part :: some h.tokens ::
      (body.gaps.map (Gap.behind h.tokens) ++ rest.gaps.map (Gap.behind part))
  | ifThenElse h body closing e other otherClosing rest =>
    let front := h.tokens ++ (body.tokens ++ (closing.toList ++ e.tokens))
    let part := front ++ (other.tokens ++ otherClosing.toList)
    some part :: some h.tokens :: (body.gaps.map (Gap.behind h.tokens) ++
      e.brace.map (fun _ => front) ::
        (other.gaps.map (Gap.behind front) ++ rest.gaps.map (Gap.behind part)))

/-- The gaps in a function. -/
def Function.gaps (f : Function) : List Gap :=
  match f.body with
  | none => []
  | some b =>
    let front := f.type :: f.name :: (f.parameters.tokens ++ [b.brace])
    some front :: b.code.gaps.map (Gap.behind front)

namespace Program

/-- The gaps in the parts of a program. -/
def gapsOf : List ProgramItem → List Gap
  | [] => []
  | .skipped t :: items => (gapsOf items).map (Gap.behind [t])
  | .function f :: items => f.gaps ++ (gapsOf items).map (Gap.behind f.tokens)

/-- The gaps of the statements and the blocks of a program, in the order of their numbers. -/
def gaps (p : Program) : List Gap := gapsOf p.items

end Program

/-- Whether a node of the kind has an entry among the gaps. -/
def NodeKind.hasGap (kind : NodeKind) : Bool := kind.isStatement || kind.isBlock

/-- The last token of the run is a closing brace or a semicolon. -/
def Concluded (run : List Token) : Prop :=
  ∃ t ∈ run.getLast?, t.word = .mark "\x7d" ∨ t.word = .mark ";"

/-- The gap that a node with the label has among the tokens. -/
inductive Label.HasGap (tokens : List Token) (l : Label) : Gap → Prop
  /-- Behind a statement, which ends with a closing brace or a semicolon if it does not end the text. -/
  | statement {front part behind : List Token} {first last : Token} (hkind : l.kind.isStatement = true)
    (htokens : front ++ (part ++ behind) = tokens) (hfirst : part.head? = some first)
    (hlast : part.getLast? = some last) (hl : l = .covering l.kind l.value first last)
    (hend : behind ≠ [] → Concluded part) : HasGap tokens l (some (front ++ part))
  /-- Behind the brace with which a block begins. -/
  | block {front behind : List Token} {brace last : Token} (hkind : l.kind.isBlock = true)
    (hbrace : brace.word = .mark "\x7b") (htokens : front ++ brace :: behind = tokens)
    (hl : l = .covering l.kind l.value brace last) : HasGap tokens l (some (front ++ [brace]))
  /-- Behind the brace of an `else`. -/
  | branch {front behind : List Token} {keyword brace last : Token} (hkind : l.kind = .elseBranch)
    (hkeyword : keyword.word = .reserved "else") (hbrace : brace.word = .mark "\x7b")
    (htokens : front ++ keyword :: brace :: behind = tokens)
    (hl : l = .covering l.kind l.value keyword last) : HasGap tokens l (some (front ++ [keyword, brace]))
  /-- An `else` with another `if` has no gap. -/
  | chain {front behind : List Token} {keyword next last : Token} (hkind : l.kind = .elseBranch)
    (hkeyword : keyword.word = .reserved "else") (hnext : next.word = .reserved "if")
    (htokens : front ++ keyword :: next :: behind = tokens)
    (hl : l = .covering l.kind l.value keyword last) : HasGap tokens l none

namespace Label.HasGap

variable {s run : List Token} {l : Label} {g : Gap} {labels : List Label} {gaps : List Gap}

theorem behind (h : l.HasGap s g) (run : List Token) : l.HasGap (run ++ s) (g.behind run) := by
  cases h with
  | @statement front part _ _ _ hkind htokens hfirst hlast hl hend =>
    have hgap : l.HasGap (run ++ s) (some ((run ++ front) ++ part)) :=
      .statement hkind (by rw [← htokens, List.append_assoc]) hfirst hlast hl hend
    rwa [List.append_assoc] at hgap
  | @block front _ brace _ hkind hbrace htokens hl =>
    have hgap : l.HasGap (run ++ s) (some ((run ++ front) ++ [brace])) :=
      .block hkind hbrace (by rw [← htokens, List.append_assoc]) hl
    rwa [List.append_assoc] at hgap
  | @branch front _ keyword brace _ hkind hkeyword hbrace htokens hl =>
    have hgap : l.HasGap (run ++ s) (some ((run ++ front) ++ [keyword, brace])) :=
      .branch hkind hkeyword hbrace (by rw [← htokens, List.append_assoc]) hl
    rwa [List.append_assoc] at hgap
  | @chain front _ _ _ _ hkind hkeyword hnext htokens hl =>
    exact .chain hkind hkeyword hnext (by rw [← htokens, List.append_assoc]) hl

theorem forall₂_behind (h : List.Forall₂ (HasGap s) labels gaps) (run : List Token) :
    List.Forall₂ (HasGap (run ++ s)) labels (gaps.map (Gap.behind run)) :=
  List.forall₂_map_right_iff.mpr (h.imp fun _ _ hg => hg.behind run)

end Label.HasGap

namespace Outline

/-- The labels of the statements and the blocks in an outline, in pre-order. -/
def gapLabels (o : Outline) : List Label := o.labels.filter (·.kind.hasGap)

variable {o more children siblings : Outline} {l : Label}

theorem gapLabels_append (o more : Outline) : (o ++ more).gapLabels = o.gapLabels ++ more.gapLabels := by
  rw [gapLabels, Forest.labels_append, List.filter_append]
  rfl

theorem gapLabels_node (h : l.kind.hasGap = true) :
    gapLabels (.node l children siblings) = l :: (children.gapLabels ++ siblings.gapLabels) := by
  rw [gapLabels, Forest.labels_node, List.filter_cons, if_pos h, List.filter_append]
  rfl

theorem gapLabels_node_of_not (h : l.kind.hasGap = false) :
    gapLabels (.node l children siblings) = children.gapLabels ++ siblings.gapLabels := by
  rw [gapLabels, Forest.labels_node, List.filter_cons, if_neg (Bool.eq_false_iff.mp h),
    List.filter_append]
  rfl

theorem gapLabels_single (h : l.kind.hasGap = true) :
    gapLabels (.single l children) = l :: children.gapLabels := by
  rw [Forest.single, gapLabels_node h]
  exact congrArg (l :: ·) (List.append_nil _)

theorem gapLabels_single_of_not (h : l.kind.hasGap = false) :
    gapLabels (.single l children) = children.gapLabels := by
  rw [Forest.single, gapLabels_node_of_not h]
  exact List.append_nil _

/-- What is only a part of a statement has no gap. -/
theorem gapLabels_of_isPart (ho : ∀ l ∈ o.labels, l.kind.isPart = true) : o.gapLabels = [] := by
  refine List.filter_eq_nil_iff.mpr fun l hl => ?_
  rw [NodeKind.hasGap, NodeKind.isStatement_of_isPart (ho l hl), NodeKind.isBlock_of_isPart (ho l hl)]
  exact Bool.false_ne_true

/-- A header has no gap before that of its block. -/
theorem gapLabels_header (h : Header) (hl : l.kind.hasGap = true) :
    gapLabels (.node l (.node h.conditionLabel (leaves h.condition) children) siblings) =
      l :: (children.gapLabels ++ siblings.gapLabels) := by
  have hcondition : h.conditionLabel.kind.hasGap = false := rfl
  rw [gapLabels_node hl, gapLabels_node_of_not hcondition, gapLabels_of_isPart (isPart_leaves _),
    List.nil_append]

/-- The nodes with gaps, without their numbers. -/
theorem map_label_filter_number (o : Outline) (base : Nat) :
    ((o.number base).filter (·.label.kind.hasGap)).map Tree.Node.label = o.gapLabels := by
  rw [gapLabels, ← map_label_number o base, List.filter_map]
  rfl

end Outline

theorem Concluded.behind {run : List Token} (h : Concluded run) (front : List Token) :
    Concluded (front ++ run) := by
  obtain ⟨t, ht, hword⟩ := h
  exact ⟨t, by rw [List.getLast?_append, Option.mem_def.mp ht]; rfl, hword⟩

theorem Simple.Proper.concluded {x : Simple} (hx : x.Proper) : Concluded x.tokens := by
  refine ⟨x.last, x.getLast?_tokens, .inr ?_⟩
  cases x with
  | declaration => exact hx.2.2.2.2
  | call => exact hx.2.2.2.2
  | ret => exact hx.2.2
  | assignment => exact hx.2.2.2

theorem ElseHead.goal_ne_nothing (e : ElseHead) : e.goal ≠ .nothing := by
  rw [goal]
  split <;> exact Code.Goal.noConfusion

/-- The gap of the block behind a header. -/
theorem Header.Proper.hasGap_block {headerKind : HeaderKind} {h : Header} (hh : h.Proper headerKind)
    {kind : NodeKind} (hkind : kind.isBlock = true) (s : List Token) {last : Token} :
    Label.HasGap (h.tokens ++ s) (.covering kind none h.brace last) (some h.tokens) := by
  have hfront : h.tokens = (h.keyword :: h.opening :: (h.condition ++ [h.closing])) ++ [h.brace] := by
    simp [Header.tokens]
  rw [hfront]
  exact .block hkind hh.brace (List.append_assoc _ [h.brace] s).symm rfl

namespace Code

variable {goal : Goal} {s middle rest : List Token} {c body : Code} {closing : Option Token}
  {siblings : Outline} {gaps : List Gap}

open Outline

theorem Reads.of_nothing (h : Reads .nothing s c closing rest) :
    c = .done ∧ closing = none ∧ rest = s := by
  cases h with
  | nothing | atEnd => exact ⟨rfl, rfl, rfl⟩
  | close hgoal => exact absurd hgoal (by simp [Goal.closed?])
  | opened hgoal | closed hgoal | skip hgoal | simple hgoal | loop hgoal | ifThen hgoal
  | ifThenElse hgoal => exact absurd rfl hgoal

theorem Reads.ne_nil (h : Reads goal s c closing rest) (hrest : rest ≠ []) : s ≠ [] := by
  rintro rfl
  exact hrest (List.length_eq_zero_iff.mp (Nat.le_zero.mp h.length_rest_le))

/-- What is read behind a statement concludes with it, or later. -/
theorem Reads.concluded_behind {part : List Token} (h : Reads goal.next middle c closing rest)
    (ih : goal.next ≠ .nothing → Concluded (c.tokens ++ closing.toList)) (hpart : Concluded part) :
    Concluded (part ++ (c.tokens ++ closing.toList)) := by
  by_cases hgoal : goal.next = .nothing
  · rw [hgoal] at h
    obtain ⟨rfl, rfl, -⟩ := h.of_nothing
    rwa [Option.toList_none, List.append_nil, tokens, List.append_nil]
  · exact (ih hgoal).behind part

/-- Code that does not end the text ends with a closing brace or a semicolon. -/
theorem Reads.concluded (h : Reads goal s c closing rest) (hgoal : goal ≠ .nothing)
    (hrest : rest ≠ []) : Concluded (c.tokens ++ closing.toList) := by
  have hblock (bare : Nat) : Goal.block bare ≠ .nothing := Goal.noConfusion
  induction h with
  | nothing => exact absurd rfl hgoal
  | atEnd => exact absurd rfl hrest
  | @close _ t _ _ ht => exact ⟨t, rfl, .inl ht⟩
  | @opened goal t _ _ _ _ _ _ _ ih =>
    have hopened : goal.opened ≠ .nothing := by
      cases goal <;> first | exact hgoal | exact hblock _
    exact (ih hopened hrest).behind [t]
  | @closed goal outer t _ _ _ _ _ houter _ _ ih =>
    have hclosed : outer ≠ .nothing := by
      rintro rfl
      rcases goal with (_ | _) | _ | _ <;> simp_all [Goal.closed?]
    exact (ih hclosed hrest).behind [t]
  | @skip _ t _ _ _ _ _ _ _ _ _ ih => exact (ih hgoal hrest).behind [t]
  | simple _ hx hc ih =>
    rw [tokens, List.append_assoc]
    exact hc.concluded_behind (fun hnext => ih hnext hrest) hx.concluded
  | @loop _ _ h _ _ _ body _ bodyClosing _ _ _ _ hc ihb ih
  | @ifThen _ h _ _ _ body _ bodyClosing _ _ _ _ _ hc ihb ih =>
    have hpart := (ihb (hblock 0) (hc.ne_nil hrest)).behind h.tokens
    have hall := hc.concluded_behind (fun hnext => ih hnext hrest) hpart
    simpa only [tokens, List.append_assoc] using hall
  | @ifThenElse _ h e _ _ _ _ body other _ bodyClosing _ _ _ _ _ _ hother hc ihb iho ih =>
    have hpart := (iho e.goal_ne_nothing (hc.ne_nil hrest)).behind
      (h.tokens ++ (body.tokens ++ (bodyClosing.toList ++ e.tokens)))
    have hall := hc.concluded_behind (fun hnext => ih hnext hrest) hpart
    simpa only [tokens, List.append_assoc] using hall

/-- A statement with a header and one block has a gap behind it and one in its block. -/
theorem Reads.forall₂_gaps_oneBlock {kind block : NodeKind} {headerKind : HeaderKind} {h : Header}
    (hbody : Reads (.block 0) s body closing middle) (hh : h.Proper headerKind)
    (hkind : kind.isStatement = true) (hblock : block.isBlock = true)
    (hin : List.Forall₂ (Label.HasGap s) body.outline.gapLabels body.gaps)
    (hbehind : List.Forall₂ (Label.HasGap middle) siblings.gapLabels gaps) :
    List.Forall₂ (Label.HasGap (h.tokens ++ s))
      (gapLabels (.node (.covering kind none h.keyword (blockLast h.brace body closing))
        (.node h.conditionLabel (leaves h.condition)
          (.single (.covering block none h.brace (blockLast h.brace body closing)) body.outline))
        siblings))
      (some (h.tokens ++ (body.tokens ++ closing.toList)) :: some h.tokens ::
        (body.gaps.map (Gap.behind h.tokens) ++
          gaps.map (Gap.behind (h.tokens ++ (body.tokens ++ closing.toList))))) := by
  have hhas : kind.hasGap = true := by rw [NodeKind.hasGap, hkind, Bool.true_or]
  have hblockHas : block.hasGap = true := by rw [NodeKind.hasGap, hblock, Bool.or_true]
  have hpart : h.tokens ++ s = (h.tokens ++ (body.tokens ++ closing.toList)) ++ middle := by
    rw [List.append_assoc, List.append_assoc, hbody.tokens_eq]
  rw [gapLabels_header h hhas, gapLabels_single hblockHas]
  refine .cons ?_ (.cons (hh.hasGap_block hblock s) ?_)
  · exact @Label.HasGap.statement _ _ [] _ middle _ _ hkind hpart.symm rfl (getLast?_header h body closing)
      rfl fun hne => (hbody.concluded Goal.noConfusion hne).behind h.tokens
  · refine List.rel_append (Label.HasGap.forall₂_behind hin _) ?_
    rw [hpart]
    exact Label.HasGap.forall₂_behind hbehind _

/-- The gap of an `else` is behind its brace, if it has one. -/
theorem hasGap_else {e : ElseHead} {other : Code} (he : e.Proper s)
    (hother : Reads e.goal s other closing middle) :
    Label.HasGap (e.tokens ++ s) (.covering .elseBranch none e.keyword (elseLast e other closing))
      (e.brace.map fun _ => e.tokens) := by
  obtain ⟨keyword, brace⟩ := e
  cases brace with
  | some b => exact @Label.HasGap.branch _ _ [] s keyword b _ rfl he.keyword (he.brace b rfl) rfl rfl
  | none =>
    obtain ⟨h, tail, hproper, rfl⟩ := he.header rfl
    exact @Label.HasGap.chain _ _ [] _ keyword h.keyword _ rfl he.keyword hproper.keyword rfl rfl

/-- **The gaps of some code are those of its statements and blocks**, one for each and in their order. -/
theorem Reads.forall₂_gaps (h : Reads goal s c closing rest) :
    List.Forall₂ (Label.HasGap s) c.outline.gapLabels c.gaps := by
  induction h with
  | nothing | atEnd | close => exact .nil
  | @opened _ t _ _ _ _ _ _ _ ih | @closed _ _ t _ _ _ _ _ _ _ _ ih
  | @skip _ t _ _ _ _ _ _ _ _ _ ih => exact Label.HasGap.forall₂_behind ih [t]
  | @simple _ x s _ c _ _ hx _ ih =>
    have hkind : x.label.kind.isStatement = true := by cases x <;> rfl
    have hhas : x.label.kind.hasGap = true := by rw [NodeKind.hasGap, hkind, Bool.true_or]
    have hl : x.label = .covering x.label.kind x.label.value x.first x.last := by cases x <;> rfl
    rw [outline, gapLabels_node hhas, gapLabels_of_isPart x.isPart_parts, List.nil_append]
    exact .cons (@Label.HasGap.statement _ _ [] _ s _ _ hkind rfl x.head?_tokens x.getLast?_tokens hl
      fun _ => hx.concluded)
      (Label.HasGap.forall₂_behind ih _)
  | @loop _ kind _ _ _ _ _ _ _ _ _ hh hbody _ ihb ih =>
    exact hbody.forall₂_gaps_oneBlock hh (by cases kind <;> rfl) rfl ihb ih
  | ifThen _ hh hbody _ _ ihb ih => exact hbody.forall₂_gaps_oneBlock hh rfl rfl ihb ih
  | @ifThenElse _ h e s s' middle _ body other _ bodyClosing otherClosing _ _ hh hbody he hother _ ihb
      iho ih =>
    -- the statement covers the header, the block and the `else`, each up to where the next begins
    have hfront : h.tokens ++ (body.tokens ++ bodyClosing.toList) ++ e.tokens =
        h.tokens ++ (body.tokens ++ (bodyClosing.toList ++ e.tokens)) := by
      simp only [List.append_assoc]
    have helse : h.tokens ++ s =
        h.tokens ++ (body.tokens ++ bodyClosing.toList) ++ (e.tokens ++ s') := by
      simp only [List.append_assoc, ← hbody.tokens_eq]
    have hpart : h.tokens ++ s = h.tokens ++ (body.tokens ++ (bodyClosing.toList ++ e.tokens)) ++
        (other.tokens ++ otherClosing.toList) ++ middle := by
      simp only [List.append_assoc, ← hbody.tokens_eq, hother.tokens_eq]
    have hlast : (h.tokens ++ (body.tokens ++ (bodyClosing.toList ++ e.tokens)) ++
        (other.tokens ++ otherClosing.toList)).getLast? = some (elseLast e other otherClosing) := by
      rw [← hfront, List.append_assoc, List.getLast?_append, getLast?_else, Option.some_or]
    have hbranch : Label.HasGap (h.tokens ++ s)
        (.covering .elseBranch none e.keyword (elseLast e other otherClosing))
        (e.brace.map fun _ => h.tokens ++ (body.tokens ++ (bodyClosing.toList ++ e.tokens))) := by
      have hgap := (hasGap_else he hother).behind (h.tokens ++ (body.tokens ++ bodyClosing.toList))
      rw [helse]
      rwa [Gap.behind, Option.map_map, Function.comp_def, hfront] at hgap
    rw [outline, gapLabels_header h rfl, gapLabels_node rfl, gapLabels_single rfl, List.cons_append,
      List.append_assoc, List.cons_append]
    refine .cons ?_ (.cons (hh.hasGap_block rfl s) (List.rel_append ?_ (.cons hbranch
      (List.rel_append ?_ ?_))))
    · exact @Label.HasGap.statement _ _ [] _ middle _ _ rfl hpart.symm rfl hlast rfl
        fun hne => (hother.concluded e.goal_ne_nothing hne).behind
          (h.tokens ++ (body.tokens ++ (bodyClosing.toList ++ e.tokens)))
    · exact Label.HasGap.forall₂_behind ihb _
    · rw [helse, ← List.append_assoc, hfront]
      exact Label.HasGap.forall₂_behind iho _
    · rw [hpart]
      exact Label.HasGap.forall₂_behind ih _

end Code

namespace Function

variable {s rest : List Token} {f : Function} {b : Block}

/-- The body of a function begins behind its parameters and is read as a block. -/
theorem Reads.exists_block (h : Reads s f rest) (hb : f.body = some b) :
    ∃ inner, f.type :: f.name :: (f.parameters.tokens ++ [b.brace]) ++ inner = s ∧
      b.brace.word = .mark "\x7b" ∧ Code.Reads (.block 0) inner b.code b.closing rest := by
  have htokens := h.tokens_eq
  obtain ⟨-, htail⟩ := h
  obtain rfl : _ = some b := hb
  generalize (ParameterList.readItems 0 _).2.2 = tail at htail
  cases htail with
  | @body brace inner _ c closing ht hcode =>
    refine ⟨inner, ?_, ht, hcode⟩
    rw [← htokens, ← hcode.tokens_eq]
    simp [tokens, Block.tokens]

/-- The gaps of a function are those of its body and of what is in it. -/
theorem Reads.forall₂_gaps (h : Reads s f rest) :
    List.Forall₂ (Label.HasGap s) f.outline.gapLabels f.gaps := by
  have hlabel : f.label.kind.hasGap = false := rfl
  rw [outline_eq, Outline.gapLabels_single_of_not hlabel, Outline.gapLabels_append,
    Outline.gapLabels_of_isPart f.isPart_startOutline, List.nil_append, bodyOutline, gaps]
  cases hb : f.body with
  | none => exact .nil
  | some b =>
    obtain ⟨inner, rfl, hbrace, hcode⟩ := h.exists_block hb
    dsimp only
    rw [Block.outline, Outline.gapLabels_single rfl]
    refine .cons ?_ (Label.HasGap.forall₂_behind hcode.forall₂_gaps _)
    exact @Label.HasGap.block _ _ (f.type :: f.name :: f.parameters.tokens) inner _ _ rfl hbrace
      (by simp) rfl

end Function

namespace Program

variable {s tokens : List Token} {items : List ProgramItem} {p : Program} {limit : Nat}

theorem Reads.forall₂_gaps (h : Reads s items) :
    List.Forall₂ (Label.HasGap s) (functionsOutline items).gapLabels (gapsOf items) := by
  induction h with
  | nil => exact .nil
  | @skipped t _ _ _ _ ih => exact Label.HasGap.forall₂_behind ih [t]
  | @function s rest f items hf _ ih =>
    show List.Forall₂ _ (f.outline ++ functionsOutline items).gapLabels _
    rw [Outline.gapLabels_append, gapsOf]
    refine List.rel_append hf.forall₂_gaps ?_
    rw [← hf.tokens_eq]
    exact Label.HasGap.forall₂_behind ih _

/-- **Every statement and every block of a tree has its gap**, and there are no other gaps: they come in
    the order of the nodes. -/
theorem forall₂_gaps (h : read limit tokens = .ok p) :
    List.Forall₂ (fun n g => n.label.HasGap tokens g)
      (p.tree.nodes.toList.filter (·.label.kind.hasGap)) p.gaps := by
  have hroot : p.label.kind.hasGap = false := rfl
  have hlabels : (p.tree.nodes.toList.filter (·.label.kind.hasGap)).map Tree.Node.label =
      (functionsOutline p.items).gapLabels := by
    show ((p.outline.number 0).filter _).map _ = _
    rw [Outline.map_label_filter_number]
    exact Outline.gapLabels_single_of_not hroot
  have hgaps := (reads_of_read h).forall₂_gaps
  rw [← hlabels] at hgaps
  exact List.forall₂_map_left_iff.mp hgaps

end Program

end BraceLang
