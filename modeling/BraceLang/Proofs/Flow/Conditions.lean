import BraceLang.Proofs.Flow.Layouts
import BraceLang.Proofs.Reading.Bodies
import BraceLang.Proofs.Token.Printing

/-!
# `Proofs.Flow.Conditions` — the conditions of a graph as texts

A node at which control divides keeps its condition as a text: the tokens between the parentheses of its
header, with single blanks between them. The header is found again by the node of the syntax tree that the
node of the graph comes from, which begins with the keyword of the header. No token is lost in the text, since
it is read as the same words again.

## Contents
- `Header.StandsFor` and `Tree.HasHeader`, the header of a node of a graph.
- **`Code.Reads.hasHeader`** and `Program.hasHeader`: every decision has one.
- **`joinTexts_lossless`**.
-/

namespace BraceLang

open BraceLang.Flow

/-- The kind of node that a statement with a header of this kind becomes in a graph. -/
def HeaderKind.flowKind : HeaderKind → Flow.Kind
  | .conditional => .branch
  | .loop kind => kind.flowKind

/-- The kind of node that a statement with a header of this kind is in the syntax tree. -/
def HeaderKind.nodeKind : HeaderKind → NodeKind
  | .conditional => .ifStatement
  | .loop kind => kind.nodeKind

/-- The header stands among the tokens, and the node `v` of a graph comes from the statement of the tree that
    begins with it. -/
structure Header.StandsFor (h : Header) (kind : HeaderKind) (t : Tree) (tokens : List Token)
    (v : Station) : Prop where
  proper : h.Proper kind
  stands : h.tokens <:+: tokens
  kind_eq : v.kind = kind.flowKind
  condition_eq : v.condition = some (joinTexts h.condition)
  origin : ∃ n, v.origin = some n.id ∧ t.get? n.id = some n ∧ n.label.kind = kind.nodeKind ∧
    n.label.start = h.keyword.position ∧ n.label.span.start = h.keyword.span.start

/-- The node `v` of a graph has a header among the tokens. -/
def Tree.HasHeader (t : Tree) (tokens : List Token) (v : Station) : Prop :=
  ∃ kind h, Header.StandsFor h kind t tokens v

variable {t : Tree} {tokens s rest : List Token} {v : Station} {base : Nat}

theorem Tree.HasHeader.widen (hv : t.HasHeader s v) (hs : s <:+: tokens) : t.HasHeader tokens v := by
  obtain ⟨kind, h, hstands⟩ := hv
  exact ⟨kind, h, { hstands with stands := hstands.stands.trans hs }⟩

/-- A node of a graph that was made of a header has this header. -/
theorem Header.Proper.hasHeader {kind : HeaderKind} {h : Header} {l : Label}
    {children siblings : Outline} (hh : h.Proper kind)
    (ht : t.Holds base (.node l children siblings)) (hkind : l.kind = kind.nodeKind)
    (hl : l.start = h.keyword.position) (hspan : l.span.start = h.keyword.span.start)
    (s : List Token) : t.HasHeader (h.tokens ++ s) (h.station kind.flowKind kind.keyword base) := by
  refine ⟨kind, h, hh, (List.prefix_append _ _).isInfix, rfl, rfl, ?_⟩
  exact ⟨⟨base, l, children.rootIds (base + 1)⟩, rfl, ht.root, hkind, hl, hspan⟩

/-- A statement without a block decides nothing. -/
theorem Simple.not_isDecision_station (x : Simple) (base : Nat) :
    ¬ (x.station base).kind.isDecision = true := by
  cases x <;> exact Bool.false_ne_true

/-- **Every decision in some code that was read has its header.** -/
theorem Code.Reads.hasHeader {goal : Goal} {c : Code} {closing : Option Token}
    (hread : Reads goal s c closing rest) (ht : t.Holds base c.outline) (hv : v ∈ c.stations base)
    (hdecision : v.kind.isDecision = true) : t.HasHeader s v := by
  induction hread generalizing base with
  | nothing | atEnd | close => exact absurd hv List.not_mem_nil
  | opened _ _ _ ih | closed _ _ _ _ ih | skip _ _ _ _ _ ih =>
    exact (ih ht hv).widen (List.suffix_cons _ _).isInfix
  | simple _ _ _ ih =>
    rcases List.mem_cons.mp hv with rfl | hv
    · exact absurd hdecision (Simple.not_isDecision_station _ base)
    · exact (ih ht.beside hv).widen (List.suffix_append _ _).isInfix
  | @loop _ kind h s _ _ _ _ _ _ _ hh hbody _ ihb ih =>
    have hbehind : s <:+ h.tokens ++ s := List.suffix_append _ _
    obtain ⟨htbody, htrest, -⟩ := ht.oneBlock
    rw [Code.size_outline] at htrest
    rcases List.mem_cons.mp hv with rfl | hv
    · have hkind : kind.nodeKind = (HeaderKind.loop kind).nodeKind := rfl
      exact hh.hasHeader ht hkind rfl rfl s
    · rcases List.mem_append.mp hv with hv | hv
      · exact (ihb htbody hv).widen hbehind.isInfix
      · exact (ih htrest hv).widen (hbody.rest_suffix.trans hbehind).isInfix
  | @ifThen _ h s _ _ _ _ _ _ _ hh hbody _ _ ihb ih =>
    have hbehind : s <:+ h.tokens ++ s := List.suffix_append _ _
    obtain ⟨htbody, htrest, -⟩ := ht.oneBlock
    rw [Code.size_outline] at htrest
    rcases List.mem_cons.mp hv with rfl | hv
    · exact hh.hasHeader ht rfl rfl rfl s
    · rcases List.mem_append.mp hv with hv | hv
      · exact (ihb htbody hv).widen hbehind.isInfix
      · exact (ih htrest hv).widen (hbody.rest_suffix.trans hbehind).isInfix
  | @ifThenElse _ h e s s' _ _ _ _ _ _ _ _ _ hh hbody _ hother _ ihb iho ih =>
    have hbehind : s <:+ h.tokens ++ s := List.suffix_append _ _
    have helse : s' <:+ h.tokens ++ s :=
      (List.suffix_append e.tokens s').trans (hbody.rest_suffix.trans hbehind)
    obtain ⟨htbody, htother, htrest, -⟩ := ht.twoBlocks
    rw [Code.size_outline] at htother
    rw [Code.size_outline, Code.size_outline] at htrest
    rcases List.mem_cons.mp hv with rfl | hv
    · exact hh.hasHeader ht rfl rfl rfl s
    · rcases List.mem_append.mp hv with hv | hv
      · exact (ihb htbody hv).widen hbehind.isInfix
      · rcases List.mem_append.mp hv with hv | hv
        · exact (iho htother hv).widen helse.isInfix
        · exact (ih htrest hv).widen (hother.rest_suffix.trans helse).isInfix

namespace Program

variable {limit : Nat} {p : Program} {layout : Layout} {name : String} {g : Graph} {node : Flow.Node}

/-- Every decision of a graph has its header among the tokens that the program was read from. -/
theorem hasHeader (hread : Program.read limit tokens = .ok p)
    (hg : p.tree.graph? layout name = .ok (some g)) (hnode : node ∈ g.nodes.toList)
    (hdecision : node.station.kind.isDecision = true) : p.tree.HasHeader tokens node.station := by
  rw [p.graph?_tree hread, Program.graph?] at hg
  obtain ⟨⟨id, f⟩, hfunction, rfl⟩ := Option.map_eq_some_iff.mp (Except.ok.inj hg)
  obtain ⟨hmem, -⟩ := of_function?_eq_some hfunction
  obtain ⟨more, hholds⟩ := p.tree_holds_functions.function hmem
  have hstation : node.station ∈ f.stations id := by
    rw [← f.map_station_graph layout id]
    exact List.mem_map_of_mem hnode
  -- the entry and the exit decide nothing, so the node comes from the code of the body
  have hcode : node.station ∈ f.code.stations (id + 2 + f.startOutline.size) := by
    rw [Function.stations, List.mem_cons, List.mem_append, List.mem_singleton] at hstation
    rcases hstation with heq | hmiddle | heq
    · rw [heq] at hdecision
      exact absurd hdecision Bool.false_ne_true
    · exact hmiddle
    · rw [heq] at hdecision
      exact absurd hdecision Bool.false_ne_true
  rw [Function.code] at hcode
  cases hbody : f.body with
  | none =>
    rw [hbody] at hcode
    exact absurd hcode List.not_mem_nil
  | some b =>
    have hf : f ∈ p.functions := by
      rw [← p.map_snd_numberedFunctions]
      exact List.mem_map_of_mem hmem
    obtain ⟨inner, behind, hreads, hin⟩ := (reads_of_read hread).exists_code hf (Option.mem_def.mpr hbody)
    have hheld := hholds.functionCode
    rw [Function.code] at hheld
    rw [hbody] at hcode hheld
    exact (hreads.hasHeader hheld hcode hdecision).widen hin.isInfix

end Program

/-- **Printing tokens with single blanks is lossless.** The tokens of any part of a source, joined by single
    blanks, are read as the same words again. So is the condition that a node of a graph keeps as a text:
    these are the words between the parentheses of its header. -/
theorem joinTexts_lossless (source : String) :
    (∀ run, run <:+: (tokenize source).tokens →
      words (tokenize (joinTexts run)).tokens = words run) ∧
    ∀ {limit : Nat} {p : Program} {layout : Layout} {name : String} {g : Graph},
      Program.read limit (tokenize source).tokens = .ok p →
      p.tree.graph? layout name = .ok (some g) →
      ∀ node ∈ g.nodes.toList, node.station.kind.isDecision = true →
        ∃ kind h text, Header.StandsFor h kind p.tree (tokenize source).tokens node.station ∧
          node.station.condition = some text ∧ words (tokenize text).tokens = words h.condition := by
  have hprintable := tokenize_printable source
  constructor
  · intro run hrun
    exact (hprintable.of_infix hrun).words_tokenize
  · intro limit p layout name g hread hg node hnode hdecision
    obtain ⟨kind, h, hstands⟩ := Program.hasHeader hread hg hnode hdecision
    have hcondition : h.condition <:+: h.tokens :=
      ⟨[h.keyword, h.opening], [h.closing, h.brace], by simp [Header.tokens]⟩
    have hrun := hprintable.of_infix (hcondition.trans hstands.stands)
    exact ⟨kind, h, joinTexts h.condition, hstands, hstands.condition_eq, hrun.words_tokenize⟩

/-- A loop whose condition holds an apostrophe without a partner, a text of two lines and a point behind a
    number. -/
def oddCondition : String :=
  "int f() \x7b while (n ' <\t\"a\nb\" /1.) \x7b g(n); \x7d \x7d"

theorem joinTexts_lossless_oddCondition :
    words (tokenize (joinTexts (tokenize oddCondition).tokens)).tokens =
      words (tokenize oddCondition).tokens ∧
    ∃ p g, Program.read 2 (tokenize oddCondition).tokens = .ok p ∧
      p.tree.graph? .joined "f" = .ok (some g) ∧
      ∃ node ∈ g.nodes.toList, node.station.condition = some "n ' < \"a\nb\" / 1 ." ∧
        ∃ kind h text,
          Header.StandsFor h kind p.tree (tokenize oddCondition).tokens node.station ∧
          node.station.condition = some text ∧ words (tokenize text).tokens = words h.condition := by
  obtain ⟨hruns, hconditions⟩ := joinTexts_lossless oddCondition
  refine ⟨hruns _ (List.infix_refl _), ?_⟩
  have hfound : ((Program.read 2 (tokenize oddCondition).tokens).toOption.any fun p =>
      (p.graph? .joined "f").any fun g => g.nodes.toList.any fun node =>
        node.station.kind.isDecision && node.station.condition == some "n ' < \"a\nb\" / 1 .") =
      true := by decide +kernel
  cases hread : Program.read 2 (tokenize oddCondition).tokens with
  | error e =>
    rw [hread] at hfound
    exact absurd hfound Bool.false_ne_true
  | ok p =>
    rw [hread] at hfound
    obtain ⟨g, hg, hnodes⟩ := (Option.any_eq_true _ _).mp
      (show (p.graph? .joined "f").any _ = true from hfound)
    obtain ⟨node, hmem, htest⟩ := List.any_eq_true.mp hnodes
    have hgraph : p.tree.graph? .joined "f" = .ok (some g) := by
      rw [p.graph?_tree hread, hg]
    rw [Bool.and_eq_true, beq_iff_eq] at htest
    exact ⟨p, g, rfl, hgraph, node, hmem, htest.2, hconditions hread hgraph node hmem htest.1⟩

end BraceLang
