import BraceLang.Proofs.Reading.Faithfulness
import BraceLang.Proofs.Tree.Extents

/-!
# `Proofs.Reading.Extents` — where the nodes of what was read begin and end

Each node covers the tokens that it was read from, from the first to the last of them, and these stand
in the row of all tokens as the nodes stand in the tree. A block ends at the first brace behind its
own that closes more braces than were opened since, whatever stands around it.

## Contents
- `Simple.over_parts`, `Header.Proper.over`, `Code.Reads.over` and so on.
- `exists_fits`: the functions of a program that was read, with their extents.
- **`read_blocksEnd`**.
-/

namespace BraceLang

open Outline

/-- The name of a type holds no bracket. -/
theorem Word.IsTypeName.not_mem_bracket {w : Word} (h : w.IsTypeName) : '[' ∉ w.text.toList := by
  have hnames : ∀ name ∈ Keyword.typeNames, '[' ∉ name.toList := by decide
  exact hnames _ (List.contains_iff_mem.mp h.2)

namespace Outline

variable {above : NodeKind} {s rest value : List Token} {siblings : Outline}

theorem over_expression (h : Over above s rest .nil) :
    Over above (value ++ s) rest (expression value) := by
  cases value with
  | nil => exact h
  | cons v vs =>
    refine .node rfl ?_ rfl NodeKind.noConfusion trivial (.leaves (List.Sublist.refl _) .nil) h
    rw [List.getLast?_cons, ← List.getLastD_eq_getLast?]

theorem kind_of_mem_roots_expression {l : Label} (h : l ∈ (expression value).roots) :
    l.kind ≠ .identifier := by
  cases value with
  | nil => exact absurd h List.not_mem_nil
  | cons v vs =>
    rw [List.mem_singleton.mp h]
    exact NodeKind.noConfusion

end Outline

namespace Simple

variable {x : Simple} {type opening : Token} {tail : List Token}

/-- The type of an array has a bracket in it. -/
theorem mem_typeText (h : opening.word = .mark "[") :
    '[' ∈ (typeText type (opening :: tail)).toList := by
  have hkeeps : ∀ text : String, '[' ∈ text.toList →
      '[' ∈ (tail.foldl (fun text t => text ++ t.text) text).toList := by
    induction tail with
    | nil => exact fun text htext => htext
    | cons t tail ih =>
      refine fun text htext => ih _ ?_
      rw [String.toList_append]
      exact List.mem_append_left _ htext
  refine hkeeps _ ?_
  rw [String.toList_append, show opening.text = "[" from congrArg Word.text h]
  exact List.mem_append_right _ (by decide)

theorem isBrace_of_proper (hx : x.Proper) : ∀ t ∈ x.tokens, ¬ t.isBrace = true :=
  fun t ht => Token.not_isBrace_iff.mpr (hx.no_brace t ht)

/-- The nodes below a statement without a block cover its tokens. -/
theorem over_parts (hx : x.Proper) (s : List Token) :
    Over x.label.kind (x.tokens ++ s) s x.parts := by
  have hend : ∀ {above : NodeKind} (t : Token), Over above (t :: s) s .nil := fun _ => .skip .nil
  cases x with
  | declaration type name suffix initializer semicolon =>
    obtain ⟨htype, -, hsuffix, -, -⟩ := hx
    have hvalue : Over .variableDeclaration
        ((initializer.map Initializer.tokens).getD [] ++ semicolon :: s) s
          (expression ((initializer.map Initializer.value).getD [])) := by
      cases initializer with
      | none => exact hend semicolon
      | some i => exact .skip (over_expression (hend semicolon))
    rw [tokens, parts, List.cons_append, List.cons_append, List.append_assoc, List.append_assoc,
      List.singleton_append]
    rcases hsuffix with hnil | ⟨inner, hsuffix, -⟩
    · obtain rfl := List.map_eq_nil_iff.mp hnil
      exact .token trivial (fun _ => htype.not_mem_bracket) (.token trivial NodeKind.noConfusion hvalue)
    · obtain ⟨opening, tail, rfl, hopening, -⟩ := List.map_eq_cons_iff.mp hsuffix
      refine .array ?_ (mem_typeText hopening) ?_ hvalue
      · rw [List.getLast?_cons, List.getLastD_cons, List.getLastD_eq_getLast?]
      · intro l hl
        cases initializer with
        | none => exact absurd hl List.not_mem_nil
        | some i => exact kind_of_mem_roots_expression hl
  | call name opening arguments closing semicolon =>
    simp only [tokens, parts, List.cons_append, List.append_assoc, List.nil_append]
    refine .token trivial NodeKind.noConfusion ?_
    have hpart : opening :: (arguments ++ closing :: semicolon :: s) =
        (opening :: (arguments ++ [closing])) ++ semicolon :: s := by simp
    rw [hpart]
    refine .node rfl ?_ rfl NodeKind.noConfusion trivial ?_ (hend semicolon)
    · rw [← List.cons_append, List.getLast?_concat]
    · simp only [List.cons_append, List.append_assoc, List.nil_append]
      exact .skip (.leaves List.filter_sublist (.skip .nil))
  | ret keyword value semicolon =>
    simp only [tokens, parts, List.cons_append, List.append_assoc, List.nil_append]
    exact .skip (over_expression (hend semicolon))
  | assignment target operator value semicolon =>
    simp only [tokens, parts, List.cons_append, List.append_assoc, List.nil_append]
    exact .token trivial NodeKind.noConfusion (.skip (over_expression (hend semicolon)))

end Simple

variable {above : NodeKind} {s middle rest : List Token} {closing : Option Token} {brace : Token}

/-- Behind the condition of a header come its blocks, the first of which begins with its brace. -/
theorem Header.Proper.over {kind : HeaderKind} {h : Header} (hh : h.Proper kind) {blocks : Outline}
    (hblocks : Over above (h.brace :: s) rest blocks) :
    Over above (h.tokens ++ s) rest (.node h.conditionLabel (leaves h.condition) blocks) := by
  have hpart : h.tokens ++ s =
      h.keyword :: ((h.opening :: (h.condition ++ [h.closing])) ++ h.brace :: s) := by
    simp [Header.tokens]
  rw [hpart]
  refine .skip (.node rfl ?_ rfl NodeKind.noConfusion ?_ ?_ hblocks)
  · rw [← List.cons_append, List.getLast?_concat]
  · exact fun t ht => Token.not_isBrace_iff.mpr (hh.no_brace t (List.mem_cons_of_mem _ ht))
  · simp only [List.cons_append, List.append_assoc, List.nil_append]
    exact .skip (.leaves (List.Sublist.refl _) (.skip .nil))

/-- The last token of a block. -/
theorem getLast?_block (brace : Token) (body : Code) (closing : Option Token) :
    (brace :: (body.tokens ++ closing.toList)).getLast? = some (blockLast brace body closing) := by
  cases closing <;> simp [blockLast, List.getLast?_cons, Code.lastToken?_eq_getLast?]

/-- The last token of an `else`. -/
theorem getLast?_else (e : ElseHead) (other : Code) (closing : Option Token) :
    (e.tokens ++ (other.tokens ++ closing.toList)).getLast? = some (elseLast e other closing) := by
  obtain ⟨keyword, brace⟩ := e
  cases closing <;> cases brace <;>
    simp [elseLast, ElseHead.tokens, List.getLast?_cons, Code.lastToken?_eq_getLast?]

namespace Code

variable {goal : Goal} {c body : Code} {kind : NodeKind} {blocks : Outline}

/-- A block covers the tokens from its brace to the one that closes it. -/
theorem Reads.over_block (hbody : Reads (.block 0) s body closing middle)
    (hends : kind.EndsWith (brace :: (body.tokens ++ closing.toList)) middle)
    (htype : kind ≠ .type) (hc : Over kind s middle body.outline)
    (hs : Over above middle rest blocks) :
    Over above (brace :: s) rest
      (.node (.covering kind none brace (blockLast brace body closing)) body.outline blocks) := by
  have hpart : brace :: s = (brace :: (body.tokens ++ closing.toList)) ++ middle := by
    rw [List.cons_append, List.append_assoc, hbody.tokens_eq]
  rw [hpart]
  refine .node rfl (getLast?_block brace body closing) rfl (fun h => absurd h htype) hends ?_ hs
  rw [← hpart]
  exact .skip hc

/-- The `if` that an `else` holds without a brace begins with the next token. -/
theorem Reads.tokens_ne_nil {kind : HeaderKind} (h : Reads .statement s c closing rest)
    (hahead : Header.Ahead kind s) : c.tokens ≠ [] := by
  cases h with
  | atEnd =>
    obtain ⟨h, rest, -, htokens⟩ := hahead
    exact absurd htokens (by simp [Header.tokens])
  | close hgoal => exact absurd hgoal (by simp [Goal.closed?])
  | opened | closed | skip => exact List.cons_ne_nil _ _
  | simple _ hx _ => exact absurd ⟨_, _, hx, rfl⟩ hahead.not_simple
  | loop | ifThen | ifThenElse => exact List.cons_ne_nil _ _

end Code

/-- An `else` ends where its block does, if it has one. -/
theorem ElseHead.Proper.endsWith {e : ElseHead} {other : Code} (he : e.Proper s)
    (hother : Code.Reads e.goal s other closing middle) :
    NodeKind.elseBranch.EndsWith (e.tokens ++ (other.tokens ++ closing.toList)) middle := by
  obtain ⟨keyword, brace⟩ := e
  have hkeyword : keyword.isKeyword "else" = true := Token.isKeyword_iff.mpr he.keyword
  cases brace with
  | some b =>
    exact ⟨keyword, b, _, rfl, hkeyword,
      Or.inl ⟨Token.isPunct_iff.mpr (he.brace b rfl), hother.endsBlock⟩⟩
  | none =>
    -- the code of an `else` without a brace begins with the keyword of its `if`
    have hahead := he.header rfl
    have hne := hother.tokens_ne_nil hahead
    obtain ⟨t, inner, htokens⟩ := List.exists_cons_of_ne_nil hne
    refine ⟨keyword, t, inner ++ closing.toList, ?_, hkeyword, Or.inr ?_⟩
    · rw [htokens]
      rfl
    · obtain ⟨h, tail, hproper, hs⟩ := hahead
      rw [← hother.tokens_eq, htokens] at hs
      obtain ⟨rfl, -⟩ := List.cons.inj hs
      exact Token.isKeyword_iff.mpr hproper.keyword

namespace Code

variable {goal : Goal} {c : Code}

/-- The last token of a header and a block is that of the block. -/
theorem getLast?_header (h : Header) (body : Code) (closing : Option Token) :
    (h.tokens ++ (body.tokens ++ closing.toList)).getLast? =
      some (blockLast h.brace body closing) := by
  have hparts : h.tokens ++ (body.tokens ++ closing.toList) =
      (h.keyword :: h.opening :: (h.condition ++ [h.closing])) ++
        (h.brace :: (body.tokens ++ closing.toList)) := by
    simp [Header.tokens]
  rw [hparts, List.getLast?_append, getLast?_block, Option.some_or]

/-- A statement with a header and one block. -/
theorem Reads.over_oneBlock {kind block : NodeKind} {headerKind : HeaderKind} {h : Header}
    {body : Code} {siblings : Outline} (hbody : Reads (.block 0) s body closing middle)
    (hh : h.Proper headerKind) (hkind : ∀ part behind, kind.EndsWith part behind) (htype : kind ≠ .type)
    (hblock : ∀ inner behind, EndsBlock inner behind → block.EndsWith (h.brace :: inner) behind)
    (hblockType : block ≠ .type) (hc : Over block s middle body.outline)
    (hs : Over above middle rest siblings) :
    Over above (h.tokens ++ s) rest
      (.node (.covering kind none h.keyword (blockLast h.brace body closing))
        (.node h.conditionLabel (leaves h.condition)
          (.single (.covering block none h.brace (blockLast h.brace body closing)) body.outline))
        siblings) := by
  have hpart : h.tokens ++ s = (h.tokens ++ (body.tokens ++ closing.toList)) ++ middle := by
    rw [List.append_assoc, List.append_assoc, hbody.tokens_eq]
  rw [hpart]
  refine .node rfl (getLast?_header h body closing) rfl (fun hk => absurd hk htype) (hkind _ _) ?_ hs
  rw [← hpart]
  exact hh.over (hbody.over_block (hblock _ _ hbody.endsBlock) hblockType hc .nil)

/-- The outline of code covers the tokens that were read. -/
theorem Reads.over (h : Reads goal s c closing rest) (above : NodeKind) :
    Over above s rest c.outline := by
  induction h generalizing above with
  | nothing | atEnd => exact .nil
  | close => exact .skip .nil
  | opened _ _ _ ih | closed _ _ _ _ ih | skip _ _ _ _ _ ih => exact .skip (ih above)
  | @simple _ x _ _ _ _ _ hx _ ih =>
    refine .node x.head?_tokens x.getLast?_tokens ?_ ?_ ?_ (Simple.over_parts hx _) (ih above)
    · cases x <;> rfl
    · cases x <;> exact NodeKind.noConfusion
    · cases x <;> exact Simple.isBrace_of_proper hx
  | @loop _ kind h _ _ _ _ _ _ _ _ hh hbody _ ihb ih =>
    refine hbody.over_oneBlock hh (fun _ _ => ?_) ?_ (fun inner _ hinner => ?_) NodeKind.noConfusion
      (ihb _) (ih above)
    · cases kind <;> trivial
    · cases kind <;> exact NodeKind.noConfusion
    · exact ⟨h.brace, inner, rfl, Token.isPunct_iff.mpr hh.brace, hinner⟩
  | @ifThen _ h _ _ _ _ _ _ _ _ hh hbody _ _ ihb ih =>
    refine hbody.over_oneBlock hh (fun _ _ => trivial) NodeKind.noConfusion
      (fun inner _ hinner => ?_) NodeKind.noConfusion (ihb _) (ih above)
    exact ⟨h.brace, inner, rfl, Token.isPunct_iff.mpr hh.brace, hinner⟩
  | @ifThenElse _ h e s s' middle rest body other c bodyClosing otherClosing _ _ hh hbody he hother _
      ihb iho ih =>
    -- the statement covers the header, the block and the `else`, each up to where the next begins
    have helse : e.tokens ++ s' = (e.tokens ++ (other.tokens ++ otherClosing.toList)) ++ middle := by
      rw [List.append_assoc, List.append_assoc, hother.tokens_eq]
    have hpart : h.tokens ++ s = (h.tokens ++ (body.tokens ++ bodyClosing.toList) ++
        (e.tokens ++ (other.tokens ++ otherClosing.toList))) ++ middle := by
      rw [List.append_assoc _ _ middle, ← helse, List.append_assoc, List.append_assoc,
        hbody.tokens_eq]
    have hbrace : h.brace.isPunct "\x7b" = true := Token.isPunct_iff.mpr hh.brace
    rw [hpart]
    refine .node rfl ?_ rfl NodeKind.noConfusion trivial ?_ (ih above)
    · rw [List.getLast?_append, getLast?_else, Option.some_or]
    rw [← hpart]
    refine hh.over (hbody.over_block ⟨_, _, rfl, hbrace, hbody.endsBlock⟩ NodeKind.noConfusion
      (ihb _) ?_)
    rw [helse]
    refine .node rfl (getLast?_else e other otherClosing) rfl NodeKind.noConfusion
      (he.endsWith hother) ?_ .nil
    rw [← helse]
    exact (iho _).skipAll e.tokens

end Code

/-! ## Functions -/

namespace ParameterList

/-- The type of a parameter is the name of a type. -/
theorem isTypeName_of_mem_readItems {type name : Token} {depth : Nat}
    (h : .parameter type name ∈ (readItems depth s).1) : type.word.IsTypeName := by
  fun_induction readItems depth s <;> simp_all [Token.isTypeName_iff]
  rename_i htest _ ih
  rcases h with ⟨rfl, -⟩ | hin
  · exact htest.1.2
  · exact ih hin

theorem getLast?_tokens (p : ParameterList) : p.tokens.getLast? = some p.last := by
  obtain ⟨opening, items, closing⟩ := p
  have hitems : (items.flatMap ParameterItem.tokens).getLast? =
      items.getLast?.bind fun i => i.tokens.getLast? := by
    rcases List.eq_nil_or_concat items with rfl | ⟨front, i, rfl⟩
    · rfl
    · cases i <;> simp [ParameterItem.tokens]
  cases closing <;> simp [tokens, last, List.getLast?_cons, hitems]

end ParameterList

namespace Function

variable {f : Function} {body : Option Block} {semicolon : Option Token}

theorem getLast?_tokens (f : Function) : f.tokens.getLast? = some f.last := by
  obtain ⟨type, name, parameters, body, semicolon⟩ := f
  have hblock (b : Block) : b.tokens.getLast? = some b.last := getLast?_block b.brace b.code b.closing
  cases body <;> cases semicolon <;>
    simp [tokens, last, List.getLast?_cons, List.getLast?_append, parameters.getLast?_tokens, hblock]

/-- The parameters of a function cover the tokens of their list. -/
theorem over_items {items : List ParameterItem} (hs : Over .parameters s rest .nil)
    (htypes : ∀ type name, .parameter type name ∈ items → type.word.IsTypeName) :
    Over .parameters (items.flatMap ParameterItem.tokens ++ s) rest
      (items.foldr (fun i rest => i.outline ++ rest) .nil) := by
  induction items with
  | nil => exact hs
  | cons i items ih =>
    have hmore := ih fun type name h => htypes type name (List.mem_cons_of_mem _ h)
    rw [List.flatMap_cons, List.append_assoc]
    cases i with
    | skipped t => exact .skip hmore
    | parameter type name =>
      have htype : type.word.IsTypeName := htypes type name List.mem_cons_self
      refine .node rfl rfl rfl NodeKind.noConfusion trivial ?_ hmore
      refine .token trivial (fun _ => htype.not_mem_bracket) ?_
      exact .token trivial NodeKind.noConfusion .nil

/-- A function covers its tokens if its body does. -/
theorem over_of_body (f : Function) (htype : f.type.word.IsTypeName)
    (htypes : ∀ type name, .parameter type name ∈ f.parameters.items → type.word.IsTypeName)
    (hbody : Over .functionDeclaration
      ((f.body.map Block.tokens).getD [] ++ (f.semicolon.toList ++ rest)) rest f.bodyOutline) :
    Over .program (f.tokens ++ rest) rest f.outline := by
  refine .node rfl f.getLast?_tokens rfl NodeKind.noConfusion trivial ?_ .nil
  obtain ⟨type, name, ⟨opening, items, closing⟩, body, semicolon⟩ := f
  have hparameters : ∀ behind, Over .parameters
      ((ParameterList.mk opening items closing).tokens ++ behind) behind
        (items.foldr (fun i rest => i.outline ++ rest) .nil) := by
    intro behind
    have hend : Over .parameters (closing.toList ++ behind) behind .nil := .skipAll .nil _
    simp only [ParameterList.tokens, List.cons_append, List.append_assoc]
    exact .skip (over_items hend htypes)
  simp only [tokens, List.cons_append, List.append_assoc]
  refine .token trivial (fun _ => htype.not_mem_bracket) (.token trivial NodeKind.noConfusion ?_)
  exact .node rfl (ParameterList.getLast?_tokens _) rfl NodeKind.noConfusion trivial (hparameters _)
    hbody

theorem ReadsTail.over (h : ReadsTail s body semicolon rest) :
    Over .functionDeclaration s rest ((body.map Block.outline).getD .nil) := by
  cases h with
  | @body t _ _ c _ ht hcode =>
    exact hcode.over_block ⟨t, _, rfl, Token.isPunct_iff.mpr ht, hcode.endsBlock⟩
      NodeKind.noConfusion (hcode.over _) .nil
  | semicolon => exact .skip .nil
  | nothing => exact .nil

/-- The outline of a function covers the tokens that were read. -/
theorem Reads.over (h : Reads s f rest) : Over .program s rest f.outline := by
  have htokens := h.tokens_eq
  obtain ⟨hstart, htail⟩ := h
  rw [← htokens]
  refine over_of_body _ hstart.type (fun _ _ => ParameterList.isTypeName_of_mem_readItems) ?_
  rename_i body _
  have hbody := htail.over
  rw [← htail.tokens_eq] at hbody
  cases body <;> exact hbody

end Function

namespace Program

variable {items : List ProgramItem}

/-- The functions of a program cover the tokens that were read. -/
theorem Reads.over (h : Reads s items) : Over .program s [] (functionsOutline items) := by
  induction h with
  | nil => exact .nil
  | skipped _ _ ih => exact .skip ih
  | function hf _ ih => exact hf.over.append ih NodeKind.noConfusion

/-- The nodes of a program that was read, apart from its root, have extents among the tokens; the
    extent of the root are all of them. -/
theorem exists_fits {limit : Nat} {tokens : List Token} {p : Program}
    (h : Program.read limit tokens = .ok p) :
    ∃ extent, extent Tree.root = ⟨0, tokens.length - 1⟩ ∧
      Fits p.tree tokens extent 0 tokens.length ((functionsOutline p.items).number 1) ∧
      (p.tree.children Tree.root).Pairwise (Apart extent .program) := by
  have hroot : p.tree.Holds 0 (.node p.label (functionsOutline p.items) .nil) :=
    Tree.holds_ofOutline p.outline
  obtain ⟨xs, hi, hhi, -, hrow⟩ := (reads_of_read h).over.exists_extents hroot.below [] rfl
  obtain rfl : hi = tokens.length := hhi
  have htable := RowsAt.toArray ((⟨0, tokens.length - 1⟩ : Extent) :: xs)
  refine ⟨_, extentIn_head htable, hrow.fits _ htable.tail, ?_⟩
  rw [Tree.root, hroot.children_eq]
  exact hrow.apart _ htable.tail

/-- A node of a program is its root or stands below it. -/
theorem eq_root_or_mem_number {p : Program} {id : Nat} {n : Tree.Node}
    (h : p.tree.get? id = some n) :
    (id = Tree.root ∧ n = ⟨Tree.root, p.label, (functionsOutline p.items).rootIds 1⟩) ∨
      n ∈ (functionsOutline p.items).number 1 ∧ n.id = id := by
  obtain ⟨hmem, rfl⟩ := Tree.get?_ofOutline_eq_some_iff.mp h
  rcases List.mem_cons.mp hmem with rfl | hin
  · exact Or.inl ⟨rfl, rfl⟩
  · rcases List.mem_append.mp hin with hin | hin
    · exact Or.inr ⟨hin, rfl⟩
    · exact absurd hin List.not_mem_nil

/-- The nodes of a program that was read stand over its tokens. -/
theorem standsOver_of_fits {tokens : List Token} {p : Program} {extent : Nat → Extent}
    (hroot : extent Tree.root = ⟨0, tokens.length - 1⟩)
    (hfits : Fits p.tree tokens extent 0 tokens.length ((functionsOutline p.items).number 1))
    (hapart : (p.tree.children Tree.root).Pairwise (Apart extent .program)) :
    p.tree.StandsOver tokens extent := by
  constructor
  · intro id n hn hid
    rcases eq_root_or_mem_number hn with ⟨rfl, -⟩ | ⟨hin, rfl⟩
    · exact absurd rfl hid
    · exact ⟨(hfits.inside n hin).2.1, hfits.covers n hin⟩
  · intro i j n m hn hm hij
    rcases eq_root_or_mem_number hn with ⟨rfl, -⟩ | ⟨hin, rfl⟩
    · rw [hroot]
      exact Nat.zero_le _
    rcases eq_root_or_mem_number hm with ⟨rfl, -⟩ | ⟨hin', rfl⟩
    · have := (id_of_mem_number hin).1
      rw [Tree.root] at hij
      omega
    · exact hfits.first_le hin hin' hij
  · intro id n hn m hm
    rcases eq_root_or_mem_number hn with ⟨rfl, -⟩ | ⟨hin, rfl⟩
    · have hholds : p.tree.Holds 0 (.node p.label (functionsOutline p.items) .nil) :=
        Tree.holds_ofOutline p.outline
      rw [Tree.root, hholds.children_eq] at hm
      have := hfits.inside m (mem_number_of_mem_tops hm)
      rw [hroot]
      dsimp only
      omega
    · exact hfits.below n hin m hm
  · intro id n hn
    rcases eq_root_or_mem_number hn with ⟨rfl, rfl⟩ | ⟨hin, rfl⟩
    · exact hapart
    · exact hfits.apart n hin

/-- **Blocks end at their own braces.** Whatever the tokens are, the nodes of the tree that is read from
    them stand over them, and a block in braces ends with the first token behind its opening brace up to
    which more braces are closed than opened, or else with the last token of all: no brace before it
    ends the block, bare ones included. No declaration, condition, call, `return` or assignment covers
    a brace. -/
theorem read_blocksEnd {limit : Nat} {tokens : List Token} {p : Program}
    (h : Program.read limit tokens = .ok p) :
    ∃ extent, p.tree.StandsOver tokens extent ∧
      ∀ id n, p.tree.get? id = some n → n.label.kind.EndsAt tokens (extent id) := by
  obtain ⟨extent, hroot, hfits, hapart⟩ := exists_fits h
  refine ⟨extent, standsOver_of_fits hroot hfits hapart, fun id n hn => ?_⟩
  rcases eq_root_or_mem_number hn with ⟨rfl, rfl⟩ | ⟨hin, rfl⟩
  · trivial
  · exact hfits.ends n hin

/-- The tokens of `int f() { { } }` with a closing brace too many. -/
def bareBraces : List Token :=
  [⟨.keyword, "int", ⟨1, 1⟩, ⟨0, 3⟩⟩, ⟨.identifier, "f", ⟨1, 5⟩, ⟨4, 5⟩⟩,
   ⟨.punctuation, "(", ⟨1, 6⟩, ⟨5, 6⟩⟩, ⟨.punctuation, ")", ⟨1, 7⟩, ⟨6, 7⟩⟩,
   ⟨.punctuation, "\x7b", ⟨1, 9⟩, ⟨8, 9⟩⟩, ⟨.punctuation, "\x7b", ⟨1, 11⟩, ⟨10, 11⟩⟩,
   ⟨.punctuation, "\x7d", ⟨1, 13⟩, ⟨12, 13⟩⟩, ⟨.punctuation, "\x7d", ⟨1, 15⟩, ⟨14, 15⟩⟩,
   ⟨.punctuation, "\x7d", ⟨1, 17⟩, ⟨16, 17⟩⟩]

theorem read_blocksEnd_bareBraces :
    ∃ p, Program.read 1 bareBraces = .ok p ∧ ∃ extent, p.tree.StandsOver bareBraces extent ∧
      ∀ id n, p.tree.get? id = some n → n.label.kind.EndsAt bareBraces (extent id) := by
  have hread : (Program.read 1 bareBraces).toBool = true := by decide +kernel
  cases h : Program.read 1 bareBraces with
  | error e => rw [h] at hread; exact absurd hread Bool.false_ne_true
  | ok p => exact ⟨p, rfl, read_blocksEnd h⟩

end Program

end BraceLang
