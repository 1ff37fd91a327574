import BraceLang.Proofs.Reading.Nesting
import BraceLang.Proofs.Tree.Placement

/-!
# `Proofs.Reading.Faithfulness` — a program that was read and its tokens

Whatever the tokens are, the tree that is read from them has a fixed shape, and its leaves are tokens
of the source in their order. A derivation goes through the tokens from left to right and so does
`Outline.TakenFrom`; the tokens that no node shows are skipped.

## Contents
- `Simple.takenFrom_parts`, `Header.takenFrom`, `Code.Reads.takenFrom` and so on.
- **`Program.takenFrom_outline`**.
-/

namespace BraceLang

namespace Outline

variable {s rest value : List Token} {semicolon : Token} {l : Label} {siblings : Outline}

/-- A node without children takes no token. -/
theorem TakenFrom.plain (hl : ¬ l.kind.holdsLeaves = true) (hleaf : ¬ l.kind.isLeaf = true)
    (hallows : l.kind.Allows []) (h : TakenFrom s rest siblings) :
    TakenFrom s rest (.node l .nil siblings) :=
  .node hl hleaf hallows .nil h

theorem takenFrom_expression (hvalue : IsExpression (words value))
    (hsemi : semicolon.word = .mark ";") :
    TakenFrom (value ++ semicolon :: s) s (expression value) := by
  cases value with
  | nil => exact absurd rfl hvalue.ne_nil
  | cons v vs => exact .expression rfl hvalue hsemi (.skip .nil)

/-- The one child of a statement that may have a value is the expression. -/
theorem roots_expression (hvalue : IsExpression (words value)) :
    (expression value).roots.map Label.kind = [.expression] := by
  cases value with
  | nil => exact absurd rfl hvalue.ne_nil
  | cons v vs => rfl

end Outline

open Outline

namespace Simple

variable {x : Simple}

/-- The nodes below a statement are taken from its tokens. -/
theorem takenFrom_parts (hx : x.Proper) (s : List Token) :
    TakenFrom (x.tokens ++ s) s x.parts := by
  cases x with
  | declaration type name suffix initializer semicolon =>
    obtain ⟨-, -, -, hinitializer, hsemi⟩ := hx
    refine .plain Bool.false_ne_true Bool.false_ne_true rfl ?_
    refine .plain Bool.false_ne_true Bool.false_ne_true rfl ?_
    simp only [tokens, List.cons_append, List.append_assoc, List.nil_append]
    refine .skip (.skip (.skipAll ?_ suffix))
    cases initializer with
    | none => exact .skip .nil
    | some i => exact .skip (takenFrom_expression (hinitializer i rfl).value hsemi)
  | call name opening arguments closing semicolon =>
    obtain ⟨-, hopening, harguments, hclosing, -⟩ := hx
    refine .plain Bool.false_ne_true Bool.false_ne_true rfl ?_
    simp only [tokens, List.cons_append, List.append_assoc, List.nil_append]
    exact .skip (.arguments rfl hopening harguments hclosing (.skip .nil))
  | ret keyword value semicolon =>
    obtain ⟨-, rfl | hvalue, hsemi⟩ := hx
    · exact .skip (.skip .nil)
    · simp only [tokens, List.cons_append, List.append_assoc, List.nil_append]
      exact .skip (takenFrom_expression hvalue hsemi)
  | assignment target operator value semicolon =>
    obtain ⟨-, -, hvalue, hsemi⟩ := hx
    refine .plain Bool.false_ne_true Bool.false_ne_true rfl ?_
    simp only [tokens, List.cons_append, List.append_assoc, List.nil_append]
    exact .skip (.skip (takenFrom_expression hvalue hsemi))

/-- A statement has the children that its kind allows. -/
theorem allows_parts (hx : x.Proper) : x.label.kind.Allows (x.parts.roots.map Label.kind) := by
  cases x with
  | declaration type name suffix initializer semicolon =>
    obtain ⟨-, -, -, hinitializer, -⟩ := hx
    cases initializer with
    | none => exact Or.inl rfl
    | some i =>
      refine Or.inr ?_
      show _ :: _ :: (expression i.value).roots.map Label.kind = _
      rw [roots_expression (hinitializer i rfl).value]
      rfl
  | call => rfl
  | ret keyword value semicolon =>
    obtain ⟨-, rfl | hvalue, -⟩ := hx
    · exact Or.inl rfl
    · exact Or.inr (roots_expression hvalue)
  | assignment target operator value semicolon =>
    show _ :: (expression value).roots.map Label.kind = _
    rw [roots_expression hx.2.2.1]
    rfl

/-- The node of a statement is a statement. -/
theorem isStatement_label (x : Simple) : x.label.kind.isStatement = true := by
  cases x <;> rfl

theorem not_holdsLeaves_label (x : Simple) : ¬ x.label.kind.holdsLeaves = true := by
  cases x <;> exact Bool.false_ne_true

theorem not_isLeaf_label (x : Simple) : ¬ x.label.kind.isLeaf = true := by
  cases x <;> exact Bool.false_ne_true

end Simple

/-- Behind the condition of a header come its blocks. -/
theorem Header.takenFrom {kind : HeaderKind} {h : Header} {s rest : List Token} {blocks : Outline}
    (hh : h.Proper kind) (hblocks : TakenFrom s rest blocks) :
    TakenFrom (h.tokens ++ s) rest (.node h.conditionLabel (leaves h.condition) blocks) := by
  simp only [tokens, List.cons_append, List.append_assoc, List.nil_append]
  exact .skip (.condition rfl hh.opening hh.condition hh.closing (.skip hblocks))

namespace Code

variable {goal : Goal} {s rest : List Token} {c : Code} {closing : Option Token}

/-- The trees at the top of the outline of code are statements. -/
theorem isStatement_of_mem_roots (c : Code) :
    ∀ k ∈ c.outline.roots.map Label.kind, k.isStatement = true := by
  induction c with
  | done => exact fun k hk => absurd hk List.not_mem_nil
  | skip t rest ih => exact ih
  | simple x rest ih =>
    intro k hk
    rcases List.mem_cons.mp hk with rfl | hrest
    · exact x.isStatement_label
    · exact ih k hrest
  | loop kind h body closing rest _ ih =>
    intro k hk
    rcases List.mem_cons.mp hk with rfl | hrest
    · cases kind <;> rfl
    · exact ih k hrest
  | ifThen h body closing rest _ ih | ifThenElse h body closing e other otherClosing rest _ _ ih =>
    intro k hk
    rcases List.mem_cons.mp hk with rfl | hrest
    · rfl
    · exact ih k hrest

/-- The outline of code is taken from the tokens that were read. -/
theorem Reads.takenFrom (h : Reads goal s c closing rest) : TakenFrom s rest c.outline := by
  induction h with
  | nothing | atEnd => exact .nil
  | close => exact .skip .nil
  | opened _ _ _ ih | closed _ _ _ _ ih | skip _ _ _ _ _ ih => exact .skip ih
  | @simple _ x _ _ _ _ _ hx _ ih =>
    exact .node x.not_holdsLeaves_label x.not_isLeaf_label (Simple.allows_parts hx)
      (Simple.takenFrom_parts hx _) ih
  | @loop _ kind h _ _ _ body _ _ _ _ hh _ _ ihb ih =>
    have hbody := body.isStatement_of_mem_roots
    refine .node ?_ ?_ ?_ (Header.takenFrom hh (.node ?_ ?_ hbody ihb .nil)) ih
    · cases kind <;> exact Bool.false_ne_true
    · cases kind <;> exact Bool.false_ne_true
    · cases kind <;> rfl
    · exact Bool.false_ne_true
    · exact Bool.false_ne_true
  | @ifThen _ h _ _ _ body _ _ _ _ hh _ _ _ ihb ih =>
    have hbody := body.isStatement_of_mem_roots
    refine .node ?_ ?_ ?_ (Header.takenFrom hh (.node ?_ ?_ hbody ihb .nil)) ih
    · exact Bool.false_ne_true
    · exact Bool.false_ne_true
    · exact Or.inl rfl
    · exact Bool.false_ne_true
    · exact Bool.false_ne_true
  | @ifThenElse _ h e _ _ _ _ body other _ _ _ _ _ hh _ _ _ _ ihb iho ih =>
    have hbody := body.isStatement_of_mem_roots
    have hother := other.isStatement_of_mem_roots
    refine .node ?_ ?_ ?_
      (Header.takenFrom hh (.node ?_ ?_ hbody ihb (.node ?_ ?_ hother (iho.skipAll e.tokens) .nil)))
      ih
    · exact Bool.false_ne_true
    · exact Bool.false_ne_true
    · exact Or.inr rfl
    all_goals exact Bool.false_ne_true

end Code

namespace Function

variable {s rest : List Token} {body : Option Block} {semicolon : Option Token} {f : Function}

/-- The parameters of a function hold no leaves. -/
theorem takenFrom_items (items : List ParameterItem) (s : List Token) :
    TakenFrom s s (items.foldr (fun i rest => i.outline ++ rest) .nil) := by
  induction items with
  | nil => exact .nil
  | cons i items ih =>
    refine .append ?_ ih
    cases i with
    | skipped => exact .nil
    | parameter type name =>
      refine .node Bool.false_ne_true Bool.false_ne_true rfl ?_ .nil
      refine .plain Bool.false_ne_true Bool.false_ne_true rfl ?_
      exact .plain Bool.false_ne_true Bool.false_ne_true rfl .nil

theorem roots_items (items : List ParameterItem) :
    ∀ k ∈ ((items.foldr (fun i rest => i.outline ++ rest) .nil : Outline)).roots.map Label.kind,
      k = .parameter := by
  induction items with
  | nil => exact fun k hk => absurd hk List.not_mem_nil
  | cons i items ih =>
    intro k hk
    cases i with
    | skipped => exact ih k hk
    | parameter type name =>
      rcases List.mem_cons.mp hk with rfl | hrest
      · rfl
      · exact ih k hrest

/-- The nodes before the body of a function take no token. -/
theorem takenFrom_startOutline (f : Function) (s : List Token) :
    TakenFrom s s f.startOutline := by
  refine .plain Bool.false_ne_true Bool.false_ne_true rfl ?_
  refine .plain Bool.false_ne_true Bool.false_ne_true rfl ?_
  exact .node Bool.false_ne_true Bool.false_ne_true (roots_items _) (takenFrom_items _ s) .nil

theorem ReadsTail.takenFrom (h : ReadsTail s body semicolon rest) :
    TakenFrom s rest ((body.map Block.outline).getD .nil) := by
  cases h with
  | @body _ _ _ c _ _ hcode =>
    exact .node Bool.false_ne_true Bool.false_ne_true c.isStatement_of_mem_roots
      (.skip hcode.takenFrom) .nil
  | semicolon => exact .skip .nil
  | nothing => exact .nil

/-- The outline of a function is taken from the tokens that were read. -/
theorem Reads.takenFrom (h : Reads s f rest) : TakenFrom s rest f.outline := by
  cases h with
  | @intro type name opening s rest body semicolon hstart htail =>
    rw [outline_eq]
    refine .node Bool.false_ne_true Bool.false_ne_true ?_ ?_ .nil
    · cases body with
      | none => exact Or.inl rfl
      | some b => exact Or.inr rfl
    · refine (takenFrom_startOutline _ _).append (.skip (.skip (.skip ?_)))
      -- The tokens of the parameters are skipped, and the body is taken from what is left.
      have htokens := ParameterList.readItems_tokens 0 s
      have htaken := (htail.takenFrom.skipAll (ParameterList.readItems 0 s).2.1.toList).skipAll
        ((ParameterList.readItems 0 s).1.flatMap ParameterItem.tokens)
      rw [htokens] at htaken
      cases body <;> exact htaken

end Function

namespace Program

variable {s : List Token} {items : List ProgramItem}

theorem roots_functionsOutline (items : List ProgramItem) :
    ∀ k ∈ (functionsOutline items).roots.map Label.kind, k = .functionDeclaration := by
  rw [functionsOutline]
  induction (mk items).functions with
  | nil => exact fun k hk => absurd hk List.not_mem_nil
  | cons f fs ih =>
    intro k hk
    rcases List.mem_cons.mp hk with rfl | hrest
    · rfl
    · exact ih k hrest

/-- The functions of a program are taken from the tokens that were read. -/
theorem Reads.takenFrom (h : Reads s items) : TakenFrom s [] (functionsOutline items) := by
  induction h with
  | nil => exact .nil
  | skipped _ _ ih => exact .skip ih
  | function hf _ ih => exact hf.takenFrom.append ih

/-- The outline of a program that was read is taken from the tokens. -/
theorem takenFrom_outline {limit : Nat} {tokens : List Token} {p : Program}
    (h : Program.read limit tokens = .ok p) : TakenFrom tokens [] p.outline :=
  .node Bool.false_ne_true Bool.false_ne_true (roots_functionsOutline p.items)
    (reads_of_read h).takenFrom .nil

end Program

end BraceLang
