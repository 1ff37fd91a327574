import BraceLang.Proofs.Cost.TreeFacts
import BraceLang.Proofs.Reading.Bodies
import BraceLang.Proofs.Reading.Nesting
import BraceLang.Proofs.Reading.Pauses
import BraceLang.Proofs.Reading.Recognition
import BraceLang.Token.Lexer

/-!
# `Proofs.Cost.Recursion` — which functions are found to call themselves

A call is a name right in front of an opening parenthesis. As a statement of its own it has a node, and a
function calls itself for the estimate if there is such a node with its name. Everywhere else, in an
initializer, in a value or in a condition, a call is a row of leaves, and there it is not looked for. So
what is found is a call, and what is missed stands in an expression.

## Contents
- `callOf`, the words of a call, and what can stand around it: `infix_callOf_separated`.
- `Code.shapes`, the statements in some code, and `Shape.expression`, where a call has no node.
- `Shape.Proper.infix_callOf_iff`: a statement with a call in it is one or has it in its expression.
- **`Program.recursive_callStatements`**, and `Program.recursive_misses_returned`, where a call is missed.
-/

namespace BraceLang

/-! ## Calls among words -/

/-- The words with which a call of a function begins. -/
def callOf (name : String) : List Word := [⟨.identifier, name⟩, .mark "("]

section Words

variable {name : String} {w v : Word} {front back run : List Word}

/-- Without a parenthesis there is no call. -/
theorem not_infix_callOf (h : Word.mark "(" ∉ run) : ¬ callOf name <:+: run := by
  intro hcall
  exact h (hcall.subset (List.mem_cons_of_mem _ List.mem_cons_self))

theorem prefix_callOf_cons :
    callOf name <+: w :: run ↔ w = ⟨.identifier, name⟩ ∧ [Word.mark "("] <+: run := by
  rw [callOf, List.cons_prefix_cons, eq_comm]

/-- A word that is no name begins no call. -/
theorem infix_callOf_cons (hw : w.kind ≠ .identifier) :
    callOf name <:+: w :: run ↔ callOf name <:+: run := by
  rw [List.infix_cons_iff, prefix_callOf_cons, or_iff_right]
  rintro ⟨rfl, -⟩
  exact hw rfl

/-- A call stands on one side of a word that is neither a name nor an opening parenthesis. -/
theorem infix_callOf_separated (hw : w.kind ≠ .identifier) (hopen : w ≠ .mark "(") :
    callOf name <:+: front ++ w :: back ↔ callOf name <:+: front ∨ callOf name <:+: back := by
  induction front with
  | nil =>
    rw [List.nil_append, infix_callOf_cons hw, or_iff_right]
    exact not_infix_callOf List.not_mem_nil
  | cons v front ih =>
    have hfirst : callOf name <+: v :: (front ++ w :: back) ↔ callOf name <+: v :: front := by
      rw [prefix_callOf_cons, prefix_callOf_cons]
      refine and_congr_right fun _ => ?_
      cases front with
      | nil => simp [Ne.symm hopen]
      | cons u front => rw [List.cons_append, List.cons_prefix_cons, List.cons_prefix_cons]; simp
    rw [List.cons_append, List.infix_cons_iff, List.infix_cons_iff, ih, hfirst, or_assoc]

/-- The last word of a run that is neither a name nor an opening parenthesis belongs to no call. -/
theorem infix_callOf_concat (hw : w.kind ≠ .identifier) (hopen : w ≠ .mark "(") :
    callOf name <:+: run ++ [w] ↔ callOf name <:+: run := by
  rw [infix_callOf_separated hw hopen, or_iff_left (not_infix_callOf List.not_mem_nil)]

theorem IsSuffix.not_mem_opening (h : IsSuffix run) : Word.mark "(" ∉ run := by
  rcases h with rfl | ⟨inner, rfl, hinner⟩
  · exact List.not_mem_nil
  · intro hmem
    rcases List.mem_cons.mp hmem with heq | hmem
    · exact absurd heq (by decide)
    · rcases List.mem_append.mp hmem with hin | hlast
      · exact hinner _ hin rfl
      · exact absurd (List.mem_singleton.mp hlast) (by decide)

theorem IsArgumentList.not_mem_opening (h : IsArgumentList run) : Word.mark "(" ∉ run := by
  have hargument {a : Word} (ha : a.IsArgument) : Word.mark "(" ≠ a := by
    rintro rfl
    exact Bool.false_ne_true ha
  induction h with
  | single ha => exact fun hmem => hargument ha (List.mem_singleton.mp hmem)
  | more ha _ ih =>
    exact List.not_mem_cons_of_ne_of_not_mem (hargument ha)
      (List.not_mem_cons_of_ne_of_not_mem (by decide) ih)

end Words

/-! ## Calls in statements -/

/-- The tokens of a statement that have no structure of their own: a value, or the condition of a header. -/
def Shape.expression : Shape → List Token
  | simple (.declaration _ _ _ initializer _) => (initializer.map Initializer.value).getD []
  | simple (.call ..) => []
  | simple (.ret _ value _) => value
  | simple (.assignment _ _ value _) => value
  | header _ h => h.condition

namespace Shape

variable {name : String} {shape : Shape}

/-- A statement that begins with a call is a call. -/
theorem Proper.prefix_callOf_iff {x : Simple} (hx : x.Proper) :
    callOf name <+: words x.tokens ↔ x.callee? = some name := by
  cases x with
  | call callee opening arguments closing semicolon =>
    obtain ⟨hname, hopening, -⟩ := hx
    have hkind : callee.kind = .identifier := hname
    have hbehind : [Word.mark "("] <+: .mark "(" :: (arguments ++ [closing, semicolon]).map Token.word :=
      List.prefix_append _ _
    rw [Simple.tokens, words, List.map_cons, List.map_cons, prefix_callOf_cons, hopening,
      and_iff_left hbehind, Token.word, Word.mk.injEq, and_iff_right hkind, Simple.callee?,
      Option.some.injEq]
  | declaration type declared suffix initializer semicolon =>
    refine iff_of_false (fun h => ?_) (Option.some_ne_none name).symm
    have htype : type.word.kind = .identifier := congrArg Word.kind (prefix_callOf_cons.mp h).1
    rw [hx.1.1] at htype
    exact absurd htype (by decide)
  | ret keyword value semicolon =>
    refine iff_of_false (fun h => ?_) (Option.some_ne_none name).symm
    exact Word.not_isName_reserved "return" (hx.1 ▸ congrArg Word.kind (prefix_callOf_cons.mp h).1)
  | assignment target operator value semicolon =>
    refine iff_of_false (fun h => ?_) (Option.some_ne_none name).symm
    have hoperator : Word.mark "(" = operator.word :=
      (List.cons_prefix_cons.mp (prefix_callOf_cons.mp h).2).1
    have hkind : operator.word.kind = .operator := hx.2.1.1
    rw [← hoperator] at hkind
    exact absurd hkind (by decide)

/-- No header begins with a call. -/
theorem Proper.not_prefix_callOf {kind : HeaderKind} {h : Header} (hh : h.Proper kind) :
    ¬ callOf name <+: words h.tokens := by
  intro hcall
  exact Word.not_isName_reserved _ (hh.keyword ▸ congrArg Word.kind (prefix_callOf_cons.mp hcall).1)

/-- **A statement with a call in it is a call or has it in its expression.** -/
theorem Proper.infix_callOf_iff (hshape : shape.Proper) : callOf name <:+: words shape.tokens ↔
    callOf name <+: words shape.tokens ∨ callOf name <:+: words shape.expression := by
  have hmark (text : String) (hne : text ≠ "(") :
      (Word.mark text).kind ≠ .identifier ∧ Word.mark text ≠ .mark "(" :=
    ⟨nofun, fun h => hne (congrArg Word.text h)⟩
  have hsemicolon := hmark ";" (by decide)
  have hclosing := hmark ")" (by decide)
  -- where no call begins the statement, the words around the expression belong to none
  suffices h : callOf name <+: words shape.tokens ∨
      (callOf name <:+: words shape.tokens ↔ callOf name <:+: words shape.expression) by
    rcases h with hfirst | hiff
    · exact iff_of_true hfirst.isInfix (.inl hfirst)
    · exact ⟨fun h => .inr (hiff.mp h), fun h => h.elim List.IsPrefix.isInfix hiff.mpr⟩
  cases shape with
  | header kind h =>
    have hh : h.Proper kind := hshape
    have hwords : words h.tokens = .reserved kind.keyword :: .mark "(" ::
        ((words h.condition ++ [.mark ")"]) ++ [.mark "\x7b"]) := by
      simp [Header.tokens, words, hh.keyword, hh.opening, hh.closing, hh.brace]
    have hbrace := hmark "\x7b" (by decide)
    refine .inr ?_
    rw [tokens, hwords, infix_callOf_cons (Word.not_isName_reserved _), infix_callOf_cons (by decide),
      infix_callOf_concat hbrace.1 hbrace.2, infix_callOf_concat hclosing.1 hclosing.2]
    rfl
  | simple x =>
    have hx : x.Proper := hshape
    cases x with
    | declaration type declared suffix initializer semicolon =>
      obtain ⟨htype, hname, hsuffix, hinitializer, hsemi⟩ := hx
      have hfront : Word.mark "(" ∉ words (type :: declared :: suffix) := by
        refine List.not_mem_cons_of_ne_of_not_mem ?_
          (List.not_mem_cons_of_ne_of_not_mem ?_ hsuffix.not_mem_opening)
        · exact (htype.ne_mark _).symm
        · exact (Word.IsName.ne_mark hname _).symm
      refine .inr ?_
      cases initializer with
      | none =>
        have hwords : words (Simple.declaration type declared suffix none semicolon).tokens =
            words (type :: declared :: suffix) ++ [.mark ";"] := by
          simp [Simple.tokens, words, hsemi]
        rw [tokens, hwords, infix_callOf_concat hsemicolon.1 hsemicolon.2]
        exact iff_of_false (not_infix_callOf hfront) (not_infix_callOf List.not_mem_nil)
      | some i =>
        have hwords : words (Simple.declaration type declared suffix (some i) semicolon).tokens =
            words (type :: declared :: suffix) ++ ⟨.operator, "="⟩ :: (words i.value ++ [.mark ";"]) := by
          simp [Simple.tokens, Initializer.tokens, words, hsemi, (hinitializer i rfl).sign]
        rw [tokens, hwords, infix_callOf_separated (by decide) (by decide),
          infix_callOf_concat hsemicolon.1 hsemicolon.2, or_iff_right (not_infix_callOf hfront)]
        rfl
    | call callee opening arguments closing semicolon =>
      obtain ⟨-, hopening, harguments, hclose, hsemi⟩ := hx
      have hlist : Word.mark "(" ∉ words arguments := by
        rcases harguments with rfl | harguments
        · exact List.not_mem_nil
        · exact harguments.not_mem_opening
      have hwords : words (Simple.call callee opening arguments closing semicolon).tokens =
          callee.word :: .mark "(" :: ((words arguments ++ [.mark ")"]) ++ [.mark ";"]) := by
        simp [Simple.tokens, words, hopening, hclose, hsemi]
      by_cases hfirst : callOf name <+: words (Shape.simple (.call callee opening arguments closing
          semicolon)).tokens
      · exact .inl hfirst
      refine .inr (iff_of_false ?_ (not_infix_callOf List.not_mem_nil))
      rw [tokens, hwords] at hfirst ⊢
      rw [List.infix_cons_iff, or_iff_right hfirst, infix_callOf_cons (by decide),
        infix_callOf_concat hsemicolon.1 hsemicolon.2, infix_callOf_concat hclosing.1 hclosing.2]
      exact not_infix_callOf hlist
    | ret keyword value semicolon =>
      obtain ⟨hkeyword, -, hsemi⟩ := hx
      have hwords : words (Simple.ret keyword value semicolon).tokens =
          .reserved "return" :: (words value ++ [.mark ";"]) := by
        simp [Simple.tokens, words, hkeyword, hsemi]
      refine .inr ?_
      rw [tokens, hwords, infix_callOf_cons (by decide), infix_callOf_concat hsemicolon.1 hsemicolon.2]
      rfl
    | assignment target operator value semicolon =>
      obtain ⟨htarget, hoperator, -, hsemi⟩ := hx
      have hkind : operator.word.kind = .operator := hoperator.1
      have hwords : words (Simple.assignment target operator value semicolon).tokens =
          [target.word] ++ operator.word :: (words value ++ [.mark ";"]) := by
        simp [Simple.tokens, words, hsemi]
      have hfront : Word.mark "(" ∉ [target.word] := by
        refine fun h => Word.ne_mark_of_kind ?_ _ (List.mem_singleton.mp h).symm
        rw [show target.word.kind = _ from htarget]
        decide
      refine .inr ?_
      rw [tokens, hwords, infix_callOf_separated (by rw [hkind]; decide)
          (Word.ne_mark_of_kind (by rw [hkind]; decide) _),
        infix_callOf_concat hsemicolon.1 hsemicolon.2, or_iff_right (not_infix_callOf hfront)]
      rfl

end Shape

/-! ## Calls in code -/

namespace Code

/-- The statements in some code, at any depth and in source order; of those with blocks their headers. -/
def shapes : Code → List Shape
  | done => []
  | skip _ rest => rest.shapes
  | simple x rest => .simple x :: rest.shapes
  | loop kind h body _ rest => .header (.loop kind) h :: (body.shapes ++ rest.shapes)
  | ifThen h body _ rest => .header .conditional h :: (body.shapes ++ rest.shapes)
  | ifThenElse h body _ _ other _ rest =>
    .header .conditional h :: (body.shapes ++ (other.shapes ++ rest.shapes))

variable {goal : Goal} {s rest : List Token} {c : Code} {closing : Option Token} {shape : Shape}

theorem simple_mem_shapes {x : Simple} : .simple x ∈ c.shapes ↔ x ∈ c.simples := by
  induction c <;> simp_all [shapes, simples]

/-- In every statement that was read each token is in its place. -/
theorem Reads.proper_of_mem_shapes (h : Reads goal s c closing rest) (hshape : shape ∈ c.shapes) :
    shape.Proper := by
  induction h with
  | nothing | atEnd | close => exact absurd hshape List.not_mem_nil
  | opened _ _ _ ih | closed _ _ _ _ ih | skip _ _ _ _ _ ih => exact ih hshape
  | simple _ hx _ ih =>
    rcases List.mem_cons.mp hshape with rfl | hrest
    · exact hx
    · exact ih hrest
  | loop _ hh _ _ ihb ih | ifThen _ hh _ _ _ ihb ih =>
    rcases List.mem_cons.mp hshape with rfl | hrest
    · exact hh
    · exact (List.mem_append.mp hrest).elim ihb ih
  | ifThenElse _ hh _ _ _ _ ihb iho ih =>
    rcases List.mem_cons.mp hshape with rfl | hrest
    · exact hh
    · rcases List.mem_append.mp hrest with hbody | hbehind
      · exact ihb hbody
      · exact (List.mem_append.mp hbehind).elim iho ih

/-- A call of a function is a statement of its own if some statement begins with it. -/
theorem Reads.any_callee?_iff (h : Reads goal s c closing rest) (name : String) :
    (c.simples.any fun x => x.callee? == some name) = true ↔
      ∃ shape ∈ c.shapes, callOf name <+: words shape.tokens := by
  rw [List.any_eq_true]
  constructor
  · rintro ⟨x, hx, hcallee⟩
    have hshape := simple_mem_shapes.mpr hx
    have hproper : x.Proper := h.proper_of_mem_shapes hshape
    exact ⟨_, hshape, (Shape.Proper.prefix_callOf_iff hproper).mpr (beq_iff_eq.mp hcallee)⟩
  · rintro ⟨shape, hshape, hcall⟩
    have hproper := h.proper_of_mem_shapes hshape
    cases shape with
    | simple x =>
      exact ⟨x, simple_mem_shapes.mp hshape,
        beq_iff_eq.mpr ((Shape.Proper.prefix_callOf_iff hproper).mp hcall)⟩
    | header kind hd => exact absurd hcall (Shape.Proper.not_prefix_callOf hproper)

end Code

namespace Program

/-- **A function is found to call itself if a statement of its body is a call of it.** Its name is then
    listed, once for the function. Some statement with a call of the function stands in the body if and only
    if the function is found or such a call stands in a value or a condition: what is found does call
    itself, and in a body without such values and conditions nothing is missed. -/
theorem recursive_callStatements {limit : Nat} {tokens : List Token} {p : Program}
    (h : read limit tokens = .ok p) :
    p.tree.facts.recursive = (p.functions.filter Function.callsItself).map (·.name.text) ∧
      ∀ f ∈ p.functions, ∀ b ∈ f.body,
        (f.callsItself = true ↔ ∃ x ∈ b.code.shapes, callOf f.name.text <+: words x.tokens) ∧
        ((∃ x ∈ b.code.shapes, callOf f.name.text <:+: words x.tokens) ↔
          f.callsItself = true ∨ ∃ x ∈ b.code.shapes, callOf f.name.text <:+: words x.expression) := by
  refine ⟨by rw [p.facts_tree]; rfl, fun f hf b hb => ?_⟩
  obtain ⟨inner, behind, hcode, -⟩ := (reads_of_read h).exists_code hf hb
  have hcalls : f.callsItself = true ↔
      ∃ x ∈ b.code.shapes, callOf f.name.text <+: words x.tokens := by
    rw [Function.callsItself, Function.simples, show f.body = some b from hb]
    exact hcode.any_callee?_iff f.name.text
  refine ⟨hcalls, ?_⟩
  rw [hcalls, ← exists_or]
  refine exists_congr fun x => ?_
  rw [← and_or_left]
  exact and_congr_right fun hx => (hcode.proper_of_mem_shapes hx).infix_callOf_iff

/-- The second function calls itself as a statement, the first one only in what it returns. -/
def returnedCall : String :=
  "int f(int n) \x7b return f(n); \x7d void g() \x7b while (g) \x7b g(); \x7d \x7d"

theorem recursive_callStatements_returnedCall :
    ∃ p, read 2 (tokenize returnedCall).tokens = .ok p ∧
      p.tree.facts.recursive = (p.functions.filter Function.callsItself).map (·.name.text) ∧
      ∀ f ∈ p.functions, ∀ b ∈ f.body,
        (f.callsItself = true ↔ ∃ x ∈ b.code.shapes, callOf f.name.text <+: words x.tokens) ∧
        ((∃ x ∈ b.code.shapes, callOf f.name.text <:+: words x.tokens) ↔
          f.callsItself = true ∨ ∃ x ∈ b.code.shapes, callOf f.name.text <:+: words x.expression) := by
  have hok : (read 2 (tokenize returnedCall).tokens).isOk = true := by decide +kernel
  obtain ⟨p, hread⟩ := exists_ok_of_isOk hok
  exact ⟨p, hread, recursive_callStatements hread⟩

/-- A call in what a function returns is missed: its body calls the function, which is not listed. -/
theorem recursive_misses_returned :
    ∃ p, read 1 (tokenize "int f(int n) \x7b return f(n); \x7d").tokens = .ok p ∧
      (∃ f ∈ p.functions, ∃ b ∈ f.body, ∃ x ∈ b.code.shapes,
        callOf f.name.text <:+: words x.tokens) ∧ p.tree.facts.recursive = [] := by
  have hread : (read 1 (tokenize "int f(int n) \x7b return f(n); \x7d").tokens).toOption.any fun p =>
      (p.functions.any fun f => f.body.any fun b => b.code.shapes.any fun x =>
        decide (callOf f.name.text <:+: words x.tokens)) &&
        (Cost.Facts.ofProgram p).recursive == [] := by decide +kernel
  cases hp : read 1 (tokenize "int f(int n) \x7b return f(n); \x7d").tokens with
  | error e =>
    rw [hp] at hread
    exact absurd hread Bool.false_ne_true
  | ok p =>
    rw [hp] at hread
    obtain ⟨hcall, hnone⟩ := Bool.and_eq_true_iff.mp hread
    obtain ⟨f, hf, hcall⟩ := List.any_eq_true.mp hcall
    obtain ⟨b, hb, hcall⟩ := Option.any_eq_true _ _ |>.mp hcall
    obtain ⟨x, hx, hcall⟩ := List.any_eq_true.mp hcall
    refine ⟨p, rfl, ⟨f, hf, b, hb, x, hx, of_decide_eq_true hcall⟩, ?_⟩
    rw [p.facts_tree]
    exact beq_iff_eq.mp hnone

end Program

end BraceLang
