import BraceLang.Proofs.Reading.Bodies
import BraceLang.Proofs.Reading.Extents
import BraceLang.Proofs.Scope.Declared
import BraceLang.Proofs.Token.Lines

/-!
# `Proofs.Scope.Lines` — the lines of scopes

A scope goes from the line where its block begins to the line where the block ends. Blocks stand inside one
another or one behind the other, and so do the lines of their scopes, up to a line that two of them share.

## Contents
- `Scope.Covers` and `Scopes.Within`, with `Within.widen`, `Within.append` and
  `within_map_unmarked`.
- `Within.of_mem_subtrees`, `Within.of_mem_roots` and `Within.pairwise_roots`, what it says of the scopes.
- `Scope.within_block`, the scope of a block, and **`Code.within_frames`**.
- **`Program.within_scopes`**.
-/

namespace BraceLang

/-! ## Scopes between two lines -/

/-- The lines of the scope are in order, and its variables are declared between them. -/
def Scope.Covers (s : Scope) : Prop :=
  s.startLine ≤ s.endLine ∧ ∀ v ∈ s.locals, s.containsLine v.position.line = true

/-- The scopes stand one behind the other from the line `lo` on and up to the line `hi`, and so do the
    scopes inside of each between its own lines. -/
def Scopes.Within (lo hi : Nat) : Scopes → Prop
  | .nil => lo ≤ hi
  | .node s inner rest =>
    lo ≤ s.startLine ∧ s.Covers ∧ Scopes.Within s.startLine s.endLine inner ∧
      Scopes.Within s.endLine hi rest

theorem Scope.covers_unmarked {s : Scope} : s.unmarked.Covers ↔ s.Covers :=
  and_congr Iff.rfl List.forall_mem_map

namespace Scopes

variable {lo hi mid : Nat} {scopes more inner : Scopes} {s : Scope}

/-- The marks of variables have no part in it. -/
theorem within_map_unmarked : Within lo hi (scopes.map Scope.unmarked) ↔ Within lo hi scopes := by
  induction scopes generalizing lo hi with
  | nil => rfl
  | node s inner rest ihc ihs =>
    rw [Forest.map, Within, Within, Scope.covers_unmarked, ihc, ihs]
    rfl

namespace Within

theorem le (h : Within lo hi scopes) : lo ≤ hi := by
  induction scopes generalizing lo with
  | nil => exact h
  | node s inner rest _ ih =>
    obtain ⟨hlo, ⟨hown, -⟩, -, hrest⟩ := h
    have hbehind := ih hrest
    omega

theorem widen {lo' hi' : Nat} (h : Within lo hi scopes) (hlo : lo' ≤ lo) (hhi : hi ≤ hi') :
    Within lo' hi' scopes := by
  induction scopes generalizing lo lo' with
  | nil => exact Nat.le_trans (Nat.le_trans hlo h) hhi
  | node s inner rest _ ih =>
    obtain ⟨hfirst, hown, hinner, hrest⟩ := h
    exact ⟨Nat.le_trans hlo hfirst, hown, hinner, ih hrest (Nat.le_refl _)⟩

theorem append (h : Within lo mid scopes) (hmore : Within mid hi more) :
    Within lo hi (scopes ++ more) := by
  induction scopes generalizing lo with
  | nil => exact hmore.widen h (Nat.le_refl hi)
  | node s inner rest _ ih =>
    obtain ⟨hfirst, hown, hinner, hrest⟩ := h
    exact ⟨hfirst, hown, hinner, ih hrest⟩

/-- Every scope covers its variables, and the scopes inside it stand between its lines. -/
theorem of_mem_subtrees (h : Within lo hi scopes) (hs : (s, inner) ∈ scopes.subtrees) :
    s.Covers ∧ Within s.startLine s.endLine inner := by
  induction scopes generalizing lo hi with
  | nil => exact absurd hs List.not_mem_nil
  | node first below rest ihc ihs =>
    obtain ⟨-, hown, hinner, hrest⟩ := h
    rcases List.mem_cons.mp hs with heq | hs
    · obtain ⟨rfl, rfl⟩ := Prod.mk.inj heq
      exact ⟨hown, hinner⟩
    · exact (List.mem_append.mp hs).elim (ihc hinner) (ihs hrest)

/-- The scopes at the top stand between the two lines. -/
theorem of_mem_roots (h : Within lo hi scopes) (hs : s ∈ scopes.roots) :
    lo ≤ s.startLine ∧ s.endLine ≤ hi := by
  induction scopes generalizing lo with
  | nil => exact absurd hs List.not_mem_nil
  | node first below rest _ ih =>
    obtain ⟨hfirst, ⟨hown, -⟩, -, hrest⟩ := h
    rcases List.mem_cons.mp hs with rfl | hs
    · exact ⟨hfirst, hrest.le⟩
    · obtain ⟨hlo, hhi⟩ := ih hrest hs
      exact ⟨by omega, hhi⟩

/-- The scopes at the top stand one behind the other. -/
theorem pairwise_roots (h : Within lo hi scopes) :
    scopes.roots.Pairwise fun a b => a.endLine ≤ b.startLine := by
  induction scopes generalizing lo with
  | nil => exact .nil
  | node first below rest _ ih =>
    obtain ⟨-, -, -, hrest⟩ := h
    exact .cons (fun s hs => (hrest.of_mem_roots hs).1) (ih hrest)

end Within

end Scopes

/-! ## The scopes of code -/

variable {lo hi mid : Nat}

/-- Behind a header a block begins with the brace of the header. -/
theorem InLines.behind_header {h : Header} {inner more : List Token}
    (hrow : InLines lo hi (h.tokens ++ (inner ++ more))) :
    ∃ mid, InLines lo mid (h.brace :: inner) ∧ InLines mid hi more := by
  have hparts : h.tokens ++ (inner ++ more) =
      (h.keyword :: h.opening :: (h.condition ++ [h.closing])) ++ ((h.brace :: inner) ++ more) := by
    simp [Header.tokens]
  rw [hparts] at hrow
  obtain ⟨first, hhead, hrest⟩ := inLines_append.mp hrow
  obtain ⟨mid, hblock, hmore⟩ := inLines_append.mp hrest
  exact ⟨mid, hblock.widen hhead.le (Nat.le_refl mid), hmore⟩

/-- A variable has the place of a token of the code that it is declared in. -/
theorem Code.exists_mem_tokens_of_mem_declarations {c : Code} {isolate : Bool} {v : Variable}
    (h : v ∈ c.declarations isolate) : ∃ t ∈ c.tokens, t.position = v.position := by
  have hall := (c.declarations_sublist isolate).subset h
  rw [c.declarations_false] at hall
  obtain ⟨x, hx, hdeclares⟩ := List.mem_filterMap.mp hall
  cases x with
  | declaration type name suffix initializer semicolon =>
    obtain rfl := Option.some.inj hdeclares
    have hname : name ∈ (Simple.declaration type name suffix initializer semicolon).tokens :=
      List.mem_cons_of_mem _ List.mem_cons_self
    exact ⟨name, (tokens_of_mem_simples hx).subset hname, rfl⟩
  | _ => nomatch hdeclares

/-- The scope of a block stands where the tokens of the block do, before the scopes behind it. -/
theorem Scope.within_block {isolate : Bool} {name : String} {kind : Kind} {first last : Token}
    {run : List Token} {c : Code} {rest : Scopes} (hrow : InLines lo mid (first :: run))
    (hlast : (first :: run).getLast? = some last) (hcode : c.tokens <:+: first :: run)
    (hinner : ∀ lo hi, InLines lo hi c.tokens → Scopes.Within lo hi (c.frames isolate))
    (hrest : Scopes.Within mid hi rest) :
    Scopes.Within lo hi (.node (frame isolate name kind first last c) (c.frames isolate) rest) := by
  obtain ⟨hlo, hblock, hmid⟩ := hrow.tighten hlast
  have hin := hblock.of_infix hcode
  refine ⟨hlo, ⟨hin.le, ?_⟩, hinner _ _ hin, hrest.widen hmid (Nat.le_refl hi)⟩
  intro v hv
  obtain ⟨t, ht, hposition⟩ := Code.exists_mem_tokens_of_mem_declarations hv
  obtain ⟨hstart, hown, hend⟩ := hin.of_mem ht
  rw [containsLine, Bool.and_eq_true, decide_eq_true_iff, decide_eq_true_iff, ← hposition]
  exact ⟨hstart, Nat.le_trans hown hend⟩

/-- **The scopes of some code stand where its tokens do.** -/
theorem Code.within_frames (isolate : Bool) (c : Code) (lo hi : Nat) (h : InLines lo hi c.tokens) :
    Scopes.Within lo hi (c.frames isolate) := by
  induction c generalizing lo hi with
  | done => exact h
  | skip x rest ih => exact ih lo hi (h.of_infix (List.infix_cons (List.infix_refl _)))
  | simple s rest ih => exact ih lo hi (h.of_infix (List.suffix_append _ _).isInfix)
  | loop kind hd body closing rest ihb ih | ifThen hd body closing rest ihb ih =>
    rw [tokens, ← List.append_assoc body.tokens] at h
    obtain ⟨mid, hblock, hrest⟩ := h.behind_header
    exact Scope.within_block hblock (getLast?_block _ _ _)
      (List.infix_cons (List.prefix_append _ _).isInfix) ihb (ih mid hi hrest)
  | ifThenElse hd body closing e other otherClosing rest ihb iho ih =>
    have hparts : (ifThenElse hd body closing e other otherClosing rest).tokens =
        hd.tokens ++ ((body.tokens ++ closing.toList) ++
          ((e.tokens ++ (other.tokens ++ otherClosing.toList)) ++ rest.tokens)) := by
      simp only [tokens, List.append_assoc]
    rw [hparts] at h
    obtain ⟨mid, hblock, hbehind⟩ := h.behind_header
    obtain ⟨mid', helse, hrest⟩ := inLines_append.mp hbehind
    refine Scope.within_block hblock (getLast?_block _ _ _)
      (List.infix_cons (List.prefix_append _ _).isInfix) ihb ?_
    exact Scope.within_block helse (getLast?_else e other otherClosing)
      ⟨e.tokens, otherClosing.toList, List.append_assoc _ _ _⟩ iho (ih mid' hi hrest)

/-- The scopes of a function stand where its tokens do. -/
theorem Function.within_frames (isolate : Bool) (f : Function) (h : InLines lo hi f.tokens) :
    Scopes.Within lo hi (f.frames isolate) := by
  rw [frames]
  rw [tokens] at h
  cases hb : f.body with
  | none => exact h.le
  | some b =>
    have hblock : InLines lo hi b.tokens := by
      refine h.of_infix ⟨f.type :: f.name :: f.parameters.tokens, f.semicolon.toList, ?_⟩
      rw [hb]
      simp
    exact Scope.within_block hblock (getLast?_block _ _ _)
      (List.infix_cons (List.prefix_append _ _).isInfix) (b.code.within_frames isolate)
      (Nat.le_refl hi)

namespace Program

/-- The scopes of a program stand where its tokens do. -/
theorem within_frames (isolate : Bool) (p : Program) (h : InLines lo hi p.tokens) :
    Scopes.Within lo hi (p.frames isolate) := by
  obtain ⟨items⟩ := p
  induction items generalizing lo with
  | nil => exact h
  | cons item items ih =>
    obtain ⟨mid, hitem, hitems⟩ := inLines_append.mp h
    have hrest := ih hitems
    cases item with
    | function f => exact (f.within_frames isolate hitem).append hrest
    | skipped t => exact hrest.widen hitem.le (Nat.le_refl hi)

/-- **The scopes of a program that was read from a source stand inside one another and one behind the
other.** -/
theorem within_scopes {source : String} {limit : Nat} {p : Program}
    (hread : read limit (tokenize source).tokens = .ok p) (config : Config) :
    Scopes.Within 1 (source.toList.count '\n' + 1) (p.scopes config) := by
  rw [← Scopes.within_map_unmarked, p.map_unmarked_scopes]
  apply p.within_frames
  rw [read_tokens hread]
  exact tokenize_inLines source

end Program

end BraceLang
