import BraceLang.Proofs.Forest
import BraceLang.Proofs.Layout.Outline
import BraceLang.Scope.Resolve

/-!
# `Proofs.Layout.Scopes` — the scopes of a relocated program

Names are looked up by their texts, so a relocation does not change what a name means. The copies of a
declaration are known by a span, and this is the one place where an analysis compares places: the
copies found are those that were found before, because a relocation keeps tokens apart.

The lines of a scope come from the tokens around its block. Nothing that is found out depends on them,
so scopes are first compared without their lines, and then without any place.

## Contents
- `Variable.bare`, `Scope.bare` and `Diagnostic.bare`, which give up places.
- `Relocation.localVariable`, `Relocation.scope` and `Relocation.resolved`, up to lines.
- `unlined_resolve`: looking names up goes along with a relocation.
- `Scopes.shareByStart` and `shareUsage_scope`: so does sharing usage.
- **`bare_scopes`** and `Scopes.bare_diagnostics`.
-/

namespace BraceLang

/-! ## Without places -/

/-- The variable without its place. -/
def Variable.bare (v : Variable) : Variable := { v with position := default, span := default }

namespace Scope

/-- The scope without the lines of its block. -/
def unlined (s : Scope) : Scope := { s with startLine := 0, endLine := 0 }

/-- The scope without the places of its block and of its variables. -/
def bare (s : Scope) : Scope := { s.unlined with locals := s.locals.map Variable.bare }

end Scope

/-- What was found, without the lines of the scopes. -/
def Resolved.unlined (found : Resolved) : Resolved := ⟨found.scopes.map Scope.unlined, found.free⟩

/-- The finding without its place. -/
def Diagnostic.bare (d : Diagnostic) : Diagnostic := { d with position := default, span := default }

namespace Relocation

variable (r : Relocation)

/-- The variable at its new place. -/
def localVariable (v : Variable) : Variable :=
  { v with position := r.position v.span.start, span := r.span v.span.start }

/-- The scope with its variables at their new places, and without lines. -/
def scope (s : Scope) : Scope := { s.unlined with locals := s.locals.map r.localVariable }

/-- What was found, with the variables at their new places and without lines. -/
def resolved (found : Resolved) : Resolved := ⟨found.scopes.map r.scope, found.free⟩

theorem bare_scope (s : Scope) : (r.scope s).bare = s.bare := by
  rw [Scope.bare, scope, List.map_map]
  rfl

/-! ## Declarations and references -/

theorem declaredVariable?_simple (x : Simple) :
    (r.simple x).declaredVariable? = x.declaredVariable?.map r.localVariable := by
  cases x with
  | declaration type name suffix initializer semicolon =>
    have hspan : (Label.ofToken .identifier (r.token name)).span = r.span name.span.start := by
      show Span.mk _ (max (r.span _).stop (r.span _).start) = _
      rw [Nat.max_eq_left (r.ordered _)]
      rfl
    rw [simple, Simple.declaredVariable?, typeText_tokens, hspan]
    rfl
  | _ => rfl

theorem declarations_code (isolate : Bool) (c : Code) :
    (r.code c).declarations isolate = (c.declarations isolate).map r.localVariable := by
  have htoList (o : Option Variable) : (o.map r.localVariable).toList = o.toList.map r.localVariable := by
    cases o <;> rfl
  induction c with
  | done => rfl
  | skip t rest ih => exact ih
  | simple x rest ih =>
    rw [code, Code.declarations, declaredVariable?_simple, htoList, ih, ← List.map_append]
    rfl
  | loop kind h body closing rest ihb ih | ifThen h body closing rest ihb ih =>
    rw [code, Code.declarations, ihb, ih, Code.declarations, List.map_append]
    cases isolate <;> rfl
  | ifThenElse h body closing e other otherClosing rest ihb iho ih =>
    rw [code, Code.declarations, ihb, iho, ih, Code.declarations, List.map_append]
    cases isolate
    · show _ ++ _ ++ _ = List.map _ (_ ++ _) ++ _
      rw [List.map_append]
    · rfl

theorem identifierTexts_tokens (run : List Token) :
    identifierTexts (r.tokens run) = identifierTexts run := by
  rw [identifierTexts, tokens, List.filter_map, List.map_map]
  rfl

theorem references_simple (x : Simple) : (r.simple x).references = x.references := by
  cases x with
  | declaration type name suffix initializer semicolon =>
    cases initializer with
    | none => rfl
    | some i => exact r.identifierTexts_tokens i.value
  | call name opening arguments closing semicolon => exact r.identifierTexts_tokens arguments
  | ret keyword value semicolon => exact r.identifierTexts_tokens value
  | assignment target operator value semicolon =>
    exact congrArg (target.text :: ·) (r.identifierTexts_tokens value)

theorem references_code (c : Code) : (r.code c).references = c.references := by
  induction c with
  | done => rfl
  | skip t rest ih => exact ih
  | simple x rest ih => rw [code, Code.references, Code.references, references_simple, ih]
  | _ => simp only [code, Code.references, header, identifierTexts_tokens, *]

/-! ## Looking names up -/

section Above

variable {r} {s s₀ : Scope} {found found₀ more more₀ : Resolved}

theorem declares_scope (s : Scope) (name : String) : (r.scope s).declares name = s.declares name := by
  rw [Scope.declares, scope, List.any_map]
  rfl

/-- A mark that only asks for words goes along with a relocation. -/
theorem markWhere_scope {p q : Variable → Bool} (s : Scope) (hpq : ∀ v, p (r.localVariable v) = q v) :
    (r.scope s).markWhere p = r.scope (s.markWhere q) := by
  rw [Scope.markWhere, scope, scope, List.map_map, Scope.markWhere, List.map_map]
  congr 1
  apply List.map_congr_left
  intro v _
  show { r.localVariable v with used := v.used || p (r.localVariable v) } = _
  rw [hpq]
  rfl

theorem unlined_absorb (names : List String) (hs : s.unlined = r.scope s₀) :
    (s.absorb names).1.unlined = r.scope (s₀.absorb names).1 ∧
      (s.absorb names).2 = (s₀.absorb names).2 := by
  have hmark : s.unlined.markWhere (fun v => names.contains v.name) =
      r.scope (s₀.markWhere fun v => names.contains v.name) := by
    rw [hs]
    exact markWhere_scope s₀ fun v => rfl
  have hdeclares : s.declares = s₀.declares := by
    funext name
    rw [← declares_scope (r := r) s₀, ← hs]
    rfl
  exact ⟨hmark, by rw [Scope.absorb, hdeclares]; rfl⟩

theorem unlined_above (config : Config) (references : List String) (hs : s.unlined = r.scope s₀)
    (hfound : found.unlined = r.resolved found₀) :
    (Scope.above config s references found).unlined =
      r.resolved (Scope.above config s₀ references found₀) := by
  obtain ⟨hscopes, hfree⟩ := Resolved.mk.inj hfound
  rw [Scope.above, Scope.above]
  split
  · -- the scopes inside leave the same names, so both scopes absorb the same ones
    obtain ⟨hmark, hrest⟩ := unlined_absorb (references ++ found₀.free) hs
    rw [hfree]
    show Resolved.mk (.node (s.absorb _).1.unlined _ .nil) (s.absorb _).2 =
      ⟨.node (r.scope (s₀.absorb _).1) _ .nil, (s₀.absorb _).2⟩
    rw [hmark, hrest, hscopes]
  · show Resolved.mk (.node _ _ .nil) _ = ⟨.node _ _ .nil, _⟩
    rw [hs, hscopes]

theorem unlined_append (hfound : found.unlined = r.resolved found₀)
    (hmore : more.unlined = r.resolved more₀) :
    (found.append more).unlined = r.resolved (found₀.append more₀) := by
  obtain ⟨hscopes, hfree⟩ := Resolved.mk.inj hfound
  obtain ⟨hscopes', hfree'⟩ := Resolved.mk.inj hmore
  rw [Resolved.unlined, resolved, Resolved.append, Resolved.append]
  rw [Forest.map_append, Forest.map_append, hscopes, hscopes', hfree, hfree']

/-- The scope of a block goes along with a relocation, whatever the tokens around the block are. -/
theorem unlined_ofBlock (config : Config) (name : String) (kind : Scope.Kind)
    (first last first₀ last₀ : Token) (c : Code) (hfound : found.unlined = r.resolved found₀) :
    (Scope.ofBlock config name kind first last (r.code c) found).unlined =
      r.resolved (Scope.ofBlock config name kind first₀ last₀ c found₀) := by
  rw [Scope.ofBlock, declarations_code, references_code]
  exact unlined_above config c.references rfl hfound

/-- **Looking names up goes along with a relocation.** -/
theorem unlined_resolve (config : Config) (c : Code) :
    ((r.code c).resolve config).unlined = r.resolved (c.resolve config) := by
  induction c with
  | done => rfl
  | skip t rest ih | simple x rest ih => exact ih
  | loop kind h body closing rest ihb ih | ifThen h body closing rest ihb ih =>
    exact unlined_append (unlined_ofBlock _ _ _ _ _ _ _ body ihb) ih
  | ifThenElse h body closing e other otherClosing rest ihb iho ih =>
    exact unlined_append (unlined_ofBlock _ _ _ _ _ _ _ body ihb)
      (unlined_append (unlined_ofBlock _ _ _ _ _ _ _ other iho) ih)

end Above

end Relocation

/-! ## Sharing usage -/

namespace Scopes

/-- The bytes where the declarations start of which some copy is used. -/
def usedStarts (scopes : Scopes) : List Nat :=
  ((scopes.labels.flatMap (·.locals)).filter (·.used)).map (·.span.start)

/-- Marks every variable that starts where a used one does. -/
def shareByStart (scopes : Scopes) : Scopes :=
  scopes.map fun s => s.markWhere fun v => scopes.usedStarts.contains v.span.start

theorem shareUsage_unlined (scopes : Scopes) :
    shareUsage (scopes.map Scope.unlined) = scopes.shareUsage.map Scope.unlined := by
  have hused : usedSpans (scopes.map Scope.unlined) = scopes.usedSpans := by
    rw [usedSpans, Forest.labels_map, List.flatMap_map]
    rfl
  rw [shareUsage, hused, Forest.map_map, shareUsage, Forest.map_map]
  rfl

theorem contains_usedSpans_scope (r : Relocation) (scopes : Scopes) (v : Variable) :
    (usedSpans (scopes.map r.scope)).contains (r.localVariable v).span =
      scopes.usedStarts.contains v.span.start := by
  have hlocals : ((scopes.map r.scope).labels.flatMap (·.locals)) =
      (scopes.labels.flatMap (·.locals)).map r.localVariable := by
    rw [Forest.labels_map, List.flatMap_map, List.map_flatMap]
    rfl
  rw [Bool.eq_iff_iff, List.contains_iff_mem, List.contains_iff_mem, usedSpans, List.mem_eraseDups,
    hlocals, List.filter_map, List.map_map, usedStarts, List.mem_map, List.mem_map]
  constructor
  · -- a used variable at the same new place was at the same byte before
    rintro ⟨w, hw, hspan⟩
    exact ⟨w, hw, r.span_inj hspan⟩
  · rintro ⟨w, hw, hstart⟩
    exact ⟨w, hw, congrArg r.span hstart⟩

/-- **Sharing usage goes along with a relocation**, up to where the copies of a declaration are said to
stand. -/
theorem shareUsage_scope (r : Relocation) (scopes : Scopes) :
    shareUsage (scopes.map r.scope) = scopes.shareByStart.map r.scope := by
  rw [shareUsage, Forest.map_map, shareByStart, Forest.map_map]
  congr 1
  funext s
  exact Relocation.markWhere_scope s (contains_usedSpans_scope r scopes)

variable {r : Relocation} {config : Config} {scopes scopes₀ : Scopes}

/-- What is settled about scopes, up to places, does not depend on the relocation that they have gone
along with. -/
theorem bare_settle (h : scopes.map Scope.unlined = scopes₀.map r.scope) :
    (scopes.settle config).map Scope.bare =
      (if config.trackUsage && !config.isolateScopes then scopes₀.shareByStart else scopes₀).map
        Scope.bare := by
  have hbare (a : Scopes) : a.map Scope.bare = (a.map Scope.unlined).map Scope.bare := by
    rw [Forest.map_map]
    rfl
  have hscope : Scope.bare ∘ r.scope = Scope.bare := funext r.bare_scope
  rw [settle, hbare]
  split
  · rw [← shareUsage_unlined, h, shareUsage_scope, Forest.map_map, hscope]
  · rw [h, Forest.map_map, hscope]

/-- The findings about variables, up to places, depend on the scopes up to places. -/
theorem bare_diagnostics (scopes : Scopes) :
    scopes.diagnostics.map Diagnostic.bare =
      (diagnostics (scopes.map Scope.bare)).map Diagnostic.bare := by
  rw [diagnostics, diagnostics, Forest.labels_map, List.flatMap_map, List.map_flatMap,
    List.map_flatMap]
  congr 1
  funext s
  have hunused : s.bare.unused = s.unused.map Variable.bare := List.filter_map
  rw [hunused, List.map_map, List.map_map, List.map_map]
  rfl

end Scopes

/-! ## The scopes of a program -/

namespace Relocation

/-- The scopes of a function, up to places, are the same wherever its tokens stand. -/
theorem bare_scopes_function (r other : Relocation) (config : Config) (f : Function) :
    ((r.function f).scopes config).map Scope.bare =
      ((other.function f).scopes config).map Scope.bare := by
  obtain ⟨type, name, parameters, body, semicolon⟩ := f
  cases body with
  | none => rfl
  | some b =>
    have hscopes (q : Relocation) :
        (Scope.ofBlock config name.text .function (q.block b).brace (q.block b).last (q.code b.code)
            ((q.code b.code).resolve config)).scopes.map Scope.unlined =
          (Scope.ofBlock config name.text .function b.brace b.last b.code
            (b.code.resolve config)).scopes.map q.scope :=
      congrArg Resolved.scopes (unlined_ofBlock _ _ _ _ _ _ _ b.code (q.unlined_resolve config b.code))
    exact (Scopes.bare_settle (hscopes r)).trans (Scopes.bare_settle (hscopes other)).symm

/-- **The scopes of a program, up to places, are the same wherever its tokens stand.** -/
theorem bare_scopes (r other : Relocation) (config : Config) (p : Program) :
    ((r.program p).scopes config).map Scope.bare =
      ((other.program p).scopes config).map Scope.bare := by
  rw [Program.scopes, functions_program, Program.scopes, functions_program]
  induction p.functions with
  | nil => rfl
  | cons f fs ih =>
    rw [List.map_cons, List.foldr_cons, Forest.map_append, ih, bare_scopes_function r other,
      ← Forest.map_append]
    rfl

end Relocation

end BraceLang
