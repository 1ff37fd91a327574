import BraceLang.Proofs.Forest
import BraceLang.Scope.Resolve

/-!
# `Proofs.Scope.Frames` — the scopes of a program apart from usage

Looking names up and sharing usage change nothing about a scope but which of its variables are used.
Without these marks the scopes of a program can be read off its blocks: each block has a scope over
those of the blocks inside it.

## Contents
- `Variable.unmarked` and `Scope.unmarked`, which give up the marks.
- `Code.frames`, `Function.frames` and `Program.frames`, the scopes without marks.
- `Code.map_unmarked_resolve` and **`Program.map_unmarked_scopes`**.
-/

namespace BraceLang

/-! ## Without marks -/

/-- The variable, not used. -/
def Variable.unmarked (v : Variable) : Variable := { v with used := false }

namespace Scope

/-- The scope with none of its variables used. -/
def unmarked (s : Scope) : Scope := { s with locals := s.locals.map Variable.unmarked }

theorem unmarked_markWhere (s : Scope) (p : Variable → Bool) :
    (s.markWhere p).unmarked = s.unmarked := by
  rw [markWhere, unmarked, List.map_map]
  rfl

/-- The scope of a block that goes from one token to another, when no name has been looked up. -/
def frame (isolate : Bool) (name : String) (kind : Kind) (first last : Token) (c : Code) : Scope :=
  ⟨name, kind, first.position.line, last.endPosition.line, c.declarations isolate⟩

end Scope

/-- The marks are given up by settling which variables are used. -/
theorem Scopes.map_unmarked_settle (config : Config) (scopes : Scopes) :
    (scopes.settle config).map Scope.unmarked = scopes.map Scope.unmarked := by
  rw [settle]
  split
  · rw [shareUsage, Forest.map_map]
    exact congrArg (scopes.map ·) (funext fun s => s.unmarked_markWhere _)
  · rfl

/-! ## Frames -/

/-- The scopes of the blocks in some code, when no name has been looked up. -/
def Code.frames (isolate : Bool) : Code → Scopes
  | .done => .nil
  | .skip _ rest | .simple _ rest => rest.frames isolate
  | .loop kind h body closing rest =>
    .node (Scope.frame isolate kind.scopeKind.name kind.scopeKind h.brace
        (blockLast h.brace body closing) body)
      (body.frames isolate) (rest.frames isolate)
  | .ifThen h body closing rest =>
    .node (Scope.frame isolate Scope.Kind.ifBody.name .ifBody h.brace
        (blockLast h.brace body closing) body)
      (body.frames isolate) (rest.frames isolate)
  | .ifThenElse h body closing e other otherClosing rest =>
    .node (Scope.frame isolate Scope.Kind.ifBody.name .ifBody h.brace
        (blockLast h.brace body closing) body)
      (body.frames isolate) <|
    .node (Scope.frame isolate Scope.Kind.elseBranch.name .elseBranch e.keyword
        (elseLast e other otherClosing) other)
      (other.frames isolate) (rest.frames isolate)

/-- The scopes of a function, when no name has been looked up. -/
def Function.frames (isolate : Bool) (f : Function) : Scopes :=
  match f.body with
  | none => .nil
  | some b =>
    .single (Scope.frame isolate f.name.text .function b.brace b.last b.code) (b.code.frames isolate)

/-- The scopes of some functions, one after the other, when no name has been looked up. -/
def Program.framesOf (isolate : Bool) : List Function → Scopes
  | [] => .nil
  | f :: fs => f.frames isolate ++ framesOf isolate fs

/-- The scopes of a program, when no name has been looked up. -/
def Program.frames (isolate : Bool) (p : Program) : Scopes := framesOf isolate p.functions

/-! ## Scopes without marks are frames -/

/-- A declared variable is not used. -/
theorem Simple.unmarked_of_mem {s : Simple} {v : Variable} (h : v ∈ s.declaredVariable?) :
    v.unmarked = v := by
  cases s with
  | declaration type name suffix initializer semicolon =>
    obtain rfl := Option.mem_some_iff.mp h
    rfl
  | _ => exact nomatch h

namespace Code

theorem map_unmarked_declarations (isolate : Bool) (c : Code) :
    (c.declarations isolate).map Variable.unmarked = c.declarations isolate := by
  have hinner (a : List Variable) (ha : a.map Variable.unmarked = a) :
      (if isolate then [] else a).map Variable.unmarked = if isolate then [] else a := by
    split
    · rfl
    · exact ha
  induction c with
  | done => rfl
  | skip _ rest ih => exact ih
  | simple s rest ih =>
    have hown : s.declaredVariable?.toList.map Variable.unmarked = s.declaredVariable?.toList :=
      (List.map_congr_left fun v hv => s.unmarked_of_mem (Option.mem_toList.mp hv)).trans
        (List.map_id _)
    rw [declarations, List.map_append, hown, ih]
  | loop _ _ body _ rest ihb ih | ifThen _ body _ rest ihb ih =>
    rw [declarations, List.map_append, hinner _ ihb, ih]
  | ifThenElse _ body _ _ other _ rest ihb iho ih =>
    have hboth := hinner (body.declarations isolate ++ other.declarations isolate)
      (by rw [List.map_append, ihb, iho])
    rw [declarations, List.map_append, hboth, ih]

end Code

/-- The scope of a block, without marks, is the frame of the block over what is inside it. -/
theorem Scope.map_unmarked_ofBlock (config : Config) (name : String) (kind : Kind)
    (first last : Token) (c : Code) (inner : Resolved) :
    (ofBlock config name kind first last c inner).scopes.map unmarked =
      .single (frame config.isolateScopes name kind first last c) (inner.scopes.map unmarked) := by
  have hframe : (frame config.isolateScopes name kind first last c).unmarked =
      frame config.isolateScopes name kind first last c := by
    rw [frame, unmarked, c.map_unmarked_declarations]
  rw [ofBlock, above]
  split
  · show Forest.node (markWhere _ _).unmarked _ .nil = _
    rw [unmarked_markWhere]
    exact congrArg (Forest.node · _ .nil) hframe
  · exact congrArg (Forest.node · _ .nil) hframe

theorem Code.map_unmarked_resolve (config : Config) (c : Code) :
    (c.resolve config).scopes.map Scope.unmarked = c.frames config.isolateScopes := by
  induction c with
  | done => rfl
  | skip _ rest ih | simple _ rest ih => exact ih
  | loop kind h body closing rest ihb ih | ifThen h body closing rest ihb ih =>
    rw [resolve, Resolved.append, Scope.ofInner, Forest.map_append, Scope.map_unmarked_ofBlock,
      ihb, ih]
    rfl
  | ifThenElse h body closing e other otherClosing rest ihb iho ih =>
    rw [resolve, Resolved.append, Resolved.append, Scope.ofInner, Scope.ofInner, Forest.map_append,
      Forest.map_append, Scope.map_unmarked_ofBlock, Scope.map_unmarked_ofBlock, ihb, iho, ih]
    rfl

theorem Function.map_unmarked_scopes (config : Config) (f : Function) :
    (f.scopes config).map Scope.unmarked = f.frames config.isolateScopes := by
  rw [scopes, frames]
  cases f.body with
  | none => rfl
  | some b =>
    dsimp only
    rw [Scopes.map_unmarked_settle, Scope.map_unmarked_ofBlock, b.code.map_unmarked_resolve]

/-- **Apart from usage, the scopes of a program are read off its blocks.** -/
theorem Program.map_unmarked_scopes (config : Config) (p : Program) :
    (p.scopes config).map Scope.unmarked = p.frames config.isolateScopes := by
  rw [scopes, frames]
  induction p.functions with
  | nil => rfl
  | cons f fs ih =>
    rw [List.foldr_cons, Forest.map_append, f.map_unmarked_scopes, ih, framesOf]

end BraceLang
