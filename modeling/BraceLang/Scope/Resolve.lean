import BraceLang.Config
import BraceLang.Diagnostic
import BraceLang.Program.Outline
import BraceLang.Scope.Basic

/-!
# `Scope.Resolve` — the scopes of a program, and which of their variables are used

Every block of a function has a scope: the body of the function and, inside of it, each body of an
`if` or a loop and each `else`. A declaration belongs to its own block. Unless scopes are isolated
it counts in every block around that one as well, where it is a copy of the same declaration.

A name that is read or assigned is looked up from the block it stands in outward. The first scope
that declares the name keeps it, and all variables of that name in this scope are used. If the
scopes are not isolated, a declaration of which one copy is used is used in all of its copies.

## Contents
- `Simple.declaredVariable?`, `Simple.references`: what a statement declares, and the names it
  uses.
- `Code.declarations`, `Code.references`: the same for the code of a block.
- `Scope.absorb`, one step of looking names up, and `Code.resolve`, all of them.
- `Scopes.shareUsage`, which makes the copies of a declaration agree, and `Scopes.settle`, which does
  so where there can be copies.
- `Program.scopes` and `Scopes.diagnostics`, the finding about each unused variable.
-/

namespace BraceLang

/-- The names among some tokens. -/
def identifierTexts (tokens : List Token) : List String :=
  (tokens.filter (·.kind == .identifier)).map (·.text)

namespace Simple

/-- The variable that a statement declares, not used so far. -/
def declaredVariable? : Simple → Option Variable
  | .declaration type name suffix _ _ =>
    some ⟨name.text, typeText type suffix, name.position, (Label.ofToken .identifier name).span,
      false⟩
  | _ => none

/-- The names that a statement reads or assigns. The name of a called function is not among them,
    nor are the names in the brackets of an array. -/
def references : Simple → List String
  | .declaration _ _ _ initializer _ =>
    identifierTexts ((initializer.map Initializer.value).getD [])
  | .call _ _ arguments _ _ => identifierTexts arguments
  | .ret _ value _ => identifierTexts value
  | .assignment target _ value _ => target.text :: identifierTexts value

end Simple

namespace Code

/-- The variables declared in the code of a block, in source order, with those of the blocks inside
    it unless scopes are isolated. -/
def declarations (isolate : Bool) : Code → List Variable
  | done => []
  | skip _ rest => rest.declarations isolate
  | simple s rest => s.declaredVariable?.toList ++ rest.declarations isolate
  | loop _ _ body _ rest | ifThen _ body _ rest =>
    (if isolate then [] else body.declarations isolate) ++ rest.declarations isolate
  | ifThenElse _ body _ _ other _ rest =>
    (if isolate then [] else body.declarations isolate ++ other.declarations isolate) ++
      rest.declarations isolate

/-- The names read or assigned in the code of a block, without those in the blocks inside it. The
    condition of a statement belongs to the block that the statement stands in. -/
def references : Code → List String
  | done => []
  | skip _ rest => rest.references
  | simple s rest => s.references ++ rest.references
  | loop _ h _ _ rest | ifThen h _ _ rest | ifThenElse h _ _ _ _ _ rest =>
    identifierTexts h.condition ++ rest.references

end Code

/-- Scopes side by side, and the names that are used in them but that none of them declares. -/
structure Resolved where
  scopes : Scopes
  free : List String
  deriving DecidableEq, Repr

/-- Looks names up in a scope: marks what they mean there, and gives back those that mean nothing
    there. -/
def Scope.absorb (s : Scope) (names : List String) : Scope × List String :=
  (s.markWhere fun v => names.contains v.name, names.filter fun name => !s.declares name)

/-- A scope above the scopes inside it. Unless usage is not tracked, the names used in the block and
    those that the scopes inside it leave are looked up in the scope. -/
def Scope.above (config : Config) (scope : Scope) (references : List String) (inner : Resolved) :
    Resolved :=
  if config.trackUsage then
    let (scope, free) := scope.absorb (references ++ inner.free)
    ⟨.single scope inner.scopes, free⟩
  else ⟨.single scope inner.scopes, []⟩

/-- The scope of a block and the scopes inside it. The block goes from the token `first` to the
    token `last`, and `inner` is what was found in the blocks inside it. -/
def Scope.ofBlock (config : Config) (name : String) (kind : Scope.Kind) (first last : Token)
    (code : Code) (inner : Resolved) : Resolved :=
  Scope.above config
    ⟨name, kind, first.position.line, last.endPosition.line, code.declarations config.isolateScopes⟩
    code.references inner

/-- The scopes of two parts of a block, one after the other. -/
def Resolved.append (r s : Resolved) : Resolved := ⟨r.scopes ++ s.scopes, r.free ++ s.free⟩

/-- The kind of scope that the body of a loop is. -/
def LoopKind.scopeKind : LoopKind → Scope.Kind
  | .forLoop => .forBody
  | .whileLoop => .whileBody

/-- The scope of a block inside of a function, which is named after its kind. -/
def Scope.ofInner (config : Config) (kind : Scope.Kind) (first last : Token) (code : Code)
    (inner : Resolved) : Resolved :=
  Scope.ofBlock config kind.name kind first last code inner

/-- The scopes of the blocks in some code. -/
def Code.resolve (config : Config) : Code → Resolved
  | .done => ⟨.nil, []⟩
  | .skip _ rest | .simple _ rest => rest.resolve config
  | .loop kind h body closing rest =>
    (Scope.ofInner config kind.scopeKind h.brace (blockLast h.brace body closing) body
      (body.resolve config)).append (rest.resolve config)
  | .ifThen h body closing rest =>
    (Scope.ofInner config .ifBody h.brace (blockLast h.brace body closing) body
      (body.resolve config)).append (rest.resolve config)
  | .ifThenElse h body closing e other otherClosing rest =>
    (Scope.ofInner config .ifBody h.brace (blockLast h.brace body closing) body
      (body.resolve config)).append <|
    (Scope.ofInner config .elseBranch e.keyword (elseLast e other otherClosing) other
      (other.resolve config)).append (rest.resolve config)

namespace Scopes

/-- The spans of the declarations of which some copy is used. -/
def usedSpans (scopes : Scopes) : List Span :=
  ((scopes.labels.flatMap (·.locals)).filter (·.used)).map (·.span) |>.eraseDups

/-- Marks every copy of a declaration of which one copy is used. Copies of a declaration are known
    by the span of the declared name. -/
def shareUsage (scopes : Scopes) : Scopes :=
  let used := scopes.usedSpans
  scopes.map fun s => s.markWhere fun v => used.contains v.span

/-- The scopes of a function after all names have been looked up. -/
def settle (config : Config) (scopes : Scopes) : Scopes :=
  if config.trackUsage && !config.isolateScopes then scopes.shareUsage else scopes

/-- The code of the finding about an unused variable. -/
def unusedCode : String := "W0001"

/-- The finding about a variable that is not used in a scope. -/
def unusedVariable (s : Scope) (v : Variable) : Diagnostic :=
  (Diagnostic.warning ("Variable '" ++ v.name ++ "' is declared but never used")).located v.position
    |>.withSpan v.span
    |>.withContext ("declared in scope '" ++ s.name ++ "'")
    |>.withSuggestion ("Remove the declaration of '" ++ v.name ++ "'")
    |>.withSuggestion ("Use '" ++ v.name ++ "' after its declaration or drop its initializer")
    |>.withCode unusedCode

/-- One finding for each variable of each scope that is not used there: the scopes in pre-order,
    and the variables of a scope in the order of their declarations. -/
def diagnostics (scopes : Scopes) : List Diagnostic :=
  scopes.labels.flatMap fun s => s.unused.map (unusedVariable s)

end Scopes

/-- The scopes of a function, which are a tree if it has a body. Names that no scope declares are
    left as they are. -/
def Function.scopes (config : Config) (f : Function) : Scopes :=
  match f.body with
  | none => .nil
  | some b =>
    (Scope.ofBlock config f.name.text .function b.brace b.last b.code
      (b.code.resolve config)).scopes.settle config

/-- The scopes of a program: a tree for each function with a body, in source order. -/
def Program.scopes (config : Config) (p : Program) : Scopes :=
  p.functions.foldr (fun f rest => f.scopes config ++ rest) .nil

end BraceLang
