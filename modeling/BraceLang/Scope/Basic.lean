import BraceLang.Forest
import BraceLang.Text.Position

/-!
# `Scope` — blocks as places where variables live

A scope belongs to one block. It bears a name, the lines of its block, and the variables that
count in it. Scopes are nested as their blocks are, so the scopes of a function form a tree, and
those of a program a forest.

## Contents
- `Scope.Kind`, `Variable` and `Scope`, and what can be asked of a scope or done to it.
- `Scopes`, a forest of scopes.
-/

namespace BraceLang

/-- The kinds of block that have a scope. -/
inductive Scope.Kind
  | function
  | ifBody
  | elseBranch
  | forBody
  | whileBody
  deriving DecidableEq, Repr, Inhabited

namespace Scope.Kind

/-- Every kind of scope. -/
def all : List Scope.Kind := [.function, .ifBody, .elseBranch, .forBody, .whileBody]

/-- The name of a kind, which is also the name of a scope of this kind inside of a function. -/
def name : Scope.Kind → String
  | .function => "function"
  | .ifBody => "if"
  | .elseBranch => "else"
  | .forBody => "for"
  | .whileBody => "while"

/-- Whether the scope is the body of a loop. -/
def isLoop : Scope.Kind → Bool
  | .forBody | .whileBody => true
  | _ => false

end Scope.Kind

/-- A declared variable. Its place is that of the declared name, and `declaredType` is the type as
    it is written, with the brackets of an array. -/
structure Variable where
  name : String
  declaredType : String
  position : Position
  span : Span
  used : Bool
  deriving DecidableEq, Repr, Inhabited

/-- The scope of a block that goes from one line to another, with its variables in the order of
    their declarations. -/
structure Scope where
  name : String
  kind : Scope.Kind
  startLine : Nat
  endLine : Nat
  locals : List Variable
  deriving DecidableEq, Repr, Inhabited

namespace Scope

/-- The scope, with one more variable after those it has. -/
def declare (s : Scope) (v : Variable) : Scope := { s with locals := s.locals ++ [v] }

/-- The first variable of the scope that has a name. -/
def find? (s : Scope) (name : String) : Option Variable :=
  s.locals.find? (·.name == name)

/-- Whether some variable of the scope has a name. -/
def declares (s : Scope) (name : String) : Bool := s.locals.any (·.name == name)

/-- The scope, with every variable marked as used that satisfies `p`. -/
def markWhere (s : Scope) (p : Variable → Bool) : Scope :=
  { s with locals := s.locals.map fun v => { v with used := v.used || p v } }

/-- The scope, with every variable of a name marked as used. -/
def markUsed (s : Scope) (name : String) : Scope := s.markWhere (·.name == name)

/-- Whether a line belongs to the block of the scope. -/
def containsLine (s : Scope) (line : Nat) : Bool := s.startLine ≤ line && line ≤ s.endLine

/-- The variables of the scope that are not marked as used. -/
def unused (s : Scope) : List Variable := s.locals.filter fun v => !v.used

theorem declares_eq (s : Scope) (name : String) : s.declares name = (s.find? name).isSome := by
  simp only [declares, find?]
  induction s.locals with
  | nil => rfl
  | cons v vs ih =>
    rw [List.any_cons, List.find?_cons, ih]
    cases v.name == name <;> rfl

end Scope

/-- The scopes of a program or of a part of it. -/
abbrev Scopes := Forest Scope

/-- The first top scope with a name. -/
def Scopes.find? (scopes : Scopes) (name : String) : Option Scope :=
  scopes.roots.find? (·.name == name)

end BraceLang
