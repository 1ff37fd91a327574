import BraceLang.Cost.Facts
import BraceLang.Program.Tree

/-!
# `Cost.TreeFacts` — the facts behind an estimate, found by walking the syntax tree

The walk goes over any table of nodes in pre-order and takes along how many loops stand around a
node. A number that no node bears is passed over. In the tree of a program the facts are those of
`Facts.ofProgram`.
-/

namespace BraceLang

namespace Cost.Facts

/-- The facts about nothing. -/
def nothing : Facts := ⟨0, 0, 0, [], []⟩

/-- The facts with one more loop, which is the `depth`-th around itself. -/
def addLoop (f : Facts) (depth : Nat) : Facts :=
  { f with loopCount := f.loopCount + 1, loopDepth := max f.loopDepth depth }

/-- The facts with one more declaration of a variable. -/
def addDeclaration (f : Facts) (name type : String) : Facts :=
  { f with
    declarationCount := f.declarationCount + 1
    arrays := if isArrayType type then f.arrays ++ [(name, type)] else f.arrays }

end Cost.Facts

namespace Tree

open Cost

/-- The facts with those about a node and the nodes below it, when `depth` loops stand around it. -/
def visit (t : Tree) : Nat → Nat → Facts → Nat → Facts
  | 0, _, facts, _ => facts
  | fuel + 1, depth, facts, id =>
    match t.get? id with
    | none => facts
    | some node =>
      if node.label.kind.isLoop then
        node.children.foldl (t.visit fuel (depth + 1)) (facts.addLoop (depth + 1))
      else if node.label.kind = .variableDeclaration then
        node.children.foldl (t.visit fuel depth)
          (facts.addDeclaration (t.childText id .identifier) (t.childText id .type))
      else node.children.foldl (t.visit fuel depth) facts

/-- Whether some call below the node of a function bears its name. -/
def callsItself (t : Tree) (function : Node) : Bool :=
  (t.descendants function.id).any fun n =>
    n.label.kind == .functionCall && n.label.text == function.label.text

/-- The facts about a tree. -/
def facts (t : Tree) : Facts :=
  { t.visit t.size 0 Facts.nothing root with
    recursive := (t.functions.filter t.callsItself).map (·.label.text) }

end Tree

end BraceLang
