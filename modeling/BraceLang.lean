import BraceLang.Compilation
import BraceLang.Token.Cursor
import BraceLang.Token.Extent
import BraceLang.Proofs.Tree.Numbering
import BraceLang.Proofs.Flow.Execution
import BraceLang.Proofs.Flow.JoinedWalk
import BraceLang.Proofs.Tree.Functions
import BraceLang.Proofs.Token.Balance
import BraceLang.Proofs.Token.LongestMatch
import BraceLang.Proofs.Token.Tiling
import BraceLang.Proofs.Reading.Statement
import BraceLang.Proofs.Reading.Derivation
import BraceLang.Proofs.Reading.Nesting
import BraceLang.Proofs.Tree.Shape
import BraceLang.Proofs.Tree.Leaves
import BraceLang.Proofs.Tree.Placement
import BraceLang.Proofs.Reading.Faithfulness
import BraceLang.Proofs.Grammar.Syntax
import BraceLang.Proofs.Grammar.Completeness
import BraceLang.Scope.TreeScopes
import BraceLang.Proofs.Scope.TreeScopes
import BraceLang.Proofs.Cost.TreeFacts
import BraceLang.Proofs.Flow.Draft
import BraceLang.Proofs.Flow.ChainedBuild
import BraceLang.Proofs.Flow.JoinedBuild
import BraceLang.Proofs.Compilation
import BraceLang.Proofs.Layout.Reading
import BraceLang.Proofs.Layout.Analyses
import BraceLang.Proofs.Layout.Scopes
import BraceLang.Proofs.Layout.Independence
import BraceLang.Proofs.Tree.Ancestry
import BraceLang.Proofs.Flow.Reach
import BraceLang.Proofs.Flow.ChainedShape
import BraceLang.Proofs.Flow.JoinedShape
import BraceLang.Proofs.Scope.Lookup
import BraceLang.Proofs.Scope.Usage
import BraceLang.Proofs.Scope.Copies
import BraceLang.Proofs.Scope.KeptApart
import BraceLang.Proofs.Scope.Warnings
import BraceLang.Program.TreeBuilder
import BraceLang.Proofs.Reading.Braces
import BraceLang.Proofs.Tree.PreOrder
import BraceLang.Proofs.Tree.Building
import BraceLang.Proofs.Tree.Extents
import BraceLang.Proofs.Reading.Extents
import BraceLang.Proofs.Token.Places
import BraceLang.Proofs.Reading.Places
import BraceLang.Proofs.Forest
import BraceLang.Proofs.Tree.Parts
import BraceLang.Proofs.Scope.Frames
import BraceLang.Proofs.Flow.Layouts
import BraceLang.Proofs.Cost.Agreement
import BraceLang.Proofs.Token.Lines
import BraceLang.Proofs.Scope.Lines
import BraceLang.Proofs.Scope.BlockForest
import BraceLang.Proofs.Reading.Concatenation
import BraceLang.Proofs.Token.Context
import BraceLang.Proofs.Token.LineLocality
import BraceLang.Proofs.Token.Printing
import BraceLang.Proofs.Reading.Bodies
import BraceLang.Proofs.Flow.Conditions
import BraceLang.Proofs.Scope.Declared
import BraceLang.Proofs.Scope.Written
import BraceLang.Proofs.Addresses
import BraceLang.Proofs.Reading.Containment
import BraceLang.Proofs.Scope.Recording
import BraceLang.Proofs.Token.Lookahead
import BraceLang.Proofs.Token.Positions
import BraceLang.Proofs.Flow.Chaining
import BraceLang.Proofs.Flow.DepthFirst
import BraceLang.Proofs.Reading.Parameters
import BraceLang.Program.Shape
import BraceLang.Proofs.Reading.Recognition
import BraceLang.Proofs.Reading.Gaps
import BraceLang.Proofs.Reading.Pauses
import BraceLang.Proofs.Reading.Noise
import BraceLang.Proofs.Cost.Recursion
import BraceLang.Proofs.Scope.BraceLines
import BraceLang.Proofs.Reading.Wrapping
import BraceLang.Proofs.Cost.Growth
import BraceLang.Program.Parser
import BraceLang.Proofs.Parser.Steps
import BraceLang.Proofs.Parser.Statements
import BraceLang.Proofs.Parser.Programs
import BraceLang.Proofs.Parser.Trees
import BraceLang.Proofs.Parser.Progress
import BraceLang.Proofs.Parser.Productions
