/-!
# `Token.Keyword` — the reserved words

The reserved words are matched exactly: `Int` and `intx` are names. The first ten of them name a
type, and only these begin a declaration, a parameter or a function.
-/

namespace BraceLang.Keyword

/-- The keywords that name a type. -/
def typeNames : List String :=
  ["int", "char", "float", "double", "void", "long", "short", "unsigned", "signed", "bool"]

/-- The keywords that steer the program. -/
def controlWords : List String :=
  ["if", "else", "while", "for", "return", "break", "continue"]

/-- Every reserved word of the language. -/
def all : List String := typeNames ++ controlWords

/-- Whether a word is reserved. -/
def isReserved (word : String) : Bool := all.contains word

/-- Whether a word names a type. -/
def isTypeName (word : String) : Bool := typeNames.contains word

/-- The name of a type is reserved. -/
theorem isReserved_of_isTypeName {word : String} (h : isTypeName word = true) :
    isReserved word = true := by
  simp_all [isReserved, isTypeName, all]

end BraceLang.Keyword
