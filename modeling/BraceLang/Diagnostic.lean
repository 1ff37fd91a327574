import BraceLang.Text.Position

/-!
# `Diagnostic` — findings about a source text

A diagnostic names a place in the source twice, by position for an editor and by span for a
report, and says what was found there. It is made by `error`, `warning` or `fatal` and then given
its details one by one.
-/

namespace BraceLang

/-- How grave a finding is. A warning never stands in the way of a result. -/
inductive Severity
  | error
  | warning
  deriving DecidableEq, Repr

namespace Severity

/-- The word for a severity. -/
def name : Severity → String
  | .error => "error"
  | .warning => "warning"

end Severity

/-- One finding: the `position` and the `span` of what it is about, an optional `context` such as
    the enclosing scope, the `suggestions` in the order of display, and the `code` under which the
    kind of finding is documented. -/
structure Diagnostic where
  severity : Severity
  message : String
  position : Position
  span : Span
  context : Option String
  suggestions : List String
  code : Option String
  deriving DecidableEq, Repr

namespace Diagnostic

/-- A finding about the very start of the text, with no details yet. -/
def ofMessage (severity : Severity) (message : String) : Diagnostic :=
  ⟨severity, message, Position.first, ⟨0, 0⟩, none, [], none⟩

/-- A new finding that makes the source wrong. -/
def error (message : String) : Diagnostic := ofMessage .error message

/-- A new finding that leaves the source usable. -/
def warning (message : String) : Diagnostic := ofMessage .warning message

/-- The code of the one finding that reports a failure of the front end itself. -/
def fatalCode : String := "E9999"

/-- The finding that stands in for every result when the front end itself has failed. -/
def fatal (detail : String) : Diagnostic :=
  { error ("Fatal error: " ++ detail) with code := some fatalCode }

/-- The finding, addressed to a position. -/
def located (d : Diagnostic) (position : Position) : Diagnostic := { d with position }

/-- The finding, addressed to a span. -/
def withSpan (d : Diagnostic) (span : Span) : Diagnostic := { d with span }

/-- The finding, with its context set. -/
def withContext (d : Diagnostic) (context : String) : Diagnostic :=
  { d with context := some context }

/-- The finding, with one more suggestion after those it has. -/
def withSuggestion (d : Diagnostic) (suggestion : String) : Diagnostic :=
  { d with suggestions := d.suggestions ++ [suggestion] }

/-- The finding, with its code set. -/
def withCode (d : Diagnostic) (code : String) : Diagnostic := { d with code := some code }

/-- Whether the finding makes the source wrong. -/
def isError (d : Diagnostic) : Bool := d.severity == .error

/-- The written form is `line:column: severity: message`. -/
instance : ToString Diagnostic :=
  ⟨fun d => toString d.position ++ ": " ++ d.severity.name ++ ": " ++ d.message⟩

end Diagnostic

end BraceLang
