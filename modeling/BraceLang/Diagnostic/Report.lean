import BraceLang.Diagnostic

/-!
# `Diagnostic.Report` — a finding laid over its source

A report is what a drawing of the source needs: which bytes to underline, the text to put there,
and the advice to print below. Spans are cut to the source before anything is underlined, so a
report over a text other than the one that was analysed is still inside that text.
-/

namespace BraceLang

/-- A text together with the name of the file it comes from, if that is known. -/
structure SourceFile where
  content : String
  name : Option String
  deriving DecidableEq, Repr

namespace SourceFile

/-- The part of a span that lies in the file. -/
def clamp (file : SourceFile) (span : Span) : Span :=
  span.clamp file.content.utf8ByteSize

end SourceFile

/-- The severities of a report: those of a finding, and the advice attached to one. -/
inductive Report.Severity
  | advice
  | warning
  | error
  deriving DecidableEq, Repr

/-- The word for a severity. -/
def Report.Severity.name : Report.Severity → String
  | .advice => "advice"
  | .warning => "warning"
  | .error => "error"

/-- An underlined stretch of `length` bytes from `offset`, with the text that is written to it.
    The primary label of a report is the one that it is about. -/
structure Report.Label where
  text : String
  offset : Nat
  length : Nat
  primary : Bool
  deriving DecidableEq, Repr

/-- A finding ready to be drawn. `related` holds the further notes, each with its severity. -/
structure Report where
  message : String
  severity : Report.Severity
  code : Option String
  labels : List Report.Label
  related : List (Report.Severity × String)
  deriving DecidableEq, Repr

namespace Report

/-- The severity that a finding has in its report. -/
def Severity.ofDiagnostic : BraceLang.Severity → Report.Severity
  | .error => .error
  | .warning => .warning

/-- The text of a label whose finding has no context. -/
def bareLabel : String := "here"

/-- The report of a finding over a file: one primary label on the part of its span that lies in
    the file, and each suggestion as advice. -/
def ofDiagnostic (file : SourceFile) (d : Diagnostic) : Report :=
  let span := file.clamp d.span
  { message := d.message
    severity := .ofDiagnostic d.severity
    code := d.code
    labels := [⟨d.context.getD bareLabel, span.start, span.stop - span.start, true⟩]
    related := d.suggestions.map fun s => (.advice, s) }

end Report

end BraceLang
