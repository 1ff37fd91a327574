import BraceLang.Proofs.Compilation
import BraceLang.Proofs.Scope.Written
import BraceLang.Proofs.Token.Printing

/-!
# `Proofs.Addresses` — findings address the text that they are about

A finding names its place by a span and by a position, and it quotes a piece of text in its message. On the
way from the lexer to a report, bytes and characters must not be mixed up, and a copy of a declaration in a
scope further out must keep the place of the declaration. Both kinds of finding have their place from a token:
the character in error, or the name of the variable. So the place of a token decides what a finding says.

## Contents
- `Diagnostic.Addresses`, with **`Diagnostic.addresses_token`**.
- `Diagnostic.ReportsError` and `Diagnostic.ReportsUnused`, what the two kinds of finding say.
- `Report.LabelsSpan` and `Report.LabelsWithin`, with `Span.clamp_of_le`: nothing is cut off a span inside
  the text.
- `Scopes.unusedVariables`, `Compilation.Addresses` and **`compile_addresses`**.
-/

namespace BraceLang

/-! ## The place of a finding -/

/-- The finding addresses a piece of the source: its span goes from one character of the source to another
    one and holds the piece, and its position is that of the first character in the span. -/
structure Diagnostic.Addresses (source text : String) (d : Diagnostic) : Prop where
  inside : d.span.start < d.span.stop ∧ d.span.stop ≤ source.utf8ByteSize
  bounds : String.Pos.Raw.IsValid source ⟨d.span.start⟩ ∧ String.Pos.Raw.IsValid source ⟨d.span.stop⟩
  slice : String.Pos.Raw.extract source ⟨d.span.start⟩ ⟨d.span.stop⟩ = text
  position : StandsAt source d.span.start d.position

/-- The finding is about a token in error, which is a single character. -/
structure Diagnostic.ReportsError (source : String) (t : Token) (d : Diagnostic) : Prop where
  severity : d.severity = .error
  code : d.code = some "E0001"
  message : d.message = "Unrecognized character '" ++ t.text ++ "'"
  character : ∃ c, t.text.toList = [c]
  place : d.span = t.span ∧ d.position = t.position
  addresses : d.Addresses source t.text

/-- The finding is about a variable that is not used in a scope. -/
structure Diagnostic.ReportsUnused (source : String) (found : Scope × Variable) (d : Diagnostic) :
    Prop where
  severity : d.severity = .warning
  code : d.code = some "W0001"
  message : d.message = "Variable '" ++ found.2.name ++ "' is declared but never used"
  context : d.context = some ("declared in scope '" ++ found.1.name ++ "'")
  place : d.span = found.2.span ∧ d.position = found.2.position
  addresses : d.Addresses source found.2.name

/-- The report underlines one stretch of the text, which is that span, and writes to it what the finding
    has as context. -/
def Report.LabelsSpan (d : Diagnostic) (r : Report) : Prop :=
  r.labels = [⟨d.context.getD "here", d.span.start, d.span.stop - d.span.start, true⟩]

/-- The report underlines one stretch, which lies in a text of `length` bytes. -/
def Report.LabelsWithin (length : Nat) (r : Report) : Prop :=
  ∃ l, r.labels = [l] ∧ l.offset ≤ length ∧ l.offset + l.length ≤ length

/-- Each variable of each scope that is not used there: the scopes in pre-order, function by function, and
    the variables of a scope in the order in which the scope has them. -/
def Scopes.unusedVariables (scopes : Scopes) : List (Scope × Variable) :=
  scopes.labels.flatMap fun s => (s.locals.filter fun v => !v.used).map fun v => (s, v)

/-- The findings of a compilation are about the tokens in error, if these are to be reported, and behind that
    about the variables that are not used. Each addresses the text that it quotes, and so does its report over
    the source. -/
structure Compilation.Addresses (config : Config) (source : String) (c : Compilation) : Prop where
  diagnostics : ∃ lexical unused, c.diagnostics = lexical ++ unused ∧
    List.Forall₂ (Diagnostic.ReportsError source)
      (if config.reportLexicalErrors then c.tokens.filter (·.kind == .error) else []) lexical ∧
    List.Forall₂ (Diagnostic.ReportsUnused source) c.scopes.unusedVariables unused
  inOrder : ∀ s ∈ c.scopes.labels, s.locals.Pairwise fun v w => v.span.start < w.span.start
  reports : List.Forall₂ Report.LabelsSpan c.diagnostics (c.reports source)
  reportsOver : ∀ text, (c.reports text).length = c.diagnostics.length ∧
    ∀ r ∈ c.reports text, r.LabelsWithin text.utf8ByteSize

/-! ## From tokens to findings -/

section Source

variable {source : String} {t : Token} {d : Diagnostic}

/-- What stops before a byte stops inside the source. -/
theorem StopsAt.le_utf8ByteSize {byte : Nat} {position : Position} (h : StopsAt source byte position) :
    byte ≤ source.utf8ByteSize := by
  obtain ⟨front, c, behind, hsource, rfl, -⟩ := h
  have hsize : byteLength source.toList = source.utf8ByteSize := by
    rw [byteLength_eq_utf8Len, String.utf8Len_toList]
  have hparts : front ++ c :: behind = (front ++ [c]) ++ behind := List.append_cons front c behind
  rw [← hsize, hsource, hparts, byteLength_append (front ++ [c])]
  exact Nat.le_add_right _ _

/-- The span of a token is among the spans of its scan. -/
theorem Scan.span_mem_spans {scan : Scan} (ht : t ∈ scan.tokens) : t.span ∈ scan.spans :=
  List.mem_merge.mpr (.inl (List.mem_map_of_mem ht))

/-- **A finding with the place of a token addresses the text of the token.** -/
theorem Diagnostic.addresses_token (ht : t ∈ (tokenize source).tokens) (hspan : d.span = t.span)
    (hposition : d.position = t.position) : d.Addresses source t.text := by
  have htiles := Scan.tokenize_tilesSource source
  obtain ⟨hstands, hstops⟩ := Scan.tokenize_places ht
  constructor
  · rw [hspan]
    exact ⟨(tokenize_successive source).start_lt_stop t ht, hstops.le_utf8ByteSize⟩
  · rw [hspan]
    exact htiles.bounds _ (Scan.span_mem_spans ht)
  · rw [hspan]
    exact htiles.slices t ht
  · rw [hspan, hposition]
    exact hstands

/-- No class of lexemes makes a token in error. -/
theorem Token.Kind.ofLexeme?_ne_error (cls : Lexeme.Class) (text : List Char) :
    ofLexeme? cls text ≠ some .error := by
  cases cls with
  | identifier =>
    rw [ofLexeme?]
    split <;> exact fun h => Token.Kind.noConfusion (Option.some.inj h)
  | _ => simp [ofLexeme?]

/-- A token in error is a single character. -/
theorem exists_character_of_error (ht : t ∈ (tokenize source).tokens) (hkind : t.kind = .error) :
    ∃ c, t.text.toList = [c] := by
  have hpiece := (tokenize_printable source).piece t ht
  rw [hkind] at hpiece
  generalize t.text.toList = text at hpiece ⊢
  generalize hsome : some Token.Kind.error = kind? at hpiece
  cases hpiece with
  | lexeme h => exact absurd hsome.symm (Token.Kind.ofLexeme?_ne_error _ _)
  | error h => exact ⟨_, rfl⟩

theorem reportsError_unrecognized (ht : t ∈ (tokenize source).errorTokens) :
    (Scan.unrecognized t).ReportsError source t := by
  obtain ⟨hmem, hkind⟩ := List.mem_filter.mp ht
  exact ⟨rfl, rfl, rfl, exists_character_of_error hmem (eq_of_beq hkind), ⟨rfl, rfl⟩,
    Diagnostic.addresses_token hmem rfl rfl⟩

/-- The finding about a variable that is written in the source addresses its name. -/
theorem reportsUnused_unusedVariable {s : Scope} {v : Variable}
    (hv : v.WrittenIn (tokenize source).tokens) :
    (Scopes.unusedVariable s v).ReportsUnused source (s, v) := by
  obtain ⟨type, name, suffix, next, behind, hin, -, -, -, -, hname, -, hposition, hspan⟩ := hv
  have hmem : name ∈ (tokenize source).tokens :=
    hin.subset (List.mem_cons_of_mem _ List.mem_cons_self)
  have haddresses : (Scopes.unusedVariable s v).Addresses source name.text :=
    Diagnostic.addresses_token hmem hspan hposition
  rw [← hname] at haddresses
  exact ⟨rfl, rfl, rfl, rfl, ⟨rfl, rfl⟩, haddresses⟩

end Source

/-! ## Reports -/

/-- Nothing is cut off a span that lies in the text. -/
theorem Span.clamp_of_le {span : Span} {length : Nat} (hle : span.start ≤ span.stop)
    (hstop : span.stop ≤ length) : span.clamp length = span := by
  rw [clamp, Nat.min_eq_left (hle.trans hstop), Nat.min_eq_left hstop, Nat.max_eq_left hle]

theorem Diagnostic.Addresses.labelsSpan {source text : String} {d : Diagnostic}
    (h : d.Addresses source text) : (Report.ofDiagnostic ⟨source, none⟩ d).LabelsSpan d := by
  rw [Report.LabelsSpan, Report.ofDiagnostic, SourceFile.clamp, Span.clamp_of_le h.inside.1.le h.inside.2]
  rfl

theorem Report.labelsWithin_ofDiagnostic (file : SourceFile) (d : Diagnostic) :
    (ofDiagnostic file d).LabelsWithin file.content.utf8ByteSize := by
  obtain ⟨hle, hstop⟩ := d.span.clamp_bounds file.content.utf8ByteSize
  refine ⟨_, rfl, hle.trans hstop, ?_⟩
  exact (Nat.add_sub_cancel' hle).trans_le hstop

/-! ## All findings -/

/-- The findings about variables are those about the pairs of a scope and a variable. -/
theorem Scopes.diagnostics_eq_map (scopes : Scopes) :
    scopes.diagnostics = scopes.unusedVariables.map fun (s, v) => unusedVariable s v := by
  rw [diagnostics, unusedVariables, List.map_flatMap]
  refine List.flatMap_congr fun s _ => ?_
  rw [List.map_map]
  rfl

/-- What holds of each finding about an entry of a list holds of the list of them. -/
theorem forall₂_map_of_mem {α β : Type} {R : α → β → Prop} {f : α → β} {as : List α}
    (h : ∀ a ∈ as, R a (f a)) : List.Forall₂ R as (as.map f) :=
  List.forall₂_map_right_iff.mpr (List.forall₂_same.mpr h)

theorem Program.analyse_addresses {config : Config} {source : String} {limit : Nat} {p : Program}
    (hread : Program.read limit (tokenize source).tokens = .ok p) :
    (p.analyse config (tokenize source)).Addresses config source := by
  have hlexical : List.Forall₂ (Diagnostic.ReportsError source)
      (if config.reportLexicalErrors then (tokenize source).errorTokens else [])
      (if config.reportLexicalErrors then (tokenize source).diagnostics else []) := by
    split
    · exact forall₂_map_of_mem fun t ht => reportsError_unrecognized ht
    · exact .nil
  have hunused : List.Forall₂ (Diagnostic.ReportsUnused source) (p.scopes config).unusedVariables
      (p.scopes config).diagnostics := by
    rw [Scopes.diagnostics_eq_map]
    refine forall₂_map_of_mem fun (s, v) hfound => ?_
    obtain ⟨s', hs, hv⟩ := List.mem_flatMap.mp hfound
    obtain ⟨v', hunused, heq⟩ := List.mem_map.mp hv
    obtain ⟨rfl, rfl⟩ := Prod.mk.inj heq
    have hlocal := (List.mem_filter.mp hunused).1
    exact reportsUnused_unusedVariable (writtenIn_of_mem_locals hread hs hlocal)
  constructor
  · exact ⟨_, _, rfl, hlexical, hunused⟩
  · exact fun s hs => pairwise_locals hread hs
  · refine forall₂_map_of_mem fun d hd => ?_
    rcases List.mem_append.mp hd with hd | hd
    · obtain ⟨t, -, hreports⟩ := forall₂_exists_left hlexical d hd
      exact hreports.addresses.labelsSpan
    · obtain ⟨found, -, hreports⟩ := forall₂_exists_left hunused d hd
      exact hreports.addresses.labelsSpan
  · intro text
    refine ⟨List.length_map _, ?_⟩
    intro r hr
    obtain ⟨d, -, rfl⟩ := List.mem_map.mp hr
    exact Report.labelsWithin_ofDiagnostic ⟨text, none⟩ d

/-- **The findings of a compilation address exactly the text that they are about**, unless the compilation has
    failed. They come in the order of the tokens, and then in that of scopes and declarations. -/
theorem compile_addresses {config : Config} {source : String}
    (h : (compile config source).isFatal = false) :
    (compile config source).Addresses config source := by
  cases hread : Program.read config.maxNestingDepth (tokenize source).tokens with
  | error cause =>
    rw [compile_eq_fatal hread] at h
    exact absurd h (Bool.eq_false_iff.not_left.mpr rfl)
  | ok p =>
    rw [compile_eq_analyse hread]
    exact Program.analyse_addresses hread

/-- Characters of two bytes in front of a declaration and in error, a string over two lines, and a block in
    a block. -/
def twoBytesWide : String := "int f() \x7b s = \"ä\n\"; int a; if (ö) \x7b int b[2]; \x7d \x7d"

theorem compile_addresses_twoBytesWide :
    (compile { reportLexicalErrors := true } twoBytesWide).isFatal = false ∧
      (compile { reportLexicalErrors := true } twoBytesWide).Addresses { reportLexicalErrors := true }
        twoBytesWide := by
  have hresult : (compile { reportLexicalErrors := true } twoBytesWide).isFatal = false := by
    decide +kernel
  exact ⟨hresult, compile_addresses hresult⟩

/-- The declaration in the inner block is reported for both blocks, at the same place. -/
example : (compile { reportLexicalErrors := true } twoBytesWide).diagnostics.map
    (fun d => (d.position, d.span, d.context)) = [
      (⟨2, 15⟩, ⟨32, 34⟩, none),
      (⟨2, 8⟩, ⟨25, 26⟩, some "declared in scope 'f'"),
      (⟨2, 24⟩, ⟨42, 43⟩, some "declared in scope 'f'"),
      (⟨2, 24⟩, ⟨42, 43⟩, some "declared in scope 'if'")] := by decide +kernel

end BraceLang
