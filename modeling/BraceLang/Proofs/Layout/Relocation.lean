import BraceLang.Program.Basic
import BraceLang.Proofs.Reading.Statement

/-!
# `Proofs.Layout.Relocation` — the same words at other places

A text can be laid out in many ways that change no word of it: its blanks, its line breaks and its
comments only decide where the words stand. A **relocation** tells for each token where it goes. It
moves the tokens of a text and with them all that is made of tokens, and it leaves every word as it is.

## Contents
- `Relocation`, and what becomes of tokens and of everything that is made of them, up to
  `Relocation.program`.
- `words_tokens`, `tokens_simple`, `tokens_header` and `tokens_elseHead`: words and order stay.
- `simple_proper_iff`, `header_proper_iff`, `elseHead_proper_iff`: so does what is in its place.
- `exists_simple`, `exists_header` and `exists_elseHead`: nothing else is read at the new places, so
  `simple_ahead_iff` and its like.
-/

namespace BraceLang

/-- A new place for each token of a text, which is known by the byte where it starts. -/
structure Relocation where
  position : Nat → Position
  span : Nat → Span
  ordered : ∀ start, (span start).start ≤ (span start).stop
  /-- Tokens that start at different bytes stay apart. -/
  span_inj : ∀ {start other}, span start = span other → start = other

namespace Relocation

variable (r : Relocation)

/-- The token at its new place. -/
def token (t : Token) : Token :=
  { t with position := r.position t.span.start, span := r.span t.span.start }

/-- Some tokens at their new places. -/
def tokens (run : List Token) : List Token := run.map r.token

/-- The initializer at its new place. -/
def initializer (i : Initializer) : Initializer := ⟨r.token i.sign, r.tokens i.value⟩

/-- The statement at its new place. -/
def simple : Simple → Simple
  | .declaration type name suffix initializer semicolon =>
    .declaration (r.token type) (r.token name) (r.tokens suffix) (initializer.map r.initializer)
      (r.token semicolon)
  | .call name opening arguments closing semicolon =>
    .call (r.token name) (r.token opening) (r.tokens arguments) (r.token closing)
      (r.token semicolon)
  | .ret keyword value semicolon =>
    .ret (r.token keyword) (r.tokens value) (r.token semicolon)
  | .assignment target operator value semicolon =>
    .assignment (r.token target) (r.token operator) (r.tokens value) (r.token semicolon)

/-- The header at its new place. -/
def header (h : Header) : Header :=
  ⟨r.token h.keyword, r.token h.opening, r.tokens h.condition, r.token h.closing, r.token h.brace⟩

/-- The start of an `else` at its new place. -/
def elseHead (e : ElseHead) : ElseHead := ⟨r.token e.keyword, e.brace.map r.token⟩

/-- The code at its new place. -/
def code : Code → Code
  | .done => .done
  | .skip t rest => .skip (r.token t) (code rest)
  | .simple x rest => .simple (r.simple x) (code rest)
  | .loop kind h body closing rest =>
    .loop kind (r.header h) (code body) (closing.map r.token) (code rest)
  | .ifThen h body closing rest =>
    .ifThen (r.header h) (code body) (closing.map r.token) (code rest)
  | .ifThenElse h body closing e other otherClosing rest =>
    .ifThenElse (r.header h) (code body) (closing.map r.token) (r.elseHead e) (code other)
      (otherClosing.map r.token) (code rest)

/-- The block at its new place. -/
def block (b : Block) : Block := ⟨r.token b.brace, r.code b.code, b.closing.map r.token⟩

/-- The part of a parameter list at its new place. -/
def parameterItem : ParameterItem → ParameterItem
  | .parameter type name => .parameter (r.token type) (r.token name)
  | .skipped t => .skipped (r.token t)

/-- The parameters at their new place. -/
def parameterList (p : ParameterList) : ParameterList :=
  ⟨r.token p.opening, p.items.map r.parameterItem, p.closing.map r.token⟩

/-- The function at its new place. -/
def function (f : Function) : Function :=
  ⟨r.token f.type, r.token f.name, r.parameterList f.parameters, f.body.map r.block,
    f.semicolon.map r.token⟩

/-- The part of a program at its new place. -/
def item : ProgramItem → ProgramItem
  | .function f => .function (r.function f)
  | .skipped t => .skipped (r.token t)

/-- The program at its new place. -/
def program (p : Program) : Program := ⟨p.items.map r.item⟩

/-! ## Words -/

@[simp] theorem word_token (t : Token) : (r.token t).word = t.word := rfl

theorem kind_token (t : Token) : (r.token t).kind = t.kind := rfl

theorem isPunct_token (t : Token) (text : String) : (r.token t).isPunct text = t.isPunct text := rfl

theorem isTypeName_token (t : Token) : (r.token t).isTypeName = t.isTypeName := rfl

@[simp] theorem words_tokens (run : List Token) : words (r.tokens run) = words run := by
  rw [words, tokens, List.map_map]
  rfl

theorem tokens_cons (t : Token) (run : List Token) :
    r.tokens (t :: run) = r.token t :: r.tokens run := rfl

theorem tokens_append (run more : List Token) :
    r.tokens (run ++ more) = r.tokens run ++ r.tokens more :=
  List.map_append

variable {r} {x : Simple} {h : Header} {e : ElseHead} {run s : List Token} {kind : HeaderKind}

/-! ## What is read -/

theorem tokens_simple (x : Simple) : (r.simple x).tokens = r.tokens x.tokens := by
  cases x with
  | declaration type name suffix initializer semicolon =>
    cases initializer <;> simp [simple, Simple.tokens, initializer, Initializer.tokens, tokens]
  | _ => simp [simple, Simple.tokens, tokens]

theorem tokens_header (h : Header) : (r.header h).tokens = r.tokens h.tokens := by
  simp [header, Header.tokens, tokens]

theorem tokens_elseHead (e : ElseHead) : (r.elseHead e).tokens = r.tokens e.tokens := by
  obtain ⟨keyword, brace⟩ := e
  cases brace <;> rfl

theorem tokens_eq_nil_iff : r.tokens run = [] ↔ run = [] := List.map_eq_nil_iff

theorem initializer_proper_iff {i : Initializer} : (r.initializer i).Proper ↔ i.Proper := by
  constructor
  · rintro ⟨hsign, hvalue⟩
    exact ⟨hsign, r.words_tokens i.value ▸ hvalue⟩
  · rintro ⟨hsign, hvalue⟩
    exact ⟨hsign, (r.words_tokens i.value).symm ▸ hvalue⟩

theorem simple_proper_iff : (r.simple x).Proper ↔ x.Proper := by
  cases x with
  | declaration type name suffix initializer semicolon =>
    have hinitializer : (∀ i ∈ initializer.map r.initializer, i.Proper) ↔
        ∀ i ∈ initializer, i.Proper := by
      cases initializer <;> simp [initializer_proper_iff]
    simp only [simple, Simple.Proper, word_token, words_tokens, hinitializer]
  | _ => simp only [simple, Simple.Proper, word_token, words_tokens, tokens_eq_nil_iff]

theorem header_proper_iff : (r.header h).Proper kind ↔ h.Proper kind := by
  constructor
  · rintro ⟨hkeyword, hopening, hcondition, hclosing, hbrace⟩
    exact ⟨hkeyword, hopening, r.words_tokens h.condition ▸ hcondition, hclosing, hbrace⟩
  · rintro ⟨hkeyword, hopening, hcondition, hclosing, hbrace⟩
    exact ⟨hkeyword, hopening, (r.words_tokens h.condition).symm ▸ hcondition, hclosing, hbrace⟩

/-- What is read as a statement at the new places was one before. -/
theorem exists_simple (hx : r.tokens run = x.tokens) : ∃ y, r.simple y = x ∧ y.tokens = run := by
  cases x with
  | declaration type name suffix initializer semicolon =>
    obtain ⟨type, _, rfl, rfl, h₁⟩ := List.map_eq_cons_iff.mp hx
    obtain ⟨name, _, rfl, rfl, h₂⟩ := List.map_eq_cons_iff.mp h₁
    obtain ⟨suffix, _, rfl, rfl, h₃⟩ := List.map_eq_append_iff.mp h₂
    obtain ⟨middle, _, rfl, hmiddle, h₄⟩ := List.map_eq_append_iff.mp h₃
    obtain ⟨semicolon, _, rfl, rfl, h₅⟩ := List.map_eq_cons_iff.mp h₄
    obtain rfl := List.map_eq_nil_iff.mp h₅
    cases initializer with
    | none =>
      obtain rfl := List.map_eq_nil_iff.mp hmiddle
      exact ⟨.declaration type name suffix none semicolon, rfl, rfl⟩
    | some i =>
      obtain ⟨sign, value, rfl, hsign, hvalue⟩ := List.map_eq_cons_iff.mp hmiddle
      obtain ⟨_, _⟩ := i
      obtain rfl := hsign
      obtain rfl := hvalue
      exact ⟨.declaration type name suffix (some ⟨sign, value⟩) semicolon, rfl, rfl⟩
  | call name opening arguments closing semicolon =>
    obtain ⟨name, _, rfl, rfl, h₁⟩ := List.map_eq_cons_iff.mp hx
    obtain ⟨opening, _, rfl, rfl, h₂⟩ := List.map_eq_cons_iff.mp h₁
    obtain ⟨arguments, _, rfl, rfl, h₃⟩ := List.map_eq_append_iff.mp h₂
    obtain ⟨closing, _, rfl, rfl, h₄⟩ := List.map_eq_cons_iff.mp h₃
    obtain ⟨semicolon, _, rfl, rfl, h₅⟩ := List.map_eq_cons_iff.mp h₄
    obtain rfl := List.map_eq_nil_iff.mp h₅
    exact ⟨.call name opening arguments closing semicolon, rfl, rfl⟩
  | ret keyword value semicolon =>
    obtain ⟨keyword, _, rfl, rfl, h₁⟩ := List.map_eq_cons_iff.mp hx
    obtain ⟨value, _, rfl, rfl, h₂⟩ := List.map_eq_append_iff.mp h₁
    obtain ⟨semicolon, _, rfl, rfl, h₃⟩ := List.map_eq_cons_iff.mp h₂
    obtain rfl := List.map_eq_nil_iff.mp h₃
    exact ⟨.ret keyword value semicolon, rfl, rfl⟩
  | assignment target operator value semicolon =>
    obtain ⟨target, _, rfl, rfl, h₁⟩ := List.map_eq_cons_iff.mp hx
    obtain ⟨operator, _, rfl, rfl, h₂⟩ := List.map_eq_cons_iff.mp h₁
    obtain ⟨value, _, rfl, rfl, h₃⟩ := List.map_eq_append_iff.mp h₂
    obtain ⟨semicolon, _, rfl, rfl, h₄⟩ := List.map_eq_cons_iff.mp h₃
    obtain rfl := List.map_eq_nil_iff.mp h₄
    exact ⟨.assignment target operator value semicolon, rfl, rfl⟩

/-- What is read as a header at the new places was one before. -/
theorem exists_header (hh : r.tokens run = h.tokens) : ∃ g, r.header g = h ∧ g.tokens = run := by
  obtain ⟨_, _, _, _, _⟩ := h
  obtain ⟨keyword, _, rfl, rfl, h₁⟩ := List.map_eq_cons_iff.mp hh
  obtain ⟨opening, _, rfl, rfl, h₂⟩ := List.map_eq_cons_iff.mp h₁
  obtain ⟨condition, _, rfl, rfl, h₃⟩ := List.map_eq_append_iff.mp h₂
  obtain ⟨closing, _, rfl, rfl, h₄⟩ := List.map_eq_cons_iff.mp h₃
  obtain ⟨brace, _, rfl, rfl, h₅⟩ := List.map_eq_cons_iff.mp h₄
  obtain rfl := List.map_eq_nil_iff.mp h₅
  exact ⟨⟨keyword, opening, condition, closing, brace⟩, rfl, rfl⟩

/-- What is read as the start of an `else` at the new places was one before. -/
theorem exists_elseHead (he : r.tokens run = e.tokens) :
    ∃ g, r.elseHead g = e ∧ g.tokens = run := by
  obtain ⟨_, brace⟩ := e
  obtain ⟨keyword, _, rfl, rfl, h₁⟩ := List.map_eq_cons_iff.mp he
  cases brace with
  | none =>
    obtain rfl := List.map_eq_nil_iff.mp h₁
    exact ⟨⟨keyword, none⟩, rfl, rfl⟩
  | some brace =>
    obtain ⟨brace, _, rfl, rfl, h₂⟩ := List.map_eq_cons_iff.mp h₁
    obtain rfl := List.map_eq_nil_iff.mp h₂
    exact ⟨⟨keyword, some brace⟩, rfl, rfl⟩

theorem simple_ahead_iff : Simple.Ahead (r.tokens s) ↔ Simple.Ahead s := by
  constructor
  · rintro ⟨x, rest, hx, hs⟩
    obtain ⟨run, rest, rfl, hrun, rfl⟩ := List.map_eq_append_iff.mp hs.symm
    obtain ⟨y, rfl, rfl⟩ := exists_simple hrun
    exact ⟨y, rest, simple_proper_iff.mp hx, rfl⟩
  · rintro ⟨x, rest, hx, rfl⟩
    exact ⟨r.simple x, r.tokens rest, simple_proper_iff.mpr hx,
      by rw [tokens_simple, r.tokens_append]⟩

theorem header_ahead_iff : Header.Ahead kind (r.tokens s) ↔ Header.Ahead kind s := by
  constructor
  · rintro ⟨h, rest, hh, hs⟩
    obtain ⟨run, rest, rfl, hrun, rfl⟩ := List.map_eq_append_iff.mp hs.symm
    obtain ⟨g, rfl, rfl⟩ := exists_header hrun
    exact ⟨g, rest, header_proper_iff.mp hh, rfl⟩
  · rintro ⟨h, rest, hh, rfl⟩
    exact ⟨r.header h, r.tokens rest, header_proper_iff.mpr hh,
      by rw [tokens_header, r.tokens_append]⟩

theorem elseHead_proper_iff : (r.elseHead e).Proper (r.tokens s) ↔ e.Proper s := by
  have hbrace : (∀ b ∈ e.brace.map r.token, b.word = .mark "\x7b") ↔
      ∀ b ∈ e.brace, b.word = .mark "\x7b" := by
    cases e.brace <;> simp
  constructor
  · rintro ⟨hkeyword, hb, hheader⟩
    exact ⟨hkeyword, hbrace.mp hb, fun hnone =>
      header_ahead_iff.mp (hheader (Option.map_eq_none_iff.mpr hnone))⟩
  · rintro ⟨hkeyword, hb, hheader⟩
    exact ⟨hkeyword, hbrace.mpr hb, fun hnone =>
      header_ahead_iff.mpr (hheader (Option.map_eq_none_iff.mp hnone))⟩

theorem elseHead_ahead_iff : ElseHead.Ahead (r.tokens s) ↔ ElseHead.Ahead s := by
  constructor
  · rintro ⟨e, rest, he, hs⟩
    obtain ⟨run, rest, rfl, hrun, rfl⟩ := List.map_eq_append_iff.mp hs.symm
    obtain ⟨g, rfl, rfl⟩ := exists_elseHead hrun
    exact ⟨g, rest, elseHead_proper_iff.mp he, rfl⟩
  · rintro ⟨e, rest, he, rfl⟩
    exact ⟨r.elseHead e, r.tokens rest, elseHead_proper_iff.mpr he,
      by rw [tokens_elseHead, r.tokens_append]⟩

end Relocation

end BraceLang
