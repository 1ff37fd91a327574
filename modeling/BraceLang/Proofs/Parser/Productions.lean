import BraceLang.Proofs.Parser.Progress

/-!
# `Proofs.Parser.Productions` — statements are parsed exactly by their productions

The parser begins a statement where it recognises one, and it recognises a run of tokens just if the run
spells one of the seven productions. No two of these compete. A form without a block is passed in full and
nothing behind it; of a form with a block at least the tokens up to the brace are passed.

## Contents
- `parseStatement_eq_none_iff` and `exists_parseStatement_simple`, what comes of one call.
- **`Cursor.statements_exact`**.
-/

namespace BraceLang

namespace Parser

variable {s : State} {x : Simple} {rest : List Token} {limit fuel : Nat}

/-- A statement without a block is parsed, and just its tokens are passed. -/
theorem exists_parseStatement_simple (hx : x.Proper) (hs : s.ahead = x.tokens ++ rest)
    (hfuel : s.ahead.length < fuel) :
    ∃ id s', outcome (parseStatement limit fuel) s = (.ok (some id), s') ∧ s.Grown id s' ∧
      s'.cursor.position = s.cursor.position + x.tokens.length := by
  have hshape : Shape.Proper (.simple x) := hx
  have hne : x.tokens ≠ [] := List.length_pos_iff.mp (Shape.length_pos (.simple x))
  have hparses : Parses limit s.cursor.position (parseStatement limit fuel) (x.tokens ++ []) rest
      (some <$> x.build) .nil :=
    parses_statement hshape parsesShape_simple (Nat.le_of_lt (hs ▸ hfuel))
  rw [List.append_nil] at hparses
  exact ⟨_, _, (hparses s rfl hs).1 rfl, State.grown_after hs hne x.builds_build,
    State.position_after hs x.build⟩

/-- Nothing is parsed, and nothing is changed, if and only if no statement begins at the cursor. -/
theorem parseStatement_eq_none_iff (hfuel : s.ahead.length < fuel) :
    outcome (parseStatement limit fuel) s = (.ok none, s) ↔ ¬ Shape.Ahead s.ahead := by
  constructor
  · rintro hnone ⟨shape, rest, hshape, hs⟩
    obtain ⟨result, hends⟩ := exists_ends_of_shape limit hshape hs.symm
    obtain ⟨s', hends, hne, -⟩ := hends fuel hfuel
    exact hne (hends.eq_ok (congrArg Prod.fst hnone))
  · intro hnot
    obtain ⟨n, rfl⟩ := Nat.exists_eq_add_one.mpr (Nat.zero_lt_of_lt hfuel)
    exact outcome_parseStatement_of_not hnot

end Parser

namespace Cursor

open BraceLang.Parser

/-- **Statements are recognised exactly by their productions, and these never compete.** For any row of
    tokens and any index, at most one form is recognised there, so it does not matter in which order the
    forms are tried. A form is recognised if and only if some run that begins at the index spells its
    production, and a statement begins there if and only if some run spells some production. That run
    and its form are unique, and it is what is recognised, from the index to the one given. The readers
    of statements with and without a block take just this, and go on behind it.

    The parser, given more fuel than tokens are ahead, parses nothing at the index and changes nothing if
    and only if no run spells a production there. A form without a block it parses to a node, and it then
    stands right behind the run. A form with a block comes to a node as well, with the cursor behind the
    brace at least, or to a block beyond the limit. -/
theorem statements_exact (c : Cursor) (i : Nat) :
    (∀ f g, (c.shapeAt? i f).isSome = true → (c.shapeAt? i g).isSome = true → f = g) ∧
    (∀ forms : List Form, (∀ f, f ∈ forms) → forms.findSome? (c.shapeAt? i) = c.statementAt? i) ∧
    (∀ f : Form, (c.shapeAt? i f).isSome = true ↔ ∃ run, run <+: c.ahead i ∧ f.Spells (words run)) ∧
    ((c.statementAt? i).isSome = true ↔
      ∃ f : Form, ∃ run, run <+: c.ahead i ∧ f.Spells (words run)) ∧
    (∀ f g : Form, ∀ run other, run <+: c.ahead i → f.Spells (words run) →
      other <+: c.ahead i → g.Spells (words other) → f = g ∧ run = other) ∧
    (∀ shape stop, c.statementAt? i = some (shape, stop) →
      c.slice i (stop + 1) = shape.tokens ∧ shape.tokens <+: c.ahead i ∧
        shape.form.Spells (words shape.tokens)) ∧
    (∀ x rest, Simple.read? (c.ahead i) = some (x, rest) ↔
      ∃ stop, c.statementAt? i = some (.simple x, stop) ∧ c.ahead (stop + 1) = rest) ∧
    (∀ kind h rest, Header.readAny? (c.ahead i) = some (kind, h, rest) ↔
      ∃ stop, c.statementAt? i = some (.header kind h, stop) ∧ c.ahead (stop + 1) = rest) ∧
    ∀ (limit fuel : Nat) (s : State), s.cursor = c → c.position = i → s.ahead.length < fuel →
      (outcome (parseStatement limit fuel) s = (.ok none, s) ↔
        ¬ ∃ f : Form, ∃ run, run <+: c.ahead i ∧ f.Spells (words run)) ∧
      (∀ x stop, c.statementAt? i = some (.simple x, stop) →
        ∃ id s', outcome (parseStatement limit fuel) s = (.ok (some id), s') ∧ s.Grown id s' ∧
          s'.cursor.position = stop + 1) ∧
      ∀ kind h stop, c.statementAt? i = some (.header kind h, stop) →
        ∃ result s', s.Ends (parseStatement limit fuel) result s' ∧ result ≠ .ok none ∧
          ∀ id, result = .ok (some id) → s.Grown id s' ∧ stop < s'.cursor.position := by
  refine ⟨?_, ?_, fun f => isSome_shapeAt?_iff, isSome_statementAt?_iff, ?_, ?_,
    fun x rest => simpleRead?_ahead_iff, fun kind h rest => headerReadAny?_ahead_iff, ?_⟩
  · intro f g hf hg
    obtain ⟨p, hp⟩ := Option.isSome_iff_exists.mp hf
    obtain ⟨q, hq⟩ := Option.isSome_iff_exists.mp hg
    exact (shapeAt?_unique hp hq).1
  · intro forms hall
    refine Option.ext fun p => ?_
    rw [findSome?_shapeAt?_eq_some_iff hall, statementAt?_eq_some_iff]
  · exact fun f g run other hrun hf hother hg => run_unique hrun hf hother hg
  · exact fun shape stop hshape => spells_slice hshape
  · rintro limit fuel s rfl rfl hfuel
    refine ⟨?_, fun x stop hsimple => ?_, fun kind h stop hheader => ?_⟩
    · rw [parseStatement_eq_none_iff hfuel, ← isSome_statementAt?_iff, Option.not_isSome_iff_eq_none,
        statementAt?_eq_none_iff]
      rfl
    · obtain ⟨hproper, htokens, hstop⟩ := of_statementAt?_eq_some hsimple
      rw [hstop]
      exact exists_parseStatement_simple hproper htokens.symm hfuel
    · obtain ⟨hproper, htokens, hstop⟩ := of_statementAt?_eq_some hheader
      obtain ⟨result, hends⟩ := exists_ends_of_shape limit hproper htokens.symm
      obtain ⟨s', hends, hne, hgrown⟩ := hends fuel hfuel
      refine ⟨result, s', hends, hne, fun id hid => ?_⟩
      obtain ⟨hgrown, hle⟩ := hgrown id hid
      exact ⟨hgrown, by omega⟩

end Cursor

end BraceLang
