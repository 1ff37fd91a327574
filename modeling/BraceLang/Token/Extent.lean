import BraceLang.Token.Basic

/-!
# `Token.Extent` — how far a run of tokens reaches

An expression and the inside of a pair of parentheses are runs of arbitrary tokens. They are
delimited by scanning forward and counting parentheses, and no such run goes past a brace: braces
belong to blocks, and a block is never part of an expression.

## Contents
- `expressionExtent`, the length of the expression at the front of a row of tokens.
- `parenExtent?`, the distance to the parenthesis that closes one already opened.
- For each, that the extent stays inside the row, and what stands at its end.
-/

namespace BraceLang

/-- The number of tokens at the front of a row that make up one expression, when `depth`
    parentheses of it are open. The expression ends before a brace, and when none of its own
    parentheses is open also before a `)`, a `;` or a `,`. -/
def expressionExtent : Nat → List Token → Nat
  | _, [] => 0
  | depth, t :: s =>
    if t.isBrace then 0
    else if t.isPunct "(" then expressionExtent (depth + 1) s + 1
    else if t.isPunct ")" then
      match depth with
      | 0 => 0
      | depth + 1 => expressionExtent depth s + 1
    else if (t.isPunct ";" || t.isPunct ",") && depth == 0 then 0
    else expressionExtent depth s + 1

/-- The number of tokens before the `)` that closes the innermost pair, when `depth` further
    parentheses inside that pair are open. There is none if a brace or the end comes first. -/
def parenExtent? : Nat → List Token → Option Nat
  | _, [] => none
  | depth, t :: s =>
    if t.isBrace then none
    else if t.isPunct "(" then (parenExtent? (depth + 1) s).map (· + 1)
    else if t.isPunct ")" then
      match depth with
      | 0 => some 0
      | depth + 1 => (parenExtent? depth s).map (· + 1)
    else (parenExtent? depth s).map (· + 1)

theorem expressionExtent_le (depth : Nat) (s : List Token) :
    expressionExtent depth s ≤ s.length := by
  fun_induction expressionExtent depth s <;> simp_all

/-- The extent of a pair of parentheses leads to a `)`. -/
theorem parenExtent?_spec {depth n : Nat} {s : List Token} (h : parenExtent? depth s = some n) :
    ∃ t, s[n]? = some t ∧ t.isPunct ")" = true := by
  fun_induction parenExtent? depth s generalizing n with
  | case1 => simp at h
  | case2 => simp at h
  | case3 depth t s _ _ ih =>
    obtain ⟨m, hm, rfl⟩ := Option.map_eq_some_iff.1 h
    simpa using ih hm
  | case4 t s _ _ hc =>
    obtain rfl := Option.some.inj h
    exact ⟨t, rfl, hc⟩
  | case5 t s _ _ _ depth ih =>
    obtain ⟨m, hm, rfl⟩ := Option.map_eq_some_iff.1 h
    simpa using ih hm
  | case6 depth t s _ _ _ ih =>
    obtain ⟨m, hm, rfl⟩ := Option.map_eq_some_iff.1 h
    simpa using ih hm

end BraceLang
