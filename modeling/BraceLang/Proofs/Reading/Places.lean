import BraceLang.Proofs.Reading.Extents
import BraceLang.Proofs.Token.Places

/-!
# `Proofs.Reading.Places` — the places of nodes in the source

Where the tokens come from a source text, the extent of a node is a part of that text. The spans of
nodes nest and follow one another as their extents do, because the tokens stand one after the other,
and their positions are those of characters.

## Contents
- `Tree.SpansNest` and `Tree.PlacedIn`.
- **`read_placed`**.
-/

namespace BraceLang

/-- How the spans of the nodes of a tree lie to each other. The span of a child lies inside that of its
    parent, spans begin in the order of the numbers, and the spans of siblings are apart and in order,
    but the type of an array covers the name declared with it. -/
structure Tree.SpansNest (t : Tree) : Prop where
  below : ∀ id n, t.get? id = some n → ∀ m ∈ t.children id,
    n.label.span.start ≤ m.label.span.start ∧ m.label.span.stop ≤ n.label.span.stop
  ordered : ∀ i j n m, t.get? i = some n → t.get? j = some m → i ≤ j →
    n.label.span.start ≤ m.label.span.start
  apart : ∀ id n, t.get? id = some n → (t.children id).Pairwise fun a b =>
    if IsArrayName n.label.kind a.label b.label then
      a.label.span.start ≤ b.label.span.start ∧ b.label.span.stop ≤ a.label.span.stop
    else a.label.span.stop ≤ b.label.span.start

/-- The nodes of a tree begin and end at characters of the source, and have the positions of these. The
    root begins where the source does and ends with the last token. -/
structure Tree.PlacedIn (t : Tree) (source : String) (tokens : List Token) : Prop where
  starts : source ≠ "" → ∀ id n, t.get? id = some n →
    StandsAt source n.label.span.start n.label.start
  stops : tokens ≠ [] → ∀ id n, t.get? id = some n → StopsAt source n.label.span.stop n.label.stop
  root : ∃ n, t.get? Tree.root = some n ∧ n.label.kind = .program ∧
    n.label.span.start = 0 ∧ n.label.start = ⟨1, 1⟩ ∧
      ∀ last ∈ tokens.getLast?, n.label.span.stop = last.span.stop ∧ n.label.stop = last.endPosition

namespace Program

variable {p : Program} {tokens : List Token} {extent : Nat → Extent} {id : Nat} {n m : Tree.Node}

/-- A program ends with the last of its tokens. -/
theorem getLast?_tokens (p : Program) : p.tokens.getLast? = p.last? := by
  obtain ⟨items⟩ := p
  rcases List.eq_nil_or_concat items with rfl | ⟨front, i, rfl⟩
  · rfl
  · have hi : i.tokens.getLast? = some i.last := by
      cases i with
      | function f => exact f.getLast?_tokens
      | skipped t => rfl
    simp [tokens, last?, List.getLast?_append, hi]

/-- A child of a node of a program is a node of it, and is not the root. -/
theorem get?_of_mem_children (h : m ∈ p.tree.children id) :
    p.tree.get? m.id = some m ∧ m.id ≠ Tree.root := by
  rw [Tree.children] at h
  cases hn : p.tree.get? id with
  | none =>
    rw [hn] at h
    exact absurd h List.not_mem_nil
  | some n =>
    rw [hn] at h
    obtain ⟨child, hchild, hm⟩ := List.mem_filterMap.mp h
    obtain ⟨hmem, rfl⟩ := Tree.get?_ofOutline_eq_some_iff.mp hm
    have hlt := Outline.id_lt_of_mem_children (Tree.get?_ofOutline_eq_some_iff.mp hn).1 hchild
    rw [Tree.root]
    exact ⟨hm, by omega⟩

theorem label_of_get?_root (h : p.tree.get? Tree.root = some n) : n.label = p.label := by
  have hroot : p.tree.get? Tree.root = _ := (Tree.holds_ofOutline p.outline).root
  rw [← Option.some.inj (hroot.symm.trans h)]

/-- A node that stands over tokens that follow one another begins with the first of them and ends with
    the last. -/
theorem bounds_of_standsOver (hover : p.tree.StandsOver tokens extent) (hs : Successive tokens)
    (hn : p.tree.get? id = some n) (hid : id ≠ Tree.root) :
    ∃ first last, tokens[(extent id).first]? = some first ∧ tokens[(extent id).last]? = some last ∧
      n.label.start = first.position ∧ n.label.stop = last.endPosition ∧
        n.label.span = ⟨first.span.start, last.span.stop⟩ := by
  obtain ⟨hle, first, last, hfirst, hlast, hlabel⟩ := hover.covers id n hn hid
  refine ⟨first, last, hfirst, hlast, by rw [hlabel]; rfl, by rw [hlabel]; rfl, ?_⟩
  have hstart := hs.start_le hfirst hlast hle
  have hstop := hs.start_lt_stop last (List.mem_of_getElem? hlast)
  rw [hlabel, Label.covering, Nat.max_eq_left (by omega)]

theorem spansNest_of_standsOver (hover : p.tree.StandsOver tokens extent) (hs : Successive tokens)
    (htokens : p.tokens = tokens) : p.tree.SpansNest := by
  constructor
  · intro id n hn m hm
    obtain ⟨hmget, hmid⟩ := get?_of_mem_children hm
    obtain ⟨first, last, hfirst, hlast, -, -, hspan⟩ := bounds_of_standsOver hover hs hmget hmid
    by_cases hid : id = Tree.root
    · subst hid
      rw [label_of_get?_root hn, hspan]
      refine ⟨Nat.zero_le _, ?_⟩
      -- the last token of all is not before the last one of the child
      obtain ⟨hlt, -⟩ := List.getElem?_eq_some_iff.mp hlast
      obtain ⟨final, hfinal⟩ : ∃ final, tokens[tokens.length - 1]? = some final :=
        ⟨_, List.getElem?_eq_getElem (by omega)⟩
      have hstop := hs.stop_le hlast hfinal (by omega)
      rw [← List.getLast?_eq_getElem?, ← htokens, getLast?_tokens] at hfinal
      rw [label, hfinal]
      exact hstop
    · obtain ⟨first', last', hfirst', hlast', -, -, hspan'⟩ := bounds_of_standsOver hover hs hn hid
      obtain ⟨hbegin, hend⟩ := hover.below id n hn m hm
      rw [hspan, hspan']
      exact ⟨hs.start_le hfirst' hfirst hbegin, hs.stop_le hlast hlast' hend⟩
  · intro i j n m hn hm hij
    by_cases hi : i = Tree.root
    · subst hi
      rw [label_of_get?_root hn]
      exact Nat.zero_le _
    have hj : j ≠ Tree.root := by
      rw [Tree.root] at hi ⊢
      omega
    obtain ⟨first, last, hfirst, -, -, -, hspan⟩ := bounds_of_standsOver hover hs hn hi
    obtain ⟨first', last', hfirst', -, -, -, hspan'⟩ := bounds_of_standsOver hover hs hm hj
    rw [hspan, hspan']
    exact hs.start_le hfirst hfirst' (hover.ordered i j n m hn hm hij)
  · intro id n hn
    refine (hover.apart id n hn).imp_of_mem fun {a b} ha hb hab => ?_
    obtain ⟨haget, haid⟩ := get?_of_mem_children ha
    obtain ⟨hbget, hbid⟩ := get?_of_mem_children hb
    obtain ⟨first, last, hfirst, hlast, -, -, hspan⟩ := bounds_of_standsOver hover hs haget haid
    obtain ⟨first', last', hfirst', hlast', -, -, hspan'⟩ := bounds_of_standsOver hover hs hbget hbid
    rw [hspan, hspan']
    rw [Apart] at hab
    split at hab
    · next harray =>
      rw [if_pos harray]
      exact ⟨hs.start_le hfirst hfirst' hab.1.le, hs.stop_le hlast' hlast hab.2.le⟩
    · next harray =>
      rw [if_neg harray]
      exact hs.apart hlast hfirst' hab

/-- **The nodes of a tree that was read from a source lie as their text does.** Their spans nest and
    follow one another, and each node begins and ends at characters of the source. -/
theorem read_placed {limit : Nat} {source : String}
    (h : Program.read limit (tokenize source).tokens = .ok p) :
    p.tree.SpansNest ∧ p.tree.PlacedIn source (tokenize source).tokens := by
  obtain ⟨extent, hroot, hfits, hapart⟩ := exists_fits h
  have hover := standsOver_of_fits hroot hfits hapart
  have hs := tokenize_successive source
  have htokens := read_tokens h
  have hlast := p.getLast?_tokens
  rw [htokens] at hlast
  refine ⟨spansNest_of_standsOver hover hs htokens, ?_, ?_, ?_⟩
  · intro hne id n hn
    by_cases hid : id = Tree.root
    · subst hid
      rw [label_of_get?_root hn]
      obtain ⟨c, rest, hsource⟩ := List.exists_cons_of_ne_nil
        (fun hnil => hne (String.toList_eq_nil_iff.mp hnil))
      exact ⟨[], c, rest, hsource, rfl, rfl⟩
    · obtain ⟨first, last, hfirst, -, hstart, -, hspan⟩ := bounds_of_standsOver hover hs hn hid
      rw [hspan, hstart]
      exact (Scan.tokenize_places (List.mem_of_getElem? hfirst)).1
  · intro hne id n hn
    by_cases hid : id = Tree.root
    · subst hid
      obtain ⟨final, hfinal⟩ : ∃ final, (tokenize source).tokens.getLast? = some final :=
        ⟨_, List.getLast?_eq_some_getLast hne⟩
      rw [label_of_get?_root hn, label, ← hlast, hfinal]
      exact (Scan.tokenize_places (List.mem_of_getLast? hfinal)).2
    · obtain ⟨first, last, -, hlast, -, hstop, hspan⟩ := bounds_of_standsOver hover hs hn hid
      rw [hspan, hstop]
      exact (Scan.tokenize_places (List.mem_of_getElem? hlast)).2
  · refine ⟨_, (Tree.holds_ofOutline p.outline).root, rfl, rfl, rfl, fun last hmem => ?_⟩
    rw [Option.mem_def.mp hmem] at hlast
    dsimp only
    rw [label, ← hlast]
    exact ⟨rfl, rfl⟩

/-- The declaration of an array, the type of which stands around its name, and a comment. -/
def arrayInBody : String := "int f() \x7b\n  int a[2] = b; // two\n\x7d"

theorem read_placed_array :
    ∃ p, Program.read 1 (tokenize arrayInBody).tokens = .ok p ∧ p.tree.SpansNest ∧
      p.tree.PlacedIn arrayInBody (tokenize arrayInBody).tokens := by
  have hread : (Program.read 1 (tokenize arrayInBody).tokens).toBool = true := by decide +kernel
  cases h : Program.read 1 (tokenize arrayInBody).tokens with
  | error e => rw [h] at hread; exact absurd hread Bool.false_ne_true
  | ok p => exact ⟨p, rfl, read_placed h⟩

end Program

end BraceLang
