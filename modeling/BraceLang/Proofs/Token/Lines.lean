import BraceLang.Proofs.Token.Places

/-!
# `Proofs.Token.Lines` — the lines of tokens that stand one behind the other

A token may go over several lines, since a string may. Of two tokens the later one begins in the line where
the earlier one ends, or further down. `InLines` says so of a whole row of tokens between two lines, in a
form that can be cut where the row is cut.

## Contents
- `InLines`, with `le`, `widen`, `of_mem`, `of_infix`, `inLines_append` and `tighten`.
- `prefix_of_byteLength_le`, for two fronts of one text.
- **`tokenize_inLines`**.
-/

namespace BraceLang

/-- The tokens stand one behind the other from the line `lo` on and up to the line `hi`. -/
def InLines (lo hi : Nat) : List Token → Prop
  | [] => lo ≤ hi
  | t :: run =>
    lo ≤ t.position.line ∧ t.position.line ≤ t.endPosition.line ∧ InLines t.endPosition.line hi run

variable {lo hi : Nat} {run more : List Token} {t last : Token}

theorem InLines.le (h : InLines lo hi run) : lo ≤ hi := by
  induction run generalizing lo with
  | nil => exact h
  | cons t run ih =>
    obtain ⟨hfirst, hown, hrest⟩ := h
    have hbehind := ih hrest
    omega

theorem InLines.widen {lo' hi' : Nat} (h : InLines lo hi run) (hlo : lo' ≤ lo) (hhi : hi ≤ hi') :
    InLines lo' hi' run := by
  induction run generalizing lo lo' with
  | nil => exact Nat.le_trans (Nat.le_trans hlo h) hhi
  | cons t run ih =>
    obtain ⟨hfirst, hown, hrest⟩ := h
    exact ⟨Nat.le_trans hlo hfirst, hown, ih hrest (Nat.le_refl _)⟩

/-- Each of the tokens is between the two lines. -/
theorem InLines.of_mem (h : InLines lo hi run) (ht : t ∈ run) :
    lo ≤ t.position.line ∧ t.position.line ≤ t.endPosition.line ∧ t.endPosition.line ≤ hi := by
  induction run generalizing lo with
  | nil => exact absurd ht List.not_mem_nil
  | cons u run ih =>
    obtain ⟨hfirst, hown, hrest⟩ := h
    rcases List.mem_cons.mp ht with rfl | hmem
    · exact ⟨hfirst, hown, hrest.le⟩
    · obtain ⟨hlo, hin⟩ := ih hrest hmem
      exact ⟨by omega, hin⟩

/-- Between the two parts of a row is a line that the row can be cut at. -/
theorem inLines_append : InLines lo hi (run ++ more) ↔
    ∃ mid, InLines lo mid run ∧ InLines mid hi more := by
  induction run generalizing lo with
  | nil =>
    constructor
    · intro h
      exact ⟨lo, Nat.le_refl lo, h⟩
    · rintro ⟨mid, hle, h⟩
      exact h.widen hle (Nat.le_refl hi)
  | cons t run ih =>
    simp only [List.cons_append, InLines, ih]
    constructor
    · rintro ⟨hfirst, hown, mid, hrun, hmore⟩
      exact ⟨mid, ⟨hfirst, hown, hrun⟩, hmore⟩
    · rintro ⟨mid, ⟨hfirst, hown, hrun⟩, hmore⟩
      exact ⟨hfirst, hown, mid, hrun, hmore⟩

/-- A part of a row is where the row is. -/
theorem InLines.of_infix {part : List Token} (h : InLines lo hi run) (hpart : part <:+: run) :
    InLines lo hi part := by
  obtain ⟨before, behind, rfl⟩ := hpart
  obtain ⟨mid', hfront, hbehind⟩ := inLines_append.mp h
  obtain ⟨mid, hbefore, hpart⟩ := inLines_append.mp hfront
  exact hpart.widen hbefore.le hbehind.le

/-- A row stands between the line where its first token begins and the line where its last one ends. -/
theorem InLines.tighten (h : InLines lo hi (t :: run)) (hlast : (t :: run).getLast? = some last) :
    lo ≤ t.position.line ∧ InLines t.position.line last.endPosition.line (t :: run) ∧
      last.endPosition.line ≤ hi := by
  obtain ⟨front, hrow⟩ := List.getLast?_eq_some_iff.mp hlast
  have hends : InLines lo last.endPosition.line (t :: run) ∧ last.endPosition.line ≤ hi := by
    rw [hrow] at h ⊢
    obtain ⟨mid, hfront, hfirst, hown, hle⟩ := inLines_append.mp h
    exact ⟨inLines_append.mpr ⟨mid, hfront, hfirst, hown, Nat.le_refl _⟩, hle⟩
  obtain ⟨⟨hfirst, hrest⟩, hle⟩ := hends
  exact ⟨hfirst, ⟨Nat.le_refl _, hrest⟩, hle⟩

/-- Tokens whose lines are in order stand one behind the other. -/
theorem inLines_of_pairwise (hown : ∀ t ∈ run, t.position.line ≤ t.endPosition.line)
    (hrow : run.Pairwise fun t u => t.endPosition.line ≤ u.position.line)
    (hlo : ∀ t ∈ run, lo ≤ t.position.line) (hhi : ∀ t ∈ run, t.endPosition.line ≤ hi)
    (hle : lo ≤ hi) : InLines lo hi run := by
  induction run generalizing lo with
  | nil => exact hle
  | cons t run ih =>
    obtain ⟨hbehind, hrow⟩ := List.pairwise_cons.mp hrow
    obtain ⟨hfirst, hown⟩ := List.forall_mem_cons.mp hown
    obtain ⟨hend, hhi⟩ := List.forall_mem_cons.mp hhi
    exact ⟨hlo t List.mem_cons_self, hfirst, ih hown hrow hbehind hhi hend⟩

/-! ## The tokens of a source -/

/-- Of two fronts of one text, the one with fewer bytes is a front of the other. -/
theorem prefix_of_byteLength_le {text front other : List Char} (h : front <+: text)
    (h' : other <+: text) (hle : byteLength front ≤ byteLength other) : front <+: other := by
  rcases List.prefix_or_prefix_of_prefix h h' with hprefix | ⟨between, rfl⟩
  · exact hprefix
  · -- what the longer one has more takes no bytes, so there is nothing
    have hempty : between = [] := by
      by_contra hne
      have hpos := byteLength_pos hne
      rw [byteLength_append] at hle
      omega
    simp [hempty]

variable {source : String} {byte byte' : Nat} {position position' : Position}

/-- A character begins in the line where an earlier one does, or further down. -/
theorem StandsAt.line_le (h : StandsAt source byte position) (h' : StopsAt source byte' position')
    (hlt : byte < byte') : position.line ≤ position'.line := by
  obtain ⟨front, c, behind, hsource, rfl, rfl⟩ := h
  obtain ⟨front', c', behind', hsource', rfl, rfl⟩ := h'
  have hshorter : front <+: front' ++ [c'] :=
    prefix_of_byteLength_le ⟨_, hsource.symm⟩ ⟨behind', by simp [hsource']⟩ (Nat.le_of_lt hlt)
  have hfront : front <+: front' := by
    rcases List.prefix_concat_iff.mp hshorter with rfl | hprefix
    · exact absurd hlt (Nat.lt_irrefl _)
    · exact hprefix
  exact Nat.succ_le_succ (hfront.sublist.count_le _)

theorem StopsAt.line_le (h : StopsAt source byte position) (h' : StandsAt source byte' position')
    (hle : byte ≤ byte') : position.line ≤ position'.line := by
  obtain ⟨front, c, behind, hsource, rfl, rfl⟩ := h
  obtain ⟨front', c', behind', hsource', rfl, rfl⟩ := h'
  have hshorter : front ++ [c] <+: front' :=
    prefix_of_byteLength_le ⟨behind, by simp [hsource]⟩ ⟨_, hsource'.symm⟩ hle
  exact Nat.succ_le_succ (((List.prefix_append _ _).trans hshorter).sublist.count_le _)

/-- **The tokens of a source stand one behind the other**, from the first line to the last one. -/
theorem tokenize_inLines (source : String) :
    InLines 1 (source.toList.count '\n' + 1) (tokenize source).tokens := by
  have hplaces (t : Token) (ht : t ∈ (tokenize source).tokens) := Scan.tokenize_places ht
  obtain ⟨hspan, happart⟩ := tokenize_successive source
  refine inLines_of_pairwise ?_ ?_ ?_ ?_ (Nat.succ_le_succ (Nat.zero_le _))
  · intro t ht
    exact (hplaces t ht).1.line_le (hplaces t ht).2 (hspan t ht)
  · refine happart.imp_of_mem ?_
    intro t u ht hu hle
    exact (hplaces t ht).2.line_le (hplaces u hu).1 hle
  · intro t ht
    obtain ⟨front, c, behind, -, -, hposition⟩ := (hplaces t ht).1
    rw [hposition]
    exact Nat.succ_le_succ (Nat.zero_le _)
  · intro t ht
    obtain ⟨front, c, behind, hsource, -, hposition⟩ := (hplaces t ht).2
    have hfront : front <+: source.toList := ⟨_, hsource.symm⟩
    rw [hposition]
    exact Nat.succ_le_succ (hfront.sublist.count_le _)

end BraceLang
