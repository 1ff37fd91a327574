import BraceLang.Proofs.Flow.Reach
import Mathlib.Data.List.Perm.Lattice

/-!
# `Proofs.Flow.DepthFirst` — the search with a stack is depth-first search

The search for the nodes that can be reached keeps a stack, marks a node when it is taken from the stack
and not when it is put there, and so may find one number on the stack several times. That its order is
that of the recursive search rests on one fact: what lies on the stack below some targets waits until the
targets, and all that is found from them, are done with.

The search stops after as many numbers as there are edges, and one. The size of the stack does not bound the
numbers that are still to come, for it grows with each node found. What does bound them is the stack
together with the edges that leave the nodes not seen so far.

## Contents
- `Graph.Searches`, the search without a bound, and `Graph.unseen`, the nodes still to be seen.
- `Graph.discover`, the recursive search.
- `Graph.searches_append_iff`, what the stack holds below the targets waits for them.
- `Graph.searches_search`, the bound is never met.
- `Graph.mem_discover_iff`, what the recursive search finds.
- **`Graph.reachable_depthFirst`**.
-/

namespace BraceLang.Flow.Graph

/-! ## The search without a bound -/

/-- The number is passed over when it comes from the stack: no node has it, or its node was seen. -/
def Passes (g : Graph) (seen : List Nat) (id : Nat) : Prop :=
  ((g.node? id).isNone || seen.contains id) = true

instance (g : Graph) (seen : List Nat) (id : Nat) : Decidable (g.Passes seen id) :=
  inferInstanceAs (Decidable (_ = true))

/-- From a stack and the nodes seen so far, the latest first, the search takes numbers until the stack is
    empty, and then it has seen the nodes `final`. -/
inductive Searches (g : Graph) : List Nat → List Nat → List Nat → Prop
  | finished {seen : List Nat} : Searches g [] seen seen
  | passed {id : Nat} {stack seen final : List Nat} : g.Passes seen id →
      Searches g stack seen final → Searches g (id :: stack) seen final
  | visited {id : Nat} {stack seen final : List Nat} : ¬ g.Passes seen id →
      Searches g (g.successors id ++ stack) (id :: seen) final → Searches g (id :: stack) seen final

variable {g : Graph} {id source target fuel : Nat} {seen stack targets final : List Nat}

theorem not_passes_iff : ¬ g.Passes seen id ↔ (g.node? id).isSome = true ∧ id ∉ seen := by
  simp [Passes, Option.isSome_iff_ne_none]

theorem searches_nil_iff : g.Searches [] seen final ↔ final = seen := by
  constructor
  · rintro ⟨⟩
    rfl
  · rintro rfl
    exact .finished

theorem searches_cons_iff_of_passes (h : g.Passes seen id) :
    g.Searches (id :: stack) seen final ↔ g.Searches stack seen final := by
  refine ⟨?_, .passed h⟩
  intro hs
  cases hs with
  | passed _ hs => exact hs
  | visited hnot => exact absurd h hnot

theorem searches_cons_iff_of_not_passes (h : ¬ g.Passes seen id) :
    g.Searches (id :: stack) seen final ↔
      g.Searches (g.successors id ++ stack) (id :: seen) final := by
  refine ⟨?_, .visited h⟩
  intro hs
  cases hs with
  | passed hpass => exact absurd hpass h
  | visited _ hs => exact hs

/-! ## The nodes still to be seen -/

/-- The numbers of the nodes that are not among those seen. -/
def unseen (g : Graph) (seen : List Nat) : List Nat := (List.range g.size).filter (· ∉ seen)

/-- Seeing a node takes it from those that are still to be seen, and no other one. -/
theorem unseen_perm (h : ¬ g.Passes seen id) :
    (g.unseen seen).Perm (id :: g.unseen (id :: seen)) := by
  obtain ⟨hnode, hnew⟩ := not_passes_iff.mp h
  have hlt : id < g.size := by
    obtain ⟨v, hv⟩ := Option.isSome_iff_exists.mp hnode
    exact (Array.getElem?_eq_some_iff.mp hv).1
  have hmem : id ∈ g.unseen seen :=
    List.mem_filter.mpr ⟨List.mem_range.mpr hlt, decide_eq_true hnew⟩
  have hnodup : (g.unseen seen).Nodup := List.nodup_range.filter _
  have herase : (g.unseen seen).erase id = g.unseen (id :: seen) := by
    rw [hnodup.erase_eq_filter, unseen, unseen, List.filter_filter]
    refine List.filter_congr ?_
    intro i _
    simp only [List.mem_cons, not_or, Bool.decide_and, decide_not, bne, beq_eq_decide]
  rw [← herase]
  exact List.perm_cons_erase hmem

/-- When a node is seen, and others besides, then fewer nodes are still to be seen. -/
theorem length_unseen_lt (h : ¬ g.Passes seen id) (more : List Nat) :
    (g.unseen (more ++ id :: seen)).length < (g.unseen seen).length := by
  have hle : (g.unseen (more ++ id :: seen)).length ≤ (g.unseen (id :: seen)).length := by
    refine (List.monotone_filter_right _ ?_).length_le
    intro i hi
    rw [decide_eq_true_eq, List.mem_append, not_or] at hi
    exact decide_eq_true hi.2
  rw [(unseen_perm h).length_eq]
  exact Nat.lt_succ_of_le hle

/-! ## The bound of the search -/

/-- How many numbers are still to be taken: those on the stack, and one for each edge that leaves a node
    not seen so far. -/
def pending (g : Graph) (stack seen : List Nat) : Nat :=
  stack.length + ((g.unseen seen).flatMap g.successors).length

theorem pending_visited (h : ¬ g.Passes seen id) :
    g.pending (id :: stack) seen = g.pending (g.successors id ++ stack) (id :: seen) + 1 := by
  have hedges := ((unseen_perm h).flatMap_right g.successors).length_eq
  rw [List.flatMap_cons, List.length_append] at hedges
  rw [pending, pending, hedges, List.length_append, List.length_cons]
  omega

/-- Before any node is seen, every edge is still to be followed. -/
theorem flatMap_unseen_nil (g : Graph) :
    (g.unseen []).flatMap g.successors = g.nodes.toList.flatMap (·.successors) := by
  have hrows : (List.range g.size).map g.successors = g.nodes.toList.map (·.successors) := by
    refine List.ext_getElem (by simp [size]) ?_
    intro i hi _
    have hlt : i < g.nodes.size := by simpa [size] using hi
    simp [successors, node?, hlt]
  have hall : g.unseen [] = List.range g.size := by simp [unseen]
  rw [hall, List.flatMap_def, hrows, List.flatMap_def]

theorem search_cons_of_passes (h : g.Passes seen id) :
    g.search (fuel + 1) (id :: stack) seen = g.search fuel stack seen := if_pos h

theorem search_cons_of_not_passes (h : ¬ g.Passes seen id) :
    g.search (fuel + 1) (id :: stack) seen =
      g.search fuel (g.successors id ++ stack) (id :: seen) := if_neg h

/-- A search that may take all numbers still to be taken is the search without a bound. -/
theorem searches_search (h : g.pending stack seen ≤ fuel) :
    g.Searches stack seen (g.search fuel stack seen) := by
  induction fuel generalizing stack seen with
  | zero =>
    have hempty : stack = [] := List.eq_nil_of_length_eq_zero (by unfold pending at h; omega)
    subst hempty
    exact .finished
  | succ fuel ih =>
    cases stack with
    | nil => exact .finished
    | cons id stack =>
      by_cases hpass : g.Passes seen id
      · rw [search_cons_of_passes hpass]
        have hless : g.pending stack seen ≤ fuel := by
          simp only [pending, List.length_cons] at h ⊢
          omega
        exact .passed hpass (ih hless)
      · rw [search_cons_of_not_passes hpass]
        rw [pending_visited hpass] at h
        exact .visited hpass (ih (Nat.le_of_succ_le_succ h))

/-! ## The recursive search -/

/-- Recursive depth-first search from some targets: each node that is not seen yet comes before what is
    found from its successors, and this before what the targets behind it still find. -/
def discover (g : Graph) (seen : List Nat) : List Nat → List Nat
  | [] => []
  | id :: targets =>
    if _h : g.Passes seen id then g.discover seen targets
    else
      let below := g.discover (id :: seen) (g.successors id)
      id :: (below ++ g.discover (below.reverse ++ id :: seen) targets)
termination_by targets => ((g.unseen seen).length, targets.length)
decreasing_by
  · exact .right _ (Nat.lt_succ_self _)
  · exact .left _ _ (length_unseen_lt _h [])
  · exact .left _ _ (length_unseen_lt _h _)

theorem reverse_append_cons (seen below found : List Nat) (id : Nat) :
    (id :: (below ++ found)).reverse ++ seen = found.reverse ++ (below.reverse ++ id :: seen) := by
  simp only [List.reverse_cons, List.reverse_append, List.append_assoc, List.cons_append,
    List.nil_append]

/-- **What the stack holds below the targets waits for them**: it is taken up when the recursive search from
    the targets has found all that it finds. -/
theorem searches_append_iff :
    g.Searches (targets ++ stack) seen final ↔
      g.Searches stack ((g.discover seen targets).reverse ++ seen) final := by
  fun_induction discover g seen targets generalizing stack
  case case1 seen => rfl
  case case2 seen id targets hpass ih =>
    rw [List.cons_append, searches_cons_iff_of_passes hpass, ih]
  case case3 seen id targets hpass below ihbelow ih =>
    rw [List.cons_append, searches_cons_iff_of_not_passes hpass, ihbelow, ih, reverse_append_cons]

/-- No node is found twice, nor found after it was seen. -/
theorem nodup_discover (h : seen.Nodup) : ((g.discover seen targets).reverse ++ seen).Nodup := by
  fun_induction discover g seen targets with
  | case1 seen => exact h
  | case2 seen id targets hpass ih => exact ih h
  | case3 seen id targets hpass below ihbelow ih =>
    have hcons : (id :: seen).Nodup := List.nodup_cons.mpr ⟨(not_passes_iff.mp hpass).2, h⟩
    rw [reverse_append_cons]
    exact ih (ihbelow hcons)

/-- What is found is a node, and control can come to it from a target. -/
theorem reaches_of_mem_discover (h : id ∈ g.discover seen targets) :
    (g.node? id).isSome = true ∧ ∃ target ∈ targets, g.Reaches target id := by
  fun_induction discover g seen targets with
  | case1 seen => exact absurd h List.not_mem_nil
  | case2 seen first targets hpass ih =>
    obtain ⟨hnode, target, htarget, hreach⟩ := ih h
    exact ⟨hnode, target, List.mem_cons_of_mem _ htarget, hreach⟩
  | case3 seen first targets hpass below ihbelow ih =>
    rw [List.mem_cons, List.mem_append] at h
    rcases h with rfl | hbelow | hfound
    · exact ⟨(not_passes_iff.mp hpass).1, id, List.mem_cons_self, .refl⟩
    · obtain ⟨hnode, target, htarget, hreach⟩ := ihbelow hbelow
      exact ⟨hnode, first, List.mem_cons_self, .head htarget hreach⟩
    · obtain ⟨hnode, target, htarget, hreach⟩ := ih hfound
      exact ⟨hnode, target, List.mem_cons_of_mem _ htarget, hreach⟩

/-- A target that is a node was seen or is found. -/
theorem mem_of_mem_targets (hnode : (g.node? target).isSome = true) (h : target ∈ targets) :
    target ∈ seen ∨ target ∈ g.discover seen targets := by
  fun_induction discover g seen targets with
  | case1 seen => exact absurd h List.not_mem_nil
  | case2 seen id targets hpass ih =>
    rcases List.mem_cons.mp h with rfl | h
    · by_contra hnew
      exact not_passes_iff.mpr ⟨hnode, fun hseen => hnew (.inl hseen)⟩ hpass
    · exact ih h
  | case3 seen id targets hpass below ihbelow ih =>
    rcases List.mem_cons.mp h with rfl | h
    · exact .inr List.mem_cons_self
    · have hlater := ih h
      simp only [List.mem_append, List.mem_reverse, List.mem_cons] at hlater ⊢
      tauto

/-- A successor of what is found, if it is a node, was seen or is found as well. -/
theorem mem_of_mem_successors (hnode : (g.node? target).isSome = true)
    (h : source ∈ g.discover seen targets) (hedge : target ∈ g.successors source) :
    target ∈ seen ∨ target ∈ g.discover seen targets := by
  fun_induction discover g seen targets with
  | case1 seen => exact absurd h List.not_mem_nil
  | case2 seen id targets hpass ih => exact ih h
  | case3 seen id targets hpass below ihbelow ih =>
    have hstep : target ∈ id :: seen ∨ target ∈ below ∨ target ∈ below.reverse ++ id :: seen ∨
        target ∈ g.discover (below.reverse ++ id :: seen) targets := by
      rw [List.mem_cons, List.mem_append] at h
      rcases h with rfl | hbelow | hfound
      · exact (mem_of_mem_targets hnode hedge).imp_right .inl
      · exact (ihbelow hbelow).imp_right .inl
      · exact .inr (.inr (ih hfound))
    simp only [List.mem_append, List.mem_reverse, List.mem_cons] at hstep ⊢
    tauto

/-- A number that has a successor is that of a node. -/
theorem isSome_of_mem_successors (hedge : target ∈ g.successors source) :
    (g.node? source).isSome = true := by
  rw [successors] at hedge
  cases hnode : g.node? source with
  | none =>
    rw [hnode] at hedge
    exact absurd hedge List.not_mem_nil
  | some v => rfl

/-- **The recursive search finds the nodes that control can come to, and no others.** -/
theorem mem_discover_iff :
    id ∈ g.discover [] targets ↔
      (g.node? id).isSome = true ∧ ∃ target ∈ targets, g.Reaches target id := by
  refine ⟨reaches_of_mem_discover, ?_⟩
  rintro ⟨hnode, target, htarget, hreach⟩
  induction hreach with
  | refl => exact (mem_of_mem_targets hnode htarget).resolve_left List.not_mem_nil
  | tail _ hedge ih =>
    have hsource := ih (isSome_of_mem_successors hedge)
    exact (mem_of_mem_successors hnode hsource hedge).resolve_left List.not_mem_nil

/-! ## The nodes that can be reached -/

theorem searches_reachable (g : Graph) : g.Searches [entry] [] g.reachable.reverse := by
  have hbound : g.pending [entry] [] ≤ g.edgeCount + 1 := by
    rw [pending, flatMap_unseen_nil, edgeCount, List.length_singleton]
    omega
  rw [reachable, List.reverse_reverse]
  exact searches_search hbound

theorem searches_entry_iff : g.Searches [entry] [] final ↔ final = (g.discover [] [entry]).reverse := by
  have h : g.Searches ([entry] ++ []) [] final ↔
      g.Searches [] ((g.discover [] [entry]).reverse ++ []) final := searches_append_iff
  rw [List.append_nil, List.append_nil] at h
  rw [h, searches_nil_iff]

theorem reachable_eq_discover (g : Graph) : g.reachable = g.discover [] [entry] := by
  have h := searches_entry_iff.mp (searches_reachable g)
  exact List.reverse_injective h

theorem mem_reachable_iff :
    id ∈ g.reachable ↔ (g.node? id).isSome = true ∧ g.Reaches entry id := by
  rw [reachable_eq_discover, mem_discover_iff]
  simp only [List.mem_singleton, exists_eq_left]

/-- **The search for the nodes that can be reached is depth-first search**, whatever the graph is, with
    cycles or without. With no bound on what it takes from the stack it comes to an end, and there it has
    found what the bounded search gives, in the order of the recursive search. Each node is listed once,
    and these are the nodes that control can come to from the entry. -/
theorem reachable_depthFirst (g : Graph) :
    (∀ final, g.Searches [entry] [] final ↔ final = g.reachable.reverse) ∧
      g.reachable = g.discover [] [entry] ∧ g.reachable.Nodup ∧
      (∀ id, id ∈ g.reachable ↔ (g.node? id).isSome = true ∧ g.Reaches entry id) ∧
      ∀ id, g.isReachable id = true ↔ (g.node? id).isSome = true ∧ g.Reaches entry id := by
  have hnodup : g.reachable.Nodup := by
    have h : ((g.discover [] [entry]).reverse ++ []).Nodup := nodup_discover List.nodup_nil
    rw [List.append_nil, List.nodup_reverse] at h
    rwa [reachable_eq_discover]
  refine ⟨?_, reachable_eq_discover g, hnodup, fun _ => mem_reachable_iff, ?_⟩
  · intro final
    rw [searches_entry_iff, reachable_eq_discover]
  · intro id
    rw [isReachable, List.contains_iff_mem, mem_reachable_iff]

/-- The first branch of a decision is listed with all behind it before the second one. Numbers that
    stand on the stack twice, a loop and a node that nothing leads to do not disturb this. -/
example :
    Graph.reachable ⟨"main", #[⟨default, [1]⟩, ⟨default, [2, 3]⟩, ⟨default, [4]⟩, ⟨default, [4, 1]⟩,
      ⟨default, []⟩, ⟨default, [4]⟩]⟩ = [0, 1, 2, 4, 3] := by
  decide +kernel

end BraceLang.Flow.Graph
