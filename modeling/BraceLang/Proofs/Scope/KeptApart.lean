import BraceLang.Proofs.Scope.Copies

/-!
# `Proofs.Scope.KeptApart` — names that mean the same under both settings

Without isolated scopes a block keeps a name also if it is declared only in a block inside it. A name to
which this does not happen is looked up in the same blocks under both settings, and its references mean the
same declarations there.

Whether a name is kept apart is told by the code of the blocks: no block in which the name is looked up has
a block inside it that declares the name. So it can be decided for the tree of a program.

## Contents
- `Tree.KeptApart`, a name that no block keeps for the sake of the blocks inside it, and
  **`KeptApart.isMeant_iff`**.
- `Tree.keptApart_iff`, the same told by the blocks inside a block.
- `Code.blockCodes` and `Code.KeepsApart`, with `CodeOf.keepsApart_iff`: told by code.
- **`Program.keptApart_iff`**, by which it is decidable.
-/

namespace BraceLang

namespace Tree

variable {t : Tree} {isolate : Bool} {name : String} {id block : Nat} {n : Node}

/-! ## The two settings -/

/-- What belongs to a block counts in it under both settings. -/
theorem BelongsTo.countsIn (h : t.BelongsTo id block) (isolate : Bool) : t.CountsIn isolate id block := by
  cases isolate with
  | true => exact h
  | false => exact .single h

/-- What counts in some block belongs to one. -/
theorem CountsIn.exists_belongsTo (h : t.CountsIn isolate id block) : ∃ b, t.BelongsTo id b := by
  cases isolate with
  | true => exact ⟨block, h⟩
  | false =>
    obtain ⟨b, hbelongs, -⟩ := Relation.TransGen.head'_iff.mp h
    exact ⟨b, hbelongs⟩

/-- Isolated scopes let a name out of at least as many blocks. -/
theorem LooksUp.isolated (h : t.LooksUp false name block) : t.LooksUp true name block := by
  induction h with
  | here hn hreference hbelongs => exact .here hn hreference hbelongs
  | outward _ hnot hbelongs ih =>
    refine .outward ih ?_ hbelongs
    rintro ⟨n, v, hn, hv, hname, hcounts⟩
    exact hnot ⟨n, v, hn, hv, hname, BelongsTo.countsIn hcounts false⟩

/-- A name is kept apart if no block keeps it for the sake of the blocks inside it: where the name is
    looked up, only declarations count that belong to the very block. -/
def KeptApart (t : Tree) (name : String) : Prop :=
  ∀ block n v, t.LooksUp false name block → t.get? n.id = some n → t.localVariable? n = some v →
    v.name = name → t.CountsIn false n.id block → t.BelongsTo n.id block

/-- A name that is kept apart is looked up in the same blocks under both settings. -/
theorem KeptApart.looksUp_iff (h : t.KeptApart name) :
    t.LooksUp false name block ↔ t.LooksUp true name block := by
  refine ⟨LooksUp.isolated, fun hlooks => ?_⟩
  -- only a step outward could differ, where a declaration further in would stop the name
  induction hlooks with
  | here hn hreference hbelongs => exact .here hn hreference hbelongs
  | outward _ hnot hbelongs ih =>
    refine .outward ih ?_ hbelongs
    rintro ⟨n, v, hn, hv, hname, hcounts⟩
    exact hnot ⟨n, v, hn, hv, hname, h _ n v ih hn hv hname hcounts⟩

/-- **References of a name that is kept apart mean the same under both settings.** -/
theorem KeptApart.isMeant_iff (h : t.KeptApart name) {v : Variable} (hn : t.get? n.id = some n)
    (hv : t.localVariable? n = some v) (hname : v.name = name) :
    t.IsMeant false name n ↔ t.IsMeant true name n := by
  constructor
  · rintro ⟨block, hlooks, hcounts⟩
    exact ⟨block, hlooks.isolated, h block n v hlooks hn hv hname hcounts⟩
  · rintro ⟨block, hlooks, hcounts⟩
    exact ⟨block, h.looksUp_iff.mpr hlooks, BelongsTo.countsIn hcounts false⟩

/-! ## Blocks inside a block -/

section Outline

variable {o : Outline}

/-- A block has a smaller number than what belongs to it. -/
theorem BelongsTo.lt (h : (ofOutline o).BelongsTo id block) : block < id := by
  induction h with
  | directly hn _ hid =>
    obtain ⟨hmem, rfl⟩ := get?_ofOutline_eq_some_iff.mp hn
    exact Outline.id_lt_of_mem_children hmem hid
  | through hn _ hid _ ih =>
    obtain ⟨hmem, rfl⟩ := get?_ofOutline_eq_some_iff.mp hn
    exact ih.trans (Outline.id_lt_of_mem_children hmem hid)

theorem not_transBelongsTo_self : ¬ Relation.TransGen (ofOutline o).BelongsTo block block := by
  have hlt {id block : Nat} (h : Relation.TransGen (ofOutline o).BelongsTo id block) : block < id := by
    induction h with
    | single h => exact h.lt
    | tail _ h ih => exact h.lt.trans ih
  exact fun h => Nat.lt_irrefl _ (hlt h)

/-- A name is kept apart if and only if it is declared in no block inside of one where it is looked up. -/
theorem keptApart_iff : (ofOutline o).KeptApart name ↔ ∀ block inner,
    (ofOutline o).LooksUp false name block → Relation.TransGen (ofOutline o).BelongsTo inner block →
      ¬ (ofOutline o).Declares true inner name := by
  constructor
  · rintro h block inner hlooks hinner ⟨n, v, hn, hv, hname, hbelongs⟩
    have hown := h block n v hlooks hn hv hname (.head hbelongs hinner)
    obtain rfl := BelongsTo.unique hbelongs hown
    exact not_transBelongsTo_self hinner
  · intro h block n v hlooks hn hv hname hcounts
    obtain ⟨inner, hbelongs, hrest⟩ := Relation.TransGen.head'_iff.mp hcounts
    rcases Relation.reflTransGen_iff_eq_or_transGen.mp hrest with rfl | hinner
    · exact hbelongs
    · exact absurd ⟨n, v, hn, hv, hname, hbelongs⟩ (h block inner hlooks hinner)

end Outline

end Tree

/-! ## Code -/

namespace Code

/-- The code of each block in some code, in the order of the blocks. -/
def blockCodes : Code → List Code
  | done => []
  | skip _ rest | simple _ rest => rest.blockCodes
  | loop _ _ body _ rest | ifThen _ body _ rest => body :: body.blockCodes ++ rest.blockCodes
  | ifThenElse _ body _ _ other _ rest =>
    body :: body.blockCodes ++ (other :: other.blockCodes ++ rest.blockCodes)

/-- The names that are looked up in a block with the code in it, unless scopes are isolated. -/
def lookedUp (c : Code) : List String :=
  c.references ++ (c.resolve { trackUsage := true, isolateScopes := false }).free

/-- A block with the code in it does its part for a name to be kept apart: if the name is looked up in the
    block, no block inside it declares the name. -/
def KeepsApart (name : String) (c : Code) : Prop :=
  name ∈ c.lookedUp → ∀ inner ∈ c.blockCodes, ∀ v ∈ inner.declarations true, v.name ≠ name

instance (name : String) (c : Code) : Decidable (c.KeepsApart name) :=
  inferInstanceAs (Decidable
    (name ∈ c.lookedUp → ∀ inner ∈ c.blockCodes, ∀ v ∈ inner.declarations true, v.name ≠ name))

end Code

namespace Tree

variable {t : Tree} {name : String} {block : Node} {c : Code}

/-- The code is that of a block. -/
def CodeOf (t : Tree) (c : Code) (block : Node) : Prop :=
  block.label.kind.isBlock = true ∧
    ∃ siblings, t.Holds block.id (.node block.label c.outline siblings)

theorem CodeOf.declares_iff (h : t.CodeOf c block) (isolate : Bool) :
    t.Declares isolate block.id name ↔ ∃ v ∈ c.declarations isolate, v.name = name := by
  obtain ⟨hl, siblings, hheld⟩ := h
  exact hheld.declares_iff hl

theorem CodeOf.looksUp_iff (h : t.CodeOf c block) :
    t.LooksUp false name block.id ↔ name ∈ c.lookedUp := by
  obtain ⟨hl, siblings, hheld⟩ := h
  have htrack : Config.trackUsage { trackUsage := true, isolateScopes := false } = true := rfl
  have hfollows := c.resolve_follows htrack hheld.below
  rw [Code.lookedUp, List.mem_append, hfollows.free, hheld.looksUp_iff hl]

/-- Only a block declares something. -/
theorem Declares.isBlock {id : Nat} (h : t.Declares true id name) :
    ∃ n, t.get? id = some n ∧ n.label.kind.isBlock = true := by
  obtain ⟨n, v, -, -, -, hbelongs⟩ := h
  exact BelongsTo.isBlock hbelongs

/-- A block comes before the blocks inside it. -/
theorem Holds.forall₂_codeOf {base : Nat} {l : Label} {siblings : Outline}
    (h : t.Holds base (.node l c.outline siblings)) (hl : l.kind.isBlock = true)
    (hinner : List.Forall₂ t.CodeOf c.blockCodes (c.outline.blocks (base + 1))) :
    List.Forall₂ t.CodeOf (c :: c.blockCodes) (Outline.blocks base (.single l c.outline)) := by
  rw [Outline.blocks_of_isBlock hl]
  exact .cons ⟨hl, siblings, h⟩ hinner

/-- **The blocks in some code have the code that `blockCodes` gives them.** -/
theorem Holds.forall₂_blockCodes {base : Nat} (h : t.Holds base c.outline) :
    List.Forall₂ t.CodeOf c.blockCodes (c.outline.blocks base) := by
  induction c generalizing base with
  | done => exact .nil
  | skip x rest ih => exact ih h
  | simple s rest ih =>
    have hl : s.label.kind.isBlock = false := by cases s <;> rfl
    rw [Code.outline, Outline.blocks_node, Outline.blocks_of_not_isBlock hl,
      Outline.blocks_eq_nil s.isBlock_parts]
    exact ih h.beside
  | loop kind hd body closing rest ihb ih =>
    have hl : kind.nodeKind.isBlock = false := by cases kind <;> rfl
    obtain ⟨hblock, hrest, -⟩ := h.header
    have hbody := hblock.forall₂_codeOf rfl (ihb hblock.below)
    rw [Code.outline, Outline.blocks_header hl]
    exact List.rel_append hbody (ih hrest)
  | ifThen hd body closing rest ihb ih =>
    obtain ⟨hblock, hrest, -⟩ := h.header
    have hbody := hblock.forall₂_codeOf rfl (ihb hblock.below)
    rw [Code.outline, Outline.blocks_header rfl]
    exact List.rel_append hbody (ih hrest)
  | ifThenElse hd body closing e other otherClosing rest ihb iho ih =>
    obtain ⟨hblock, hrest, -⟩ := h.header
    have hbody := hblock.forall₂_codeOf rfl (ihb hblock.below)
    have hother := hblock.beside.forall₂_codeOf rfl (iho hblock.beside.below)
    rw [Code.outline, Outline.blocks_header rfl, Outline.blocks_node, List.append_assoc]
    exact List.rel_append hbody (List.rel_append hother (ih hrest))

/-- What the code of a block says about the blocks inside it holds of them in the tree. -/
theorem CodeOf.keepsApart_iff (h : t.CodeOf c block) : c.KeepsApart name ↔
    (t.LooksUp false name block.id → ∀ inner, Relation.TransGen t.BelongsTo inner block.id →
      ¬ t.Declares true inner name) := by
  rw [Code.KeepsApart, h.looksUp_iff]
  obtain ⟨hl, siblings, hheld⟩ := h
  have hcodes := hheld.below.forall₂_blockCodes
  refine forall_congr' fun _ => ?_
  constructor
  · intro hnone inner hinner hdeclares
    obtain ⟨n, hn, rfl⟩ := (hheld.transBelongsTo_iff hl).mp hinner
    obtain ⟨m, hm, hkind⟩ := hdeclares.isBlock
    obtain rfl : m = n := Option.some.inj (hm.symm.trans (hheld.below.get?_of_mem_number hn))
    obtain ⟨c', hc', hcode⟩ := forall₂_exists_left hcodes m (List.mem_filter.mpr ⟨hn, hkind⟩)
    obtain ⟨v, hv, hname⟩ := (hcode.declares_iff true).mp hdeclares
    exact hnone c' hc' v hv hname
  · intro hnone c' hc' v hv hname
    obtain ⟨n, hn, hcode⟩ := forall₂_exists_right hcodes c' hc'
    have hinner := (hheld.transBelongsTo_iff hl).mpr ⟨n, (List.mem_filter.mp hn).1, rfl⟩
    exact hnone n.id hinner ((hcode.declares_iff true).mpr ⟨v, hv, hname⟩)

end Tree

/-! ## Programs -/

/-- The code of each block of a function. -/
def Function.blockCodes (f : Function) : List Code :=
  (f.body.map fun b => b.code :: b.code.blockCodes).getD []

namespace Program

variable {name : String}

/-- The code of each block of a program, in the order of the blocks. -/
def blockCodes (p : Program) : List Code := p.functions.flatMap Function.blockCodes

theorem forall₂_blockCodes (p : Program) : List.Forall₂ p.tree.CodeOf p.blockCodes p.tree.blocks := by
  apply p.forall₂_blocks Function.blockCodes
  intro id f hf
  obtain ⟨more, hheld⟩ := p.tree_holds_functions.function hf
  have hbody := (hheld.below.append).2
  rw [Function.outline, Outline.blocks_of_not_isBlock rfl, Outline.blocks_append,
    Outline.blocks_eq_nil f.isBlock_startOutline, List.nil_append, Function.blockCodes]
  cases hb : f.body with
  | none => exact .nil
  | some b =>
    rw [hb] at hbody
    exact hbody.forall₂_codeOf rfl hbody.below.forall₂_blockCodes

/-- **A name is kept apart if and only if each block does its part.** -/
theorem keptApart_iff (p : Program) :
    p.tree.KeptApart name ↔ ∀ c ∈ p.blockCodes, c.KeepsApart name := by
  refine Tree.keptApart_iff.trans ⟨fun h c hc => ?_, fun h block inner hlooks => ?_⟩
  · obtain ⟨b, -, hcode⟩ := forall₂_exists_right p.forall₂_blockCodes c hc
    exact hcode.keepsApart_iff.mpr fun hlooks inner => h b.id inner hlooks
  · obtain ⟨b, hget, hkind⟩ := hlooks.isBlock
    obtain ⟨hmem, rfl⟩ := Tree.get?_ofOutline_eq_some_iff.mp hget
    obtain ⟨c, hc, hcode⟩ := forall₂_exists_left p.forall₂_blockCodes b
      (List.mem_filter.mpr ⟨hmem, hkind⟩)
    exact hcode.keepsApart_iff.mp (h c hc) hlooks inner

instance (p : Program) (name : String) : Decidable (p.tree.KeptApart name) :=
  decidable_of_iff _ p.keptApart_iff.symm

end Program

end BraceLang
