import BraceLang.Proofs.Layout.Independence
import BraceLang.Proofs.Scope.Declared
import BraceLang.Proofs.Scope.Usage
import BraceLang.Proofs.Tree.Ancestry

/-!
# `Proofs.Scope.Copies` — the copies of a declaration agree

Unless scopes are isolated, a declaration counts in every block around it, and each of the scopes of these
blocks has a copy of its variable. A name that is looked up marks the copies in one scope only. What
follows makes the other copies agree, by the span of the declared name. This is harmless because no two
declarations of a text share a span, and it reaches every copy because the blocks in which a declaration
counts all belong to one function.

## Contents
- `Tree.IsMeant`, a declaration that some reference means.
- `Tree.BelongsTo.iff_of_parent`, and that nothing belongs to two blocks.
- `ScopeOf.exists_declaration` and `ScopeOf.exists_variable`, from variables to declarations and back.
- **`Scopes.forall₂_shareUsage`**, what making the copies agree comes to.
- `Program.spansDiffer`, a declaration is known by the span of its name.
- `Program.contains_iff_of_belongsTo`, a function and the blocks in it.
- **`Program.scopes_shared`**.
-/

namespace BraceLang

/-- Some reference of the name means the declaration `n`: it is looked up in a block in which the
    declaration counts. -/
def Tree.IsMeant (t : Tree) (isolate : Bool) (name : String) (n : Node) : Prop :=
  ∃ block, t.LooksUp isolate name block ∧ t.CountsIn isolate n.id block

theorem Tree.CountsIn.isBlock {t : Tree} {isolate : Bool} {id block : Nat}
    (h : t.CountsIn isolate id block) :
    ∃ n, t.get? block = some n ∧ n.label.kind.isBlock = true := by
  cases isolate with
  | true => exact BelongsTo.isBlock h
  | false =>
    obtain ⟨_, -, hbelongs⟩ := Relation.TransGen.tail'_iff.mp h
    exact hbelongs.isBlock

/-! ## Blocks of a tree with parents -/

namespace Tree

variable {o : Outline} {id above block other : Nat} {n : Node}

/-- What belongs to a block, told by the one parent of the node. -/
theorem BelongsTo.iff_of_parent (hn : (ofOutline o).get? above = some n)
    (hid : id ∈ n.children) : (ofOutline o).BelongsTo id block ↔
      if n.label.kind.isBlock then above = block else (ofOutline o).BelongsTo above block := by
  constructor
  · have hparent {m : Node} {other : Nat} (hm : (ofOutline o).get? other = some m)
        (hid' : id ∈ m.children) : m = n ∧ other = above := by
      obtain rfl := (get?_ofOutline_eq_some_iff.mp hm).2
      obtain rfl := (get?_ofOutline_eq_some_iff.mp hn).2
      have hsame : m = n := parent_unique hm hn hid' hid
      exact ⟨hsame, congrArg Node.id hsame⟩
    intro h
    cases h with
    | directly hm hkind hid' =>
      obtain ⟨rfl, rfl⟩ := hparent hm hid'
      rw [if_pos hkind]
    | through hm hkind hid' habove =>
      obtain ⟨rfl, rfl⟩ := hparent hm hid'
      rwa [hkind, if_neg Bool.false_ne_true]
  · split
    · next hkind =>
      rintro rfl
      exact .directly hn hkind hid
    · next hkind => exact .through hn (Bool.eq_false_iff.mpr hkind) hid

/-- Nothing belongs to two blocks. -/
theorem BelongsTo.unique (h : (ofOutline o).BelongsTo id block) (h' : (ofOutline o).BelongsTo id other) :
    block = other := by
  induction h with
  | directly hn hkind hid =>
    rwa [iff_of_parent hn hid, if_pos hkind] at h'
  | through hn hkind hid _ ih =>
    rw [iff_of_parent hn hid, hkind, if_neg Bool.false_ne_true] at h'
    exact ih h'

/-- The root belongs to no block. -/
theorem not_belongsTo_root : ¬ (ofOutline o).BelongsTo root block := by
  have hnone {m : Node} {x : Nat} (hm : (ofOutline o).get? x = some m) : root ∉ m.children :=
    fun hid => Nat.not_lt_zero _
      (Outline.id_lt_of_mem_children (get?_ofOutline_eq_some_iff.mp hm).1 hid)
  intro h
  cases h with
  | directly hm _ hid => exact hnone hm hid
  | through hm _ hid _ => exact hnone hm hid

end Tree

/-! ## Variables and their declarations -/

section Forall₂

variable {α β : Type} {R S : α → β → Prop} {as : List α} {bs : List β}

theorem forall₂_imp_of_mem (h : List.Forall₂ R as bs) (himp : ∀ a, ∀ b ∈ bs, R a b → S a b) :
    List.Forall₂ S as bs := by
  induction h with
  | nil => exact .nil
  | cons hab _ ih =>
    exact .cons (himp _ _ List.mem_cons_self hab)
      (ih fun a b hb => himp a b (List.mem_cons_of_mem _ hb))

end Forall₂

namespace Tree.ScopeOf

variable {t : Tree} {isolate : Bool} {used : Node → Node → Variable → Prop} {s : Scope} {block : Node}

/-- Every variable of a scope is that of a declaration which counts in the block. -/
theorem exists_declaration (h : t.ScopeOf isolate used s block) {v : Variable} (hv : v ∈ s.locals) :
    ∃ n w, t.get? n.id = some n ∧ t.localVariable? n = some w ∧ t.CountsIn isolate n.id block.id ∧
      v = { w with used := v.used } ∧ (v.used = true ↔ used block n v) := by
  obtain ⟨declarations, -, hmem, hlocals⟩ := h.locals
  obtain ⟨n, hn, w, hw, hv, hused⟩ := forall₂_exists_right hlocals v hv
  obtain ⟨hget, -, hcounts⟩ := (hmem n).mp hn
  exact ⟨n, w, hget, hw, hcounts, hv, hused⟩

/-- Every declaration that counts in the block has a variable in the scope. -/
theorem exists_variable (h : t.ScopeOf isolate used s block) {n : Node} {w : Variable}
    (hn : t.get? n.id = some n) (hw : t.localVariable? n = some w)
    (hcounts : t.CountsIn isolate n.id block.id) :
    ∃ v ∈ s.locals, v = { w with used := v.used } ∧ (v.used = true ↔ used block n v) := by
  obtain ⟨declarations, -, hmem, hlocals⟩ := h.locals
  have hin : n ∈ declarations := (hmem n).mpr ⟨hn, by rw [hw]; rfl, hcounts⟩
  obtain ⟨v, hv, w', hw', heq, hused⟩ := forall₂_exists_left hlocals n hin
  rw [hw] at hw'
  obtain rfl := Option.some.inj hw'
  exact ⟨v, hv, heq, hused⟩

end Tree.ScopeOf

/-! ## Making the copies agree -/

/-- No two declarations of the tree share the span of the declared name. -/
def Tree.SpansDiffer (t : Tree) : Prop :=
  ∀ n m v w, t.get? n.id = some n → t.get? m.id = some m → t.localVariable? n = some v →
    t.localVariable? m = some w → v.span = w.span → n = m

namespace Scopes

theorem mem_usedSpans {scopes : Scopes} {span : Span} : span ∈ scopes.usedSpans ↔
    ∃ s ∈ scopes.labels, ∃ v ∈ s.locals, v.used = true ∧ v.span = span := by
  rw [usedSpans, List.mem_eraseDups]
  simp only [List.mem_map, List.mem_filter, List.mem_flatMap]
  constructor
  · rintro ⟨v, ⟨⟨s, hs, hv⟩, hused⟩, hspan⟩
    exact ⟨s, hs, v, hv, hused, hspan⟩
  · rintro ⟨s, hs, v, hv, hused, hspan⟩
    exact ⟨v, ⟨⟨s, hs, hv⟩, hused⟩, hspan⟩

variable {t : Tree} {isolate : Bool} {scopes : Scopes} {blocks : List Tree.Node}

/-- The spans of the copies that are used are those of the declarations that are meant. -/
theorem mem_usedSpans_iff (hspans : t.SpansDiffer)
    (hscopes : List.Forall₂ (t.ScopeOf isolate fun b _ v => t.LooksUp isolate v.name b.id)
      scopes.labels blocks)
    {n : Tree.Node} {w : Variable} (hn : t.get? n.id = some n) (hw : t.localVariable? n = some w)
    (hblocks : ∀ block, t.CountsIn isolate n.id block → ∃ b ∈ blocks, b.id = block) :
    w.span ∈ scopes.usedSpans ↔ t.IsMeant isolate w.name n := by
  rw [mem_usedSpans]
  constructor
  · rintro ⟨s, hs, v, hv, hused, hspan⟩
    obtain ⟨b, -, hscope⟩ := forall₂_exists_right hscopes s hs
    obtain ⟨m, x, hm, hx, hcounts, heq, hiff⟩ := hscope.exists_declaration hv
    -- the copy that is used is one of the declaration itself
    have hspan' : x.span = w.span := by
      rw [← hspan, heq]
    obtain rfl := hspans m n x w hm hn hx hw hspan'
    rw [hw] at hx
    obtain rfl := Option.some.inj hx
    have hname : v.name = w.name := by rw [heq]
    have hlooks := hiff.mp hused
    rw [hname] at hlooks
    exact ⟨b.id, hlooks, hcounts⟩
  · rintro ⟨block, hlooks, hcounts⟩
    obtain ⟨b, hb, rfl⟩ := hblocks block hcounts
    obtain ⟨s, hs, hscope⟩ := forall₂_exists_left hscopes b hb
    obtain ⟨v, hv, heq, hiff⟩ := hscope.exists_variable hn hw hcounts
    have hname : v.name = w.name := by rw [heq]
    have hspan : v.span = w.span := by rw [heq]
    rw [hname] at hiff
    exact ⟨s, hs, v, hv, hiff.mpr hlooks, hspan⟩

/-- **After the copies have been made to agree, a variable is used just if its declaration is meant.** -/
theorem forall₂_shareUsage (hspans : t.SpansDiffer)
    (hscopes : List.Forall₂ (t.ScopeOf isolate fun b _ v => t.LooksUp isolate v.name b.id)
      scopes.labels blocks)
    (hblocks : ∀ b ∈ blocks, ∀ id block, t.CountsIn isolate id b.id → t.CountsIn isolate id block →
      ∃ b ∈ blocks, b.id = block) :
    List.Forall₂ (t.ScopeOf isolate fun _ n v => t.IsMeant isolate v.name n)
      scopes.shareUsage.labels blocks := by
  rw [shareUsage, Forest.labels_map, List.forall₂_map_left_iff]
  refine forall₂_imp_of_mem hscopes ?_
  intro s b hb hscope
  obtain ⟨declarations, hordered, hmem, hlocals⟩ := hscope.locals
  refine ⟨hscope.startLine, hscope.endLine, declarations, hordered, hmem, ?_⟩
  show List.Forall₂ _ (s.locals.map _) _
  rw [List.forall₂_map_left_iff]
  refine forall₂_imp_of_mem hlocals ?_
  rintro v n hn ⟨w, hw, heq, hused⟩
  obtain ⟨hget, -, hcounts⟩ := (hmem n).mp hn
  have hname : v.name = w.name := by rw [heq]
  have hspan : v.span = w.span := by rw [heq]
  refine ⟨w, hw, ?_, ?_⟩
  · rw [heq]
  · have hmeant := mem_usedSpans_iff hspans hscopes hget hw fun block hin =>
      hblocks b hb n.id block hcounts hin
    simp only [Bool.or_eq_true, List.contains_iff_mem, hspan, hname, hmeant]
    constructor
    · rintro (hv | hmeant)
      · rw [← hname]
        exact ⟨b.id, hused.mp hv, hcounts⟩
      · exact hmeant
    · exact .inr

end Scopes

/-! ## A declaration is known by its span -/

/-- The variables that some code declares, nested blocks included, begin where some of its tokens do. -/
theorem Code.map_start_declarations_sublist (c : Code) :
    ((c.declarations false).map fun v => v.span.start).Sublist
      (c.tokens.map fun t => t.span.start) := by
  induction c with
  | done => exact List.Sublist.refl _
  | skip t rest ih => exact ih.trans (List.sublist_cons_self _ _)
  | simple s rest ih =>
    rw [declarations, tokens, List.map_append, List.map_append]
    refine List.Sublist.append ?_ ih
    cases s with
    | declaration type name suffix initializer semicolon =>
      -- the name is the second token of the declaration
      exact List.Sublist.cons _ (List.Sublist.cons_cons _ (List.nil_sublist _))
    | call | ret | assignment => exact List.nil_sublist _
  | loop kind h body closing rest ihb ih =>
    simp only [declarations, tokens, List.map_append, Bool.false_eq_true, if_false]
    exact (List.nil_sublist _).append (ihb.append ((List.nil_sublist _).append ih))
  | ifThen h body closing rest ihb ih =>
    simp only [declarations, tokens, List.map_append, Bool.false_eq_true, if_false]
    exact (List.nil_sublist _).append (ihb.append ((List.nil_sublist _).append ih))
  | ifThenElse h body closing e other otherClosing rest ihb iho ih =>
    simp only [declarations, tokens, List.map_append, Bool.false_eq_true, if_false,
      List.append_assoc]
    exact (List.nil_sublist _).append (ihb.append ((List.nil_sublist _).append
      ((List.nil_sublist _).append (iho.append ((List.nil_sublist _).append ih)))))

theorem Function.map_start_declarations_sublist (f : Function) :
    ((f.code.declarations false).map fun v => v.span.start).Sublist
      (f.tokens.map fun t => t.span.start) := by
  rw [code, tokens]
  cases f.body with
  | none => exact List.nil_sublist _
  | some b =>
    have hcode := b.code.map_start_declarations_sublist
    -- the code stands behind the brace of the body, and this behind the parameters
    have hbody : (b.code.tokens).Sublist (f.type :: f.name :: (f.parameters.tokens ++
        (b.tokens ++ f.semicolon.toList))) := by
      refine List.Sublist.cons _ (List.Sublist.cons _ ?_)
      rw [Block.tokens, List.cons_append]
      have hin : (b.code.tokens).Sublist (b.code.tokens ++ b.closing.toList ++ f.semicolon.toList) := by
        rw [List.append_assoc]
        exact List.sublist_append_left _ _
      exact (hin.cons _).trans (List.sublist_append_right _ _)
    exact hcode.trans (hbody.map _)

/-- The nodes of an outline without a declaration declare nothing. -/
theorem Tree.filterMap_localVariable?_eq_nil {t : Tree} {o : Outline} {base : Nat}
    (ho : ∀ l ∈ o.labels, l.kind ≠ .variableDeclaration) :
    (o.number base).filterMap t.localVariable? = [] := by
  apply List.filterMap_eq_nil_iff.mpr
  intro n hn
  have hlabel : n.label ∈ o.labels := by
    rw [← Outline.map_label_number o base]
    exact List.mem_map_of_mem hn
  have hkind := ho n.label hlabel
  unfold localVariable?
  split
  · next h => exact absurd h hkind
  · rfl

/-- The declarations below a function are those in its code. -/
theorem Tree.Holds.filterMap_localVariable?_function {t : Tree} {id : Nat} {f : Function}
    {more : Outline} (h : t.Holds id (f.outline ++ more)) :
    (f.outline.number id).filterMap t.localVariable? = f.code.declarations false := by
  have hstart : ∀ l ∈ f.startOutline.labels, l.kind ≠ .variableDeclaration := by
    intro l hl
    have hkind := f.kind_startOutline l hl
    simp only [List.mem_cons, List.not_mem_nil, or_false] at hkind
    rcases hkind with h | h | h | h <;> rw [h] <;> decide
  have hbody : (f.bodyOutline.number (id + 1 + f.startOutline.size)).filterMap t.localVariable? =
      f.code.declarations false := by
    rw [h.functionCode.declarations_eq false, Function.code, Function.bodyOutline]
    cases f.body with
    | none => rfl
    | some b =>
      show List.filterMap _ (Outline.number _ (.node _ b.code.outline .nil)) = _
      rw [Outline.number, Outline.number, List.append_nil, List.filterMap_cons_none rfl,
        show id + 1 + f.startOutline.size + 1 = id + 2 + f.startOutline.size by omega]
      rfl
  rw [Function.outline_eq, Forest.single, Outline.number, Outline.number, List.append_nil,
    List.filterMap_cons_none rfl, Outline.number_append, List.filterMap_append,
    filterMap_localVariable?_eq_nil hstart, List.nil_append, hbody]

namespace Program

theorem map_start_declarations_sublist (p : Program) :
    (p.declarations.map fun v => v.span.start).Sublist (p.tokens.map fun t => t.span.start) := by
  have hitems (items : List ProgramItem) :
      ((Program.mk items).declarations.map fun v => v.span.start).Sublist
        ((Program.mk items).tokens.map fun t => t.span.start) := by
    induction items with
    | nil => exact List.Sublist.refl _
    | cons i items ih =>
      cases i with
      | skipped t => exact ih.cons _
      | function f =>
        show ((f.code.declarations false ++ (Program.mk items).declarations).map _).Sublist
          ((f.tokens ++ (Program.mk items).tokens).map _)
        rw [List.map_append, List.map_append]
        exact f.map_start_declarations_sublist.append ih
  exact hitems p.items

/-- The declarations in the tree of a program are those of its functions. -/
theorem filterMap_localVariable?_number (p : Program) :
    (p.outline.number 0).filterMap p.tree.localVariable? = p.declarations := by
  have hrow (fs : List Function) (base : Nat)
      (h : p.tree.Holds base (fs.foldr (fun f rest => f.outline ++ rest) .nil)) :
      (Outline.number base (fs.foldr (fun f rest => f.outline ++ rest) .nil)).filterMap
        p.tree.localVariable? = fs.flatMap fun f => f.code.declarations false := by
    induction fs generalizing base with
    | nil => rfl
    | cons f fs ih =>
      rw [List.foldr_cons] at h ⊢
      rw [Outline.number_append, List.filterMap_append, h.filterMap_localVariable?_function,
        ih _ h.append.2, List.flatMap_cons]
  have hall := hrow p.functions 1 p.tree_holds_functions
  rw [outline, Forest.single, Outline.number, Outline.number, List.append_nil,
    List.filterMap_cons_none rfl]
  exact hall

/-- Declared names of a text begin in the order of the declarations. -/
theorem pairwise_declarations {source : String} {limit : Nat} {p : Program}
    (h : read limit (tokenize source).tokens = .ok p) :
    p.declarations.Pairwise fun v w => v.span.start < w.span.start := by
  rw [← List.pairwise_map (R := (· < ·)) (f := fun v : Variable => v.span.start)]
  refine List.Pairwise.sublist p.map_start_declarations_sublist ?_
  rw [read_tokens h, List.pairwise_map]
  exact (tokenize_inOrder source).start_lt

/-- A declaration of a text is known by the span of its name. -/
theorem spansDiffer {source : String} {limit : Nat} {p : Program}
    (h : read limit (tokenize source).tokens = .ok p) : p.tree.SpansDiffer := by
  have hstarts : ((p.outline.number 0).filterMap p.tree.localVariable?).Pairwise
      fun v w => v.span.start < w.span.start := by
    rw [p.filterMap_localVariable?_number]
    exact pairwise_declarations h
  have hspans : (p.outline.number 0).Pairwise fun n m => ∀ v, p.tree.localVariable? n = some v →
      ∀ w, p.tree.localVariable? m = some w → v.span ≠ w.span := by
    refine (List.pairwise_filterMap.mp hstarts).imp ?_
    intro n m hlt v hv w hw heq
    exact (hlt v hv w hw).ne (congrArg Span.start heq)
  intro n m v w hn hm hv hw heq
  by_contra hne
  have hsymm : Std.Symm fun n m => ∀ v, p.tree.localVariable? n = some v →
      ∀ w, p.tree.localVariable? m = some w → v.span ≠ w.span :=
    ⟨fun _ _ hdiffer v hv w hw heq => hdiffer w hw v hv heq.symm⟩
  have hn' := (Tree.get?_ofOutline_eq_some_iff.mp hn).1
  have hm' := (Tree.get?_ofOutline_eq_some_iff.mp hm).1
  exact hspans.forall hn' hm' hne v hv w hw heq

end Program

/-! ## The blocks of a function -/

/-- The node with the number `x` is the function with the number `id` or stands below it. -/
def Function.Contains (id : Nat) (f : Function) (x : Nat) : Prop := id ≤ x ∧ x < id + f.nodeCount

namespace Program

variable {p : Program} {id x block : Nat} {f : Function}

/-- The parent of a function is the root, so that no function belongs to a block. -/
theorem not_belongsTo_of_function (hf : (id, f) ∈ p.numberedFunctions) :
    ¬ p.tree.BelongsTo id block := by
  have hroot : p.tree.get? Tree.root = _ := (Tree.holds_ofOutline p.outline).root
  have hchild : id ∈ Outline.rootIds 1 (p.functions.foldr (fun f rest => f.outline ++ rest) .nil) := by
    rw [← Outline.map_id_tops, Tree.tops_functions, List.map_map]
    exact List.mem_map.mpr ⟨(id, f), hf, rfl⟩
  intro h
  exact Tree.not_belongsTo_root ((Tree.BelongsTo.iff_of_parent hroot hchild).mp h)

/-- The parent of a node below a function is the function or stands below it. -/
theorem contains_parent (hf : (id, f) ∈ p.numberedFunctions) {n : Tree.Node} {above : Nat}
    (hn : p.tree.get? above = some n) (hx : x ∈ n.children) (hne : x ≠ id) (h : f.Contains id x) :
    f.Contains id above := by
  obtain ⟨more, hheld⟩ := p.tree_holds_functions.function hf
  rw [Function.Contains, ← f.size_outline] at h ⊢
  obtain ⟨m, hm, rfl⟩ := Outline.exists_mem_number h.1 h.2
  rcases Outline.mem_rootIds_or_exists_parent hm with htop | ⟨k, hk, hin⟩
  · exact absurd (List.mem_singleton.mp htop) hne
  · have hget := hheld.append.1.get?_of_mem_number hk
    have hnumber := (Tree.get?_ofOutline_eq_some_iff.mp hn).2
    subst hnumber
    rw [Tree.parent_unique hn hget hx hin]
    exact Outline.id_of_mem_number hk

/-- **What belongs to a block stands in the same function as the block.** -/
theorem contains_iff_of_belongsTo (hf : (id, f) ∈ p.numberedFunctions)
    (h : p.tree.BelongsTo x block) : f.Contains id x ↔ f.Contains id block := by
  constructor
  · intro hx
    have hne {y above : Nat} (hy : p.tree.BelongsTo y above) : y ≠ id := by
      rintro rfl
      exact not_belongsTo_of_function hf hy
    induction h with
    | directly hn hkind hid => exact contains_parent hf hn hid (hne (.directly hn hkind hid)) hx
    | through hn hkind hid habove ih =>
      exact ih (contains_parent hf hn hid (hne (.through hn hkind hid habove)) hx)
  · rintro ⟨hle, hlt⟩
    obtain ⟨more, hheld⟩ := p.tree_holds_functions.function hf
    have hsize : f.nodeCount = 1 + (f.startOutline ++ f.bodyOutline).size := by
      rw [← f.size_outline]
      rfl
    have hbounds := hheld.bounds_of_belongsTo h (by
      show block = id ∨ (id + 1 ≤ block ∧ block < id + 1 + (f.startOutline ++ f.bodyOutline).size)
      omega)
    have hupper : x < id + 1 + (f.startOutline ++ f.bodyOutline).size := hbounds.2
    rw [Function.Contains]
    omega

/-- What counts in a block stands in the same function as the block. -/
theorem contains_iff_of_countsIn (hf : (id, f) ∈ p.numberedFunctions)
    (h : p.tree.CountsIn false x block) : f.Contains id x ↔ f.Contains id block := by
  have hblocks : Relation.TransGen p.tree.BelongsTo x block := h
  induction hblocks with
  | single hbelongs => exact contains_iff_of_belongsTo hf hbelongs
  | tail _ hbelongs ih => exact (ih (by assumption)).trans (contains_iff_of_belongsTo hf hbelongs)

/-- The blocks in which a declaration of a function counts are blocks of the function. -/
theorem exists_mem_blocks_of_countsIn (hf : (id, f) ∈ p.numberedFunctions) {b : Tree.Node}
    (hb : b ∈ f.outline.blocks id) (hcounts : p.tree.CountsIn false x b.id)
    (h : p.tree.CountsIn false x block) : ∃ b ∈ f.outline.blocks id, b.id = block := by
  obtain ⟨more, hheld⟩ := p.tree_holds_functions.function hf
  have hin : f.Contains id b.id := by
    rw [Function.Contains, ← f.size_outline]
    exact Outline.id_of_mem_number (List.mem_filter.mp hb).1
  have hx := (contains_iff_of_countsIn hf hcounts).mpr hin
  have hblock := (contains_iff_of_countsIn hf h).mp hx
  rw [Function.Contains, ← f.size_outline] at hblock
  obtain ⟨m, hm, rfl⟩ := Outline.exists_mem_number hblock.1 hblock.2
  obtain ⟨n, hn, hkind⟩ := h.isBlock
  rw [hheld.append.1.get?_of_mem_number hm] at hn
  obtain rfl := Option.some.inj hn
  exact ⟨m, List.mem_filter.mpr ⟨hm, hkind⟩, rfl⟩

/-- The scopes of a program and its blocks, once the copies of each declaration have been made to agree. -/
theorem forall₂_scopeOf_shared {source : String} {limit : Nat} {p : Program} {config : Config}
    (hread : read limit (tokenize source).tokens = .ok p) (htrack : config.trackUsage = true)
    (hisolate : config.isolateScopes = false) :
    List.Forall₂ (p.tree.ScopeOf false fun _ n v => p.tree.IsMeant false v.name n)
      (p.scopes config).labels p.tree.blocks := by
  apply p.forall₂_scopes config
  intro id f hf
  obtain ⟨more, hheld⟩ := p.tree_holds_functions.function hf
  obtain ⟨scopes, hscopes, hfollows⟩ := f.exists_forall₂_scopeOf htrack hheld
  have hsettle : scopes.settle config = scopes.shareUsage := by
    rw [Scopes.settle, htrack, hisolate]
    rfl
  rw [hisolate] at hfollows
  rw [hscopes, hsettle]
  exact Scopes.forall₂_shareUsage (spansDiffer hread) hfollows fun b hb id block hcounts hin =>
    exists_mem_blocks_of_countsIn hf hb hcounts hin

/-- **Without isolated scopes the copies of a declaration agree, and they are used just if some reference
    means the declaration.** -/
theorem scopes_shared {source : String} {limit : Nat} {p : Program} {config : Config}
    (hread : read limit (tokenize source).tokens = .ok p) (htrack : config.trackUsage = true)
    (hisolate : config.isolateScopes = false) :
    ∃ scopes, p.tree.scopes config = .ok scopes ∧
      List.Forall₂ (p.tree.ScopeOf false fun _ n v => p.tree.IsMeant false v.name n)
        scopes.labels p.tree.blocks ∧
      ∀ s ∈ scopes.labels, ∀ s' ∈ scopes.labels, ∀ v ∈ s.locals, ∀ w ∈ s'.locals,
        v.span = w.span → v.used = w.used := by
  have hspans := spansDiffer hread
  have hscopes := forall₂_scopeOf_shared hread htrack hisolate
  refine ⟨p.scopes config, p.scopes_tree config, hscopes, ?_⟩
  intro s hs s' hs' v hv w hw heq
  obtain ⟨b, -, hscope⟩ := forall₂_exists_right hscopes s hs
  obtain ⟨b', -, hscope'⟩ := forall₂_exists_right hscopes s' hs'
  obtain ⟨n, x, hn, hx, -, hv, hused⟩ := hscope.exists_declaration hv
  obtain ⟨m, y, hm, hy, -, hw, hused'⟩ := hscope'.exists_declaration hw
  have hspan : x.span = y.span := by
    rw [hv, hw] at heq
    exact heq
  obtain rfl := hspans n m x y hn hm hx hy hspan
  rw [hx] at hy
  obtain rfl := Option.some.inj hy
  have hname : v.name = w.name := by rw [hv, hw]
  rw [hname] at hused
  exact Bool.eq_iff_iff.mpr (hused.trans hused'.symm)

theorem scopes_shared_shadowing :
    ∃ p, read 3 shadowing = .ok p ∧ ∃ scopes,
      p.tree.scopes { trackUsage := true, isolateScopes := false } = .ok scopes ∧
      List.Forall₂ (p.tree.ScopeOf false fun _ n v => p.tree.IsMeant false v.name n)
        scopes.labels p.tree.blocks ∧
      ∀ s ∈ scopes.labels, ∀ s' ∈ scopes.labels, ∀ v ∈ s.locals, ∀ w ∈ s'.locals,
        v.span = w.span → v.used = w.used := by
  obtain ⟨p, hread⟩ := read_shadowing
  exact ⟨p, hread, scopes_shared hread rfl rfl⟩

/-- The inner declaration counts in both scopes and is used in both of them, the outer one in neither. -/
example : (read 3 shadowing).toOption.map (fun p =>
    (p.scopes { trackUsage := true, isolateScopes := false }).labels.map fun s =>
      s.locals.map Variable.used) = some [[false, true], [true]] := by decide +kernel

end Program

end BraceLang
