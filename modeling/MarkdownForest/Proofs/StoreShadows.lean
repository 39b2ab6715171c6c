/-
# MarkdownForest.Proofs.StoreShadows -- wrapping nodes on both sides

A store shadows another if its forest does, every wrapper of the other has a copy,
and the copy of a live node has the copy of its wrapper, or none if there is none.
As for nodes, all wrappers known so far are still there.

Wrapping a node makes wrappers for the same nodes on both sides, in the same order
(`Shadows.materialize`).
-/
import MarkdownForest.Proofs.Applying
import MarkdownForest.Proofs.Shadowing

namespace MarkdownForest

set_option autoImplicit false

def Wrapper.rename (ρ : Equiv.Perm NodeId) (v : Wrapper) : Wrapper :=
  { v with node := ρ v.node }

/-- The mutation with its wrappers renamed. -/
def Mutation.rename (σ : Equiv.Perm WrapperId) : Mutation → Mutation
  | unlink w => unlink (σ w)
  | insertBefore a w => insertBefore (σ a) (σ w)
  | insertAfter a w => insertAfter (σ a) (σ w)
  | prependChild p w => prependChild (σ p) (σ w)
  | appendChild p w => appendChild (σ p) (σ w)

namespace Store

/-- `t` mirrors `s`, and still has all nodes and wrappers that have been known. -/
structure Shadows (ρ : Equiv.Perm NodeId) (σ : Equiv.Perm WrapperId) (nodes : NodeId → Prop)
    (wrappers : WrapperId → Prop) (s t : Store) : Prop where
  forest : s.forest.Shadows ρ nodes t.forest
  record : ∀ {w v}, s.heap.get? w = some v → t.heap.get? (σ w) = some (v.rename ρ)
  lookup : ∀ {x}, s.forest.contains x → t.identity.lookup (ρ x) = (s.identity.lookup x).map σ
  seen : ∀ {w}, s.heap.contains w → wrappers w
  entered : ∀ {x w}, s.identity.lookup x = some w → wrappers w
  kept : ∀ {w}, wrappers w → t.heap.contains (σ w)
  /-- No nodes are wrapped in `t` but those that have been known. -/
  wrapped : ∀ {y}, t.identity.contains y → ∃ x, nodes x ∧ ρ x = y

section Shadows

variable {ρ : Equiv.Perm NodeId} {σ τ : Equiv.Perm WrapperId} {nodes : NodeId → Prop}
  {wrappers : WrapperId → Prop} {s s' t t' : Store} {x : NodeId} {w : WrapperId} {v : Wrapper}

theorem Shadows.identity_contains (h : Shadows ρ σ nodes wrappers s t) (hx : s.forest.contains x) :
    t.identity.contains (ρ x) = s.identity.contains x := by
  rw [IdentityTable.contains, IdentityTable.contains, h.lookup hx, Option.isSome_map]

theorem Shadows.know (h : Shadows ρ σ nodes wrappers s t) :
    Shadows ρ σ nodes (Known wrappers s.heap.contains) s t :=
  { h with
    seen := .inr
    entered := fun hx => .inl (h.entered hx)
    kept := fun hw => h.kept (hw.elim id h.seen) }

/-- Wrappers may be forgotten unless they are there. -/
theorem Shadows.forget {wrappers' : WrapperId → Prop} (h : Shadows ρ σ nodes wrappers s t)
    (fewer : ∀ w, wrappers' w → wrappers w) (seen : ∀ {w}, s.heap.contains w → wrappers' w)
    (entered : ∀ {x w}, s.identity.lookup x = some w → wrappers' w) :
    Shadows ρ σ nodes wrappers' s t :=
  { h with seen := seen, entered := entered, kept := fun hw => h.kept (fewer _ hw) }

/-! ## Wrapping -/

/-- What becomes of two stores when the same is wrapped in both. -/
structure Wrapping (ρ : Equiv.Perm NodeId) (σ τ : Equiv.Perm WrapperId) (nodes : NodeId → Prop)
    (wrappers : WrapperId → Prop) (s s' t' : Store) : Prop where
  same : ∀ w, wrappers w → τ w = σ w
  forest : s'.forest = s.forest
  shadows : Shadows ρ τ nodes (Known wrappers s'.heap.contains) s' t'

/-- A wrapper is made on both sides. -/
theorem Shadows.enter (h : Shadows ρ σ nodes wrappers s t) (hx : s.forest.contains x)
    (o : Ownership) (new : ¬ wrappers (s.enter x o).1) :
    ∃ τ, Wrapping ρ σ τ nodes wrappers s (s.enter x o).2 (t.enter (ρ x) o).2 ∧
      τ (s.enter x o).1 = (t.enter (ρ x) o).1 := by
  obtain ⟨τ, same, moved⟩ := exists_renaming σ new (y := (t.enter (ρ x) o).1) fun u hu e => by
    have live := h.kept hu
    simp [Heap.contains, Arena.contains, e, Store.enter, Heap.alloc, Arena.get?_alloc_new] at live
  have record : ∀ {w v}, (s.enter x o).2.heap.get? w = some v →
      (t.enter (ρ x) o).2.heap.get? (τ w) = some (v.rename ρ) := fun {w v} hw => by
    rcases get?_enter_iff.mp hw with ⟨rfl, rfl⟩ | hw
    · exact get?_enter_iff.mpr (.inl ⟨moved, rfl⟩)
    · rw [same w (h.seen (Arena.contains_iff.mpr ⟨v, hw⟩))]
      exact get?_enter_iff.mpr (.inr (h.record hw))
  refine ⟨τ, ⟨same, rfl, h.forest, record, fun {y} hy => ?_, .inr, fun {y u} hu => ?_, ?_,
    fun {y} hy => ?_⟩, moved⟩
  · by_cases e : y = x
    · simp [lookup_enter, e, moved]
    · rw [lookup_enter, lookup_enter, if_neg e, if_neg fun e' => e (ρ.injective e'), h.lookup hy]
      cases found : s.identity.lookup y with
      | none => rfl
      | some u => rw [Option.map_some, Option.map_some, same u (h.entered found)]
  · rw [lookup_enter] at hu
    split at hu
    · cases hu
      exact .inr (Arena.contains_iff.mpr ⟨_, get?_enter_iff.mpr (.inl ⟨rfl, rfl⟩)⟩)
    · exact .inl (h.entered hu)
  · rintro u (hu | hu)
    · obtain ⟨v, hv⟩ := Arena.contains_iff.mp (h.kept hu)
      rw [same u hu]
      exact Arena.contains_iff.mpr ⟨v, get?_enter_iff.mpr (.inr hv)⟩
    · obtain ⟨v, hv⟩ := Arena.contains_iff.mp hu
      exact Arena.contains_iff.mpr ⟨_, record hv⟩
  · rcases contains_enter.mp hy with rfl | hy
    · exact ⟨x, h.forest.seen hx, rfl⟩
    · exact h.wrapped hy

theorem Wrapping.refl (h : Shadows ρ σ nodes wrappers s t) :
    Wrapping ρ σ σ nodes wrappers s s t :=
  ⟨fun _ _ => rfl, rfl, h.know⟩

theorem Shadows.getOrCreate (h : Shadows ρ σ nodes wrappers s t) (hx : s.forest.contains x)
    (e : s.getOrCreate x = .ok (w, s'))
    (new : ∀ u, wrappers u → s'.heap.contains u → s.heap.contains u) :
    ∃ τ t', t.getOrCreate (ρ x) = .ok (τ w, t') ∧ Wrapping ρ σ τ nodes wrappers s s' t' := by
  have lookup := h.lookup hx
  unfold Store.getOrCreate at e ⊢
  rw [lookup]
  cases found : s.identity.lookup x with
  | some u =>
    rw [found] at e
    cases e
    exact ⟨σ, t, rfl, .refl h⟩
  | none =>
    rw [found] at e
    obtain ⟨o, ho, e⟩ := bind_eq_ok.mp e
    have e : s.enter x o = (w, s') := Except.ok.inj e
    obtain rfl : (s.enter x o).1 = w := congrArg Prod.fst e
    obtain rfl : (s.enter x o).2 = s' := congrArg Prod.snd e
    have made : (s.enter x o).2.heap.contains (s.enter x o).1 :=
      Arena.contains_iff.mpr ⟨_, get?_enter_iff.mpr (.inl ⟨rfl, rfl⟩)⟩
    obtain ⟨τ, wrapping, moved⟩ := h.enter hx o fun known => by
      have live := new _ known made
      simp [Heap.contains, Arena.contains, Store.enter, Heap.alloc, Arena.get?_alloc_new] at live
    refine ⟨τ, _, ?_, wrapping⟩
    simp [h.forest.mirrors.ownership hx, ho, moved]

/-- One wrapping after another. -/
theorem Wrapping.trans {υ : Equiv.Perm WrapperId} {s'' t'' : Store}
    (k : Wrapping ρ σ τ nodes wrappers s s' t')
    (l : Wrapping ρ τ υ nodes (Known wrappers s'.heap.contains) s' s'' t'')
    (grown : ∀ w, s'.heap.contains w → s''.heap.contains w) :
    Wrapping ρ σ υ nodes wrappers s s'' t'' where
  same w hw := (l.same w (.inl hw)).trans (k.same w hw)
  forest := l.forest.trans k.forest
  shadows := l.shadows.forget (fun _ hw => hw.imp_left .inl) .inr fun hx =>
    (l.shadows.entered hx).elim (Or.imp_right (grown _)) .inr

/-- Several nodes are wrapped on both sides, one after another. -/
theorem Shadows.wrapAll {xs : List NodeId} (h : Shadows ρ σ nodes wrappers s t)
    (live : ∀ x ∈ xs, s.forest.contains x)
    (e : (xs.foldlM (fun s y => return (← Store.getOrCreate s y).2) s :
      Except ForestError Store) = .ok s')
    (new : ∀ u, wrappers u → s'.heap.contains u → s.heap.contains u) :
    ∃ τ t', ((xs.map ρ).foldlM (fun s y => return (← Store.getOrCreate s y).2) t :
      Except ForestError Store) = .ok t' ∧ Wrapping ρ σ τ nodes wrappers s s' t' := by
  induction xs generalizing s t σ wrappers with
  | nil =>
    cases e
    exact ⟨σ, t, rfl, .refl h⟩
  | cons x xs ih =>
    rw [List.foldlM_cons] at e
    obtain ⟨u, hu, more⟩ := bind_eq_ok.mp e
    obtain ⟨⟨w, u⟩, made, ⟨⟩⟩ := bind_eq_ok.mp hu
    have grown := fun k => (filled_getOrCreate made).contains (k := k)
    have rest := fun k => (filled_wrapAll more).contains (k := k)
    obtain ⟨τ, t₁, made', first⟩ := h.getOrCreate (live x (by simp)) made
      fun k hk live => new k hk (rest k live)
    obtain ⟨υ, t₂, more', second⟩ := ih first.shadows
      (fun y hy => first.forest ▸ live y (by simp [hy])) more fun k hk live => by
        rcases hk with hk | hk
        · exact grown k (new k hk live)
        · exact hk
    refine ⟨υ, t₂, ?_, first.trans second rest⟩
    rw [List.map_cons, List.foldlM_cons, made']
    exact more'

theorem takeWhile_map_of_mem {α β : Type} {p : β → Bool} {q : α → Bool} {k : α → β} {xs : List α}
    (same : ∀ x ∈ xs, p (k x) = q x) : (xs.map k).takeWhile p = (xs.takeWhile q).map k := by
  induction xs with
  | nil => rfl
  | cons x xs ih =>
    simp only [List.map_cons, List.takeWhile_cons, same x List.mem_cons_self]
    rw [ih fun y hy => same y (List.mem_cons_of_mem x hy)]
    split <;> rfl

/-- The same nodes lack wrappers above a node. -/
theorem Shadows.unwrappedAbove (h : Shadows ρ σ nodes wrappers s t) (hx : s.forest.contains x) :
    t.unwrappedAbove (ρ x) = (s.unwrappedAbove x).map ρ ∧
      ∀ y ∈ s.unwrappedAbove x, s.forest.contains y := by
  have hf := h.forest.linked
  have live : ∀ y ∈ (s.forest.ancestors x).drop 1, s.forest.contains y := fun y hy =>
    hf.live_of_path hx (hf.path_ancestors hx) y (List.mem_of_mem_drop hy)
  refine ⟨?_, fun y hy => live y ((List.takeWhile_sublist _).mem hy)⟩
  rw [Store.unwrappedAbove, Store.unwrappedAbove, h.forest.mirrors.ancestors hf h.forest.linked' hx,
    ← List.map_drop]
  exact takeWhile_map_of_mem fun y hy => congrArg (! ·) (h.identity_contains (live y hy))

/-- A node is wrapped on both sides, after all above it. -/
theorem Shadows.materialize (h : Shadows ρ σ nodes wrappers s t) (hx : s.forest.contains x)
    (e : s.materialize x = .ok (w, s'))
    (new : ∀ u, wrappers u → s'.heap.contains u → s.heap.contains u) :
    ∃ τ t', t.materialize (ρ x) = .ok (τ w, t') ∧ Wrapping ρ σ τ nodes wrappers s s' t' := by
  have lookup := h.lookup hx
  unfold Store.materialize at e ⊢
  rw [lookup, h.forest.mirrors.content hx]
  cases found : s.identity.lookup x with
  | some u =>
    rw [found] at e
    cases e
    exact ⟨σ, t, rfl, .refl h⟩
  | none =>
    rw [found] at e
    obtain ⟨c, hc, e⟩ := bind_eq_ok.mp e
    obtain ⟨u, above, last⟩ := bind_eq_ok.mp e
    obtain ⟨same, live⟩ := h.unwrappedAbove hx
    have grown := fun k => (filled_wrapAll above).contains (k := k)
    have rest := fun k => (filled_getOrCreate last).contains (k := k)
    obtain ⟨τ, t₁, above', first⟩ := h.wrapAll (fun y hy => live y (List.mem_reverse.mp hy)) above
      fun k hk live => new k hk (rest k live)
    obtain ⟨υ, t₂, last', second⟩ := first.shadows.getOrCreate (first.forest ▸ hx) last
      fun k hk live => by
        rcases hk with hk | hk
        · exact grown k (new k hk live)
        · exact hk
    refine ⟨υ, t₂, ?_, first.trans second rest⟩
    rw [hc, same, ← List.map_reverse]
    simp only [ok_bind, Option.map_none]
    rw [above']
    exact last'

/-! ## Changes -/

/-- Forests may change as long as no node becomes live again under a name known before. -/
theorem Shadows.reforest {τ : Equiv.Perm NodeId} {nodes' : NodeId → Prop} {f g : Forest}
    (h : Shadows ρ σ nodes wrappers s t) (paired : Paired s) (same : ∀ z, nodes z → τ z = ρ z)
    (forest : f.Shadows τ nodes' g) (more : ∀ z, nodes z → nodes' z)
    (new : ∀ z, nodes z → f.contains z → s.forest.contains z) :
    Shadows τ σ nodes' wrappers { s with forest := f } { t with forest := g } where
  forest := forest
  record {w v} hw := by
    rw [Wrapper.rename, same _ (h.forest.seen (paired.live hw))]
    exact h.record hw
  lookup {x} hx := by
    by_cases known : nodes x
    · rw [same x known]
      exact h.lookup (new x known hx)
    · have bare : s.identity.lookup x = none := by
        cases e : s.identity.lookup x with
        | none => rfl
        | some w =>
          exact absurd (h.forest.seen (paired.live_of_wrapped (identity_contains_iff.mpr ⟨w, e⟩))) known
      have bare' : t.identity.lookup (τ x) = none := by
        cases e : t.identity.lookup (τ x) with
        | none => rfl
        | some w =>
          obtain ⟨z, hz, e⟩ := h.wrapped (identity_contains_iff.mpr ⟨w, e⟩)
          rw [← same z hz] at e
          exact absurd (τ.injective e ▸ hz) known
      rw [bare, bare', Option.map_none]
  seen := h.seen
  entered := h.entered
  kept := h.kept
  wrapped hy := by
    obtain ⟨z, hz, rfl⟩ := h.wrapped hy
    exact ⟨z, more z hz, same z hz⟩

theorem heapUpdate_contains (k : Heap) (w u : WrapperId) (change : Wrapper → Wrapper) :
    (k.update w change).contains u = k.contains u := by
  change ((k.update w change).get? u).isSome = (k.get? u).isSome
  rw [Heap.get?_update]
  split
  · rw [Option.isSome_map]
  · rfl

/-- A wrapper may change on both sides. -/
theorem Shadows.update {change : Wrapper → Wrapper} (h : Shadows ρ σ nodes wrappers s t)
    (w : WrapperId) (same : ∀ v, change (v.rename ρ) = (change v).rename ρ) :
    Shadows ρ σ nodes wrappers { s with heap := s.heap.update w change }
      { t with heap := t.heap.update (σ w) change } where
  forest := h.forest
  record {u v} hu := by
    rw [Heap.get?_update] at hu
    rw [Heap.get?_update]
    simp only [EmbeddingLike.apply_eq_iff_eq]
    split at hu
    · obtain ⟨v, hv, rfl⟩ := Option.map_eq_some_iff.mp hu
      rw [if_pos ‹_›, h.record hv, Option.map_some, same]
    · rw [if_neg ‹_›, h.record hu]
  lookup := h.lookup
  seen hu := h.seen (by rwa [heapUpdate_contains] at hu)
  entered := h.entered
  kept hu := by
    rw [heapUpdate_contains]
    exact h.kept hu
  wrapped := h.wrapped

/-- What is collected on one side only was not needed any more. -/
theorem Shadows.collected {stats : CollectStats} (h : Shadows ρ σ nodes wrappers s t)
    (sound : Forest.Sound s'.forest) (c : Collected s s' stats) :
    Shadows ρ σ nodes wrappers s' t where
  forest := ⟨⟨fun hn => h.forest.mirrors.record (c.content.mp hn).1⟩, sound.linked,
    h.forest.linked', fun hx => h.forest.seen (c.contains_iff.mp hx).1, h.forest.kept⟩
  record hw := h.record (c.wrappers.mp hw).1
  lookup {x} hx := by
    have kept := c.contains_iff.mp hx
    rw [h.lookup kept.1]
    congr 1
    exact Option.ext fun w => by rw [c.table]; simp [kept]
  seen hw := by
    obtain ⟨v, hv⟩ := Arena.contains_iff.mp hw
    exact h.seen (Arena.contains_iff.mpr ⟨v, (c.wrappers.mp hv).1⟩)
  entered hx := h.entered (c.table.mp hx).1
  kept := h.kept
  wrapped := h.wrapped

/-! ## Mutations -/

theorem Shadows.wrapper (h : Shadows ρ σ nodes wrappers s t) (hw : s.heap.contains w) :
    ∃ v, s.heap.get? w = some v ∧ s.wrapper w = .ok v ∧ t.wrapper (σ w) = .ok (v.rename ρ) := by
  obtain ⟨v, hv⟩ := Arena.contains_iff.mp hw
  have hv : s.heap.get? w = some v := hv
  exact ⟨v, hv, by simp [Store.wrapper, hv], by simp [Store.wrapper, h.record hv]⟩

theorem Shadows.wrappedNode (h : Shadows ρ σ nodes wrappers s t) (paired : Paired s)
    (hw : s.heap.contains w) :
    ∃ x, s.forest.contains x ∧ s.wrappedNode w = .ok x ∧ t.wrappedNode (σ w) = .ok (ρ x) := by
  obtain ⟨v, hv, e, e'⟩ := h.wrapper hw
  exact ⟨v.node, paired.live hv, by simp [Store.wrappedNode, e],
    by simp [Store.wrappedNode, e', Wrapper.rename]⟩

/-- An edit of two wrapped nodes is made on both sides, or on neither. -/
theorem Shadows.editTwo {op : Forest → NodeId → NodeId → Except ForestError Forest} {u : WrapperId}
    (h : Shadows ρ σ nodes wrappers s t) (paired : Paired s)
    (alike : ∀ {a x}, s.forest.contains a → s.forest.contains x →
      Alike (Forest.Mirrors ρ) (op s.forest a x) (op t.forest (ρ a) (ρ x)))
    (live : ∀ k ∈ [u, w], s.heap.contains k) :
    Alike (Forest.Mirrors ρ)
      (do
        let a ← s.wrappedNode u
        let x ← s.wrappedNode w
        (op s.forest a x).mapError WorkspaceError.forest)
      (do
        let a ← t.wrappedNode (σ u)
        let x ← t.wrappedNode (σ w)
        (op t.forest a x).mapError WorkspaceError.forest) := by
  obtain ⟨a, ha, ea, ea'⟩ := h.wrappedNode paired (live u (by simp))
  obtain ⟨x, hx, ex, ex'⟩ := h.wrappedNode paired (live w (by simp))
  simpa only [ea, ea', ex, ex', ok_bind] using (alike ha hx).mapError _

/-- An edit of wrapped nodes is made on both sides, or on neither. -/
theorem Shadows.edit {m : Mutation} (h : Shadows ρ σ nodes wrappers s t) (paired : Paired s)
    (live : ∀ w ∈ m.wrappers, s.heap.contains w) :
    Alike (Forest.Mirrors ρ) (s.edit m) (t.edit (m.rename σ)) := by
  have mirrors := h.forest.mirrors
  have hf := h.forest.linked
  have hg := h.forest.linked'
  cases m with
  | unlink w =>
    obtain ⟨x, hx, e, e'⟩ := h.wrappedNode paired (live w (by simp [Mutation.wrappers]))
    simpa only [Store.edit, Mutation.rename, e, e', ok_bind] using
      (mirrors.unlink hf hg hx).mapError _
  | insertBefore a w => exact h.editTwo paired (fun ha hx => mirrors.insertBefore hf hg ha hx) live
  | insertAfter a w => exact h.editTwo paired (fun ha hx => mirrors.insertAfter hf hg ha hx) live
  | prependChild p w => exact h.editTwo paired (fun hp hx => mirrors.prependChild hf hg hp hx) live
  | appendChild p w => exact h.editTwo paired (fun hp hx => mirrors.appendChild hf hg hp hx) live

/-- A mutation is carried out on both sides, or on neither. -/
theorem Shadows.apply {m : Mutation} (h : Shadows ρ σ nodes wrappers s t) (paired : Paired s)
    (paired' : Paired t) (live : ∀ w ∈ m.wrappers, s.heap.contains w) :
    Alike (fun p q => q.1 = p.1 ∧ Shadows ρ σ nodes wrappers p.2 q.2) (s.apply m)
      (t.apply (m.rename σ)) := by
  obtain ⟨v, hv, e, e'⟩ := h.wrapper (live m.moved m.moved_mem_wrappers)
  have moved : (m.rename σ).moved = σ m.moved := by cases m <;> rfl
  have settle : (m.rename σ).settle = m.settle := by cases m <;> rfl
  have edited : Alike (fun f g => f.Shadows ρ nodes g ∧ ∀ x, f.contains x = s.forest.contains x)
      (s.edit m) (t.edit (m.rename σ)) := (h.edit paired live).mono fun f g hf hg mirrors => by
    obtain ⟨v, above, c⟩ := paired.edit_ok hf
    obtain ⟨v', above', c'⟩ := paired'.edit_ok hg
    exact ⟨⟨mirrors, c.sound.linked, c'.sound.linked,
      fun hx => h.forest.seen ((c.moved.contains_eq _).symm.trans hx),
      fun hx => (c'.moved.contains_eq _).trans (h.forest.kept hx)⟩, c.moved.contains_eq⟩
  refine edited.bind fun f g changed => ?_
  obtain ⟨forest, same⟩ := changed
  rw [moved, settle, e, e', ok_bind, ok_bind]
  exact .ok ⟨rfl, (h.reforest paired (fun _ _ => rfl) forest (fun _ => id)
    fun z _ hz => (same z).symm.trans hz).update m.moved fun _ => rfl⟩

end Shadows

end Store

end MarkdownForest
