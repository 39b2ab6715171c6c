/-
# MarkdownForest.Proofs.Pairing -- wrappers and their nodes

`Paired s` says that table and heap of a store are inverse to each other, that
wrappers are on live nodes and know whether these are roots, and that the parent
of a wrapped node is wrapped.  The roots of the forest may still lack wrappers;
`Paired.Complete` says that they do not.

* `Paired.materialize`: wrapping a live node never fails, and only adds wrappers;
* `Paired.of_grown`, `Paired.of_same`: what reading a source does to a store.
-/
import MarkdownForest.Proofs.Growing
import MarkdownForest.Wrapper.Mutation

namespace MarkdownForest.Store

set_option autoImplicit false

open Forest (Linked Sound Path Below Grown Same Moved contains_iff parent?_of_get?)

structure Paired (s : Store) : Prop where
  sound : Sound s.forest
  /-- Table and heap are inverse to each other. -/
  inverse : ∀ {x w}, s.identity.lookup x = some w ↔ ∃ v, s.heap.get? w = some v ∧ v.node = x
  live : ∀ {w v}, s.heap.get? w = some v → s.forest.contains v.node
  ownership : ∀ {w v}, s.heap.get? w = some v →
    (v.ownership = .root ↔ s.forest.parent? v.node = none)
  /-- The parent of a wrapped node is wrapped. -/
  upward : ∀ {x p}, s.identity.contains x → s.forest.parent? x = some p → s.identity.contains p

/-- Every root is wrapped. -/
def Complete (s : Store) : Prop :=
  ∀ {x}, s.forest.contains x → s.forest.parent? x = none → s.identity.contains x

section Wrapped

variable {s t : Store} {x p : NodeId} {w : WrapperId} {v : Wrapper}

theorem identity_contains_iff : s.identity.contains x ↔ ∃ w, s.identity.lookup x = some w :=
  Option.isSome_iff_exists

theorem Paired.lookup_node (h : Paired s) (hw : s.heap.get? w = some v) :
    s.identity.lookup v.node = some w :=
  h.inverse.mpr ⟨v, hw, rfl⟩

theorem Paired.wrapped_iff (h : Paired s) :
    s.identity.contains x ↔ ∃ w v, s.heap.get? w = some v ∧ v.node = x := by
  simp only [identity_contains_iff, h.inverse]

theorem Paired.live_of_wrapped (h : Paired s) (hx : s.identity.contains x) :
    s.forest.contains x := by
  obtain ⟨w, v, hw, rfl⟩ := h.wrapped_iff.mp hx
  exact h.live hw

/-- No two wrappers have the same node. -/
theorem Paired.node_inj {w' : WrapperId} {v' : Wrapper} (h : Paired s)
    (hw : s.heap.get? w = some v) (hw' : s.heap.get? w' = some v') (e : v.node = v'.node) :
    w = w' := by
  have := h.lookup_node hw
  rw [e, h.lookup_node hw'] at this
  exact (Option.some.inj this).symm

/-- A wrapper knows whether its node is a root. -/
theorem Paired.ownership_eq {n : Node} (h : Paired s) (hw : s.heap.get? w = some v)
    (hn : s.forest.nodes.get? v.node = some n) : v.ownership = n.ownership := by
  have wrapper := h.ownership hw
  have record := h.sound.linked.ownership hn
  rw [parent?_of_get? hn, ← record] at wrapper
  cases hv : v.ownership <;> cases hn : n.ownership <;> simp_all

/-- Changing the forest and the wrappers while every wrapper keeps its node. -/
theorem Paired.rework (h : Paired s) (change : WrapperId → Wrapper → Wrapper)
    (sound : Sound t.forest) (table : t.identity = s.identity)
    (heap : ∀ k, t.heap.get? k = (s.heap.get? k).map (change k))
    (node : ∀ k v, (change k v).node = v.node)
    (live : ∀ {y}, s.identity.contains y → t.forest.contains y)
    (upward : ∀ {y p}, s.identity.contains y → t.forest.parent? y = some p →
      s.identity.contains p)
    (ownership : ∀ {k v}, s.heap.get? k = some v →
      ((change k v).ownership = .root ↔ t.forest.parent? v.node = none)) : Paired t := by
  have old : ∀ {k u}, t.heap.get? k = some u →
      ∃ v, s.heap.get? k = some v ∧ u = change k v := fun {k u} hu => by
    rw [heap, Option.map_eq_some_iff] at hu
    obtain ⟨v, hv, rfl⟩ := hu
    exact ⟨v, hv, rfl⟩
  refine ⟨sound, ?_, ?_, ?_, ?_⟩
  · intro x k
    rw [table, h.inverse]
    constructor
    · rintro ⟨v, hv, rfl⟩
      exact ⟨change k v, by rw [heap, hv]; rfl, node k v⟩
    · rintro ⟨u, hu, rfl⟩
      obtain ⟨v, hv, rfl⟩ := old hu
      exact ⟨v, hv, (node k v).symm⟩
  · intro k u hu
    obtain ⟨v, hv, rfl⟩ := old hu
    rw [node]
    exact live (h.wrapped_iff.mpr ⟨k, v, hv, rfl⟩)
  · intro k u hu
    obtain ⟨v, hv, rfl⟩ := old hu
    rw [node]
    exact ownership hv
  · intro x p hx up
    rw [table] at hx ⊢
    exact upward hx up

/-- Changing the forest while every wrapped node stays live, below the same parent. -/
theorem Paired.reforest {g : Forest} (h : Paired s) (sound : Sound g)
    (live : ∀ {y}, s.forest.contains y → g.contains y)
    (parent : ∀ {y}, s.forest.contains y → g.parent? y = s.forest.parent? y) :
    Paired { s with forest := g } :=
  h.rework (t := { s with forest := g }) (fun _ v => v) sound rfl (by simp)
    (fun _ _ => rfl) (fun hy => live (h.live_of_wrapped hy))
    (fun hy up => h.upward hy ((parent (h.live_of_wrapped hy)).symm.trans up))
    fun hv => by rw [parent (h.live hv)]; exact h.ownership hv

/-- Changing a wrapper without touching its node and what it knows of it. -/
theorem Paired.update {change : Wrapper → Wrapper} (h : Paired s) (w : WrapperId)
    (same : ∀ v, (change v).node = v.node ∧ (change v).ownership = v.ownership) :
    Paired { s with heap := s.heap.update w change } := by
  refine h.rework (t := { s with heap := s.heap.update w change })
    (fun k v => if k = w then change v else v) h.sound rfl (fun k => ?_) (fun k v => ?_)
    h.live_of_wrapped h.upward fun {k v} hv => ?_
  · rw [Heap.get?_update]
    split <;> simp
  · split
    · exact (same v).1
    · rfl
  · rw [← h.ownership hv]
    split
    · rw [(same v).2]
    · rfl

/-! ## Wrapping -/

/-- `t` is `s` with more wrappers. -/
structure Extends (s t : Store) : Prop where
  forest : t.forest = s.forest
  kept : ∀ {w v}, s.heap.get? w = some v → t.heap.get? w = some v
  lookup : ∀ {x w}, s.identity.lookup x = some w → t.identity.lookup x = some w

theorem Extends.refl (s : Store) : Extends s s :=
  ⟨rfl, id, id⟩

theorem Extends.trans {u : Store} (h : Extends s t) (k : Extends t u) : Extends s u :=
  ⟨k.forest.trans h.forest, fun hw => k.kept (h.kept hw), fun hx => k.lookup (h.lookup hx)⟩

theorem Extends.contains (h : Extends s t) (hx : s.identity.contains x) :
    t.identity.contains x := by
  obtain ⟨w, hw⟩ := identity_contains_iff.mp hx
  exact identity_contains_iff.mpr ⟨w, h.lookup hw⟩

theorem Extends.complete (h : Extends s t) (c : Complete s) : Complete t := fun hx top => by
  rw [h.forest] at hx top
  exact h.contains (c hx top)

/-- A wrapper is the one made now or one of those there were. -/
theorem get?_enter_iff {s : Store} {x : NodeId} {o : Ownership} {w : WrapperId} {v : Wrapper} :
    (s.enter x o).2.heap.get? w = some v ↔
      (w = (s.enter x o).1 ∧ v = { node := x, ownership := o }) ∨ s.heap.get? w = some v :=
  s.heap.get?_alloc_iff x o

theorem lookup_enter (s : Store) (x : NodeId) (o : Ownership) (y : NodeId) :
    (s.enter x o).2.identity.lookup y =
      if y = x then some (s.enter x o).1 else s.identity.lookup y :=
  s.identity.lookup_insert x _ y

theorem contains_enter {s : Store} {x : NodeId} {o : Ownership} {y : NodeId} :
    (s.enter x o).2.identity.contains y ↔ y = x ∨ s.identity.contains y := by
  rw [identity_contains_iff, identity_contains_iff, lookup_enter]
  by_cases e : y = x <;> simp [e]

theorem extends_enter (bare : s.identity.lookup x = none) (o : Ownership) :
    Extends s (s.enter x o).2 := by
  refine ⟨rfl, fun hw => get?_enter_iff.mpr (.inr hw), fun {y w} hy => ?_⟩
  have ne : y ≠ x := fun e => by simp [e, bare] at hy
  rw [lookup_enter, if_neg ne, hy]

/-- A live node without wrapper, whose parent is wrapped, may be entered. -/
theorem Paired.enter {n : Node} (h : Paired s) (hx : s.forest.nodes.get? x = some n)
    (bare : s.identity.lookup x = none)
    (above : ∀ p, s.forest.parent? x = some p → s.identity.contains p) :
    Paired (s.enter x n.ownership).2 where
  sound := h.sound
  inverse {y w} := by
    rw [lookup_enter]
    constructor
    · intro hy
      split at hy
      · rename_i e
        exact ⟨_, get?_enter_iff.mpr (.inl ⟨(Option.some.inj hy).symm, rfl⟩), e.symm⟩
      · obtain ⟨v, hw, hv⟩ := h.inverse.mp hy
        exact ⟨v, get?_enter_iff.mpr (.inr hw), hv⟩
    · rintro ⟨v, hw, rfl⟩
      rcases get?_enter_iff.mp hw with ⟨rfl, rfl⟩ | hw
      · exact if_pos rfl
      · have ne : v.node ≠ x := fun e => by simp [← e, h.lookup_node hw] at bare
        rw [if_neg ne, h.lookup_node hw]
  live hw := by
    rcases get?_enter_iff.mp hw with ⟨-, rfl⟩ | hw
    · exact contains_iff.mpr ⟨n, hx⟩
    · exact h.live hw
  ownership hw := by
    rcases get?_enter_iff.mp hw with ⟨-, rfl⟩ | hw
    · exact (h.sound.linked.ownership hx).trans (by rw [← parent?_of_get? hx]; rfl)
    · exact h.ownership hw
  upward {y p} hy up := by
    rcases contains_enter.mp hy with rfl | hy
    · exact contains_enter.mpr (.inr (above p up))
    · exact contains_enter.mpr (.inr (h.upward hy up))

theorem Paired.getOrCreate (h : Paired s) (hx : s.forest.contains x)
    (above : ∀ p, s.forest.parent? x = some p → s.identity.contains p) :
    ∃ w t, s.getOrCreate x = .ok (w, t) ∧ Paired t ∧ Extends s t ∧
      t.identity.lookup x = some w := by
  cases bare : s.identity.lookup x with
  | some w => exact ⟨w, s, by simp [Store.getOrCreate, bare], h, .refl s, bare⟩
  | none =>
    obtain ⟨n, hn⟩ := contains_iff.mp hx
    have found := (s.lookup_enter x n.ownership x).trans (if_pos rfl)
    refine ⟨_, _, ?_, h.enter hn bare above, extends_enter bare n.ownership, found⟩
    simp [Store.getOrCreate, bare, Forest.ownership, Forest.node_ok.mpr hn]

/-- Wrapping, from the top on, the nodes of a path that are not wrapped. -/
theorem Paired.wrapPath {path : List NodeId} (h : Paired s) (hx : s.forest.contains x)
    (hp : Path s.forest x path) :
    ∃ t, ((path.takeWhile fun y => !s.identity.contains y).reverse.foldlM
        (fun s y => return (← Store.getOrCreate s y).2) s : Except ForestError Store) = .ok t ∧
      Paired t ∧ Extends s t ∧ t.identity.contains x := by
  induction hp with
  | @root x top =>
    by_cases hw : s.identity.contains x
    · exact ⟨s, by simp [hw], h, .refl s, hw⟩
    · obtain ⟨w, t, ht, paired, grown, found⟩ := h.getOrCreate hx (by simp [top])
      exact ⟨t, by simp [hw, ht], paired, grown, identity_contains_iff.mpr ⟨w, found⟩⟩
  | @step x p path up _ ih =>
    by_cases hw : s.identity.contains x
    · exact ⟨s, by simp [hw], h, .refl s, hw⟩
    · obtain ⟨t, ht, paired, grown, parent⟩ := ih (h.sound.linked.live_parent up)
      obtain ⟨w, u, hu, paired', grown', found⟩ := paired.getOrCreate (x := x)
        (grown.forest ▸ hx) fun q hq => by
          rw [grown.forest, up] at hq
          exact Option.some.inj hq ▸ parent
      refine ⟨u, ?_, paired', grown.trans grown', identity_contains_iff.mpr ⟨w, found⟩⟩
      simp only [hw, List.takeWhile_cons, Bool.not_false, if_true, List.reverse_cons,
        List.foldlM_append, ht, ok_bind]
      simp [hu]

/-- A live node is wrapped without failing, after all above it. -/
theorem Paired.materialize (h : Paired s) (hx : s.forest.contains x) :
    ∃ w t, s.materialize x = .ok (w, t) ∧ Paired t ∧ Extends s t ∧
      t.identity.lookup x = some w := by
  cases bare : s.identity.lookup x with
  | some w => exact ⟨w, s, by simp [Store.materialize, bare], h, .refl s, bare⟩
  | none =>
    obtain ⟨n, hn⟩ := contains_iff.mp hx
    have content : s.forest.content x = .ok n.content := by
      simp [Forest.content, Forest.node_ok.mpr hn]
    obtain ⟨path, hp⟩ := h.sound.linked.path x
    have ancestors := h.sound.linked.ancestors_eq hx hp
    -- all above `x` is wrapped before `x` itself
    obtain ⟨t, ht, paired, grown, above⟩ : ∃ t, ((s.unwrappedAbove x).reverse.foldlM
        (fun s y => return (← Store.getOrCreate s y).2) s : Except ForestError Store) = .ok t ∧
        Paired t ∧ Extends s t ∧ ∀ p, s.forest.parent? x = some p → t.identity.contains p := by
      rw [unwrappedAbove, ancestors]
      cases hp with
      | root top => exact ⟨s, by simp, h, .refl s, by simp [top]⟩
      | @step _ p above up hp =>
        obtain ⟨t, ht, paired, grown, wrapped⟩ := h.wrapPath (h.sound.linked.live_parent up) hp
        refine ⟨t, by simpa using ht, paired, grown, fun q hq => ?_⟩
        exact Option.some.inj (up.symm.trans hq) ▸ wrapped
    obtain ⟨w, u, hu, paired', grown', found⟩ := paired.getOrCreate (x := x) (grown.forest ▸ hx)
      fun p hq => above p (by rwa [grown.forest] at hq)
    refine ⟨w, u, ?_, paired', grown.trans grown', found⟩
    simp only [Store.materialize, bare, content, ok_bind, ht, hu]

/-- Only live nodes are wrapped. -/
theorem Paired.materialize_stale (h : Paired s) (hx : s.forest.contains x = false) :
    s.materialize x = .error (.stale x) := by
  have bare : s.identity.lookup x = none := by
    cases e : s.identity.lookup x with
    | none => rfl
    | some w => simp [h.live_of_wrapped (identity_contains_iff.mpr ⟨w, e⟩)] at hx
  have stale : s.forest.node x = .error (.stale x) := Forest.node_error.mpr ⟨hx, rfl⟩
  simp [Store.materialize, bare, Forest.content, stale]

end Wrapped

end MarkdownForest.Store
