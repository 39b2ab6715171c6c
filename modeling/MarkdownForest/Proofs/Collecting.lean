/-
# MarkdownForest.Proofs.Collecting -- what a collection does to a store

`Collected s t stats` says what became of a store: the kept nodes and their
wrappers are as they were, all others are gone, and the statistics count them.

* `collect_exact`: a collection of any store keeps the wrappers that are reached;
* `Paired.collected`: a collection never meets a violation, and does just that;
* `Collected.again`: a second one finds nothing to remove.
-/
import MarkdownForest.Proofs.Sweeping

namespace MarkdownForest.Store

set_option autoImplicit false

open Forest (Linked Sound Path Below contains_iff parent?_of_get?)

structure Collected (s t : Store) (stats : CollectStats) : Prop where
  nodes_kept : ∀ {x}, Kept s x → t.forest.nodes.get? x = s.forest.nodes.get? x
  nodes_gone : ∀ {x}, ¬ Kept s x → t.forest.nodes.get? x = none
  wrappers : ∀ {w v}, t.heap.get? w = some v ↔ s.heap.get? w = some v ∧ Kept s v.node
  table : ∀ {x w}, t.identity.lookup x = some w ↔ s.identity.lookup x = some w ∧ Kept s x
  marked : stats.marked = t.heap.size
  swept : stats.swept + t.heap.size = s.heap.size
  /-- The trees dropped are those of the roots that are gone. -/
  finalized : stats.finalized + t.forest.roots.length = s.forest.roots.length
  freedNodes : stats.freedNodes + t.forest.live = s.forest.live
  freed : t.forest.freed = s.forest.freed + stats.freedNodes
  allocated : t.forest.allocated = s.forest.allocated

section Collect

variable {s t : Store} {stats : CollectStats} {dead : List (WrapperId × Wrapper)} {x : NodeId}
  {w : WrapperId} {v : Wrapper}

theorem sweep_size (stats : CollectStats) (live : ∀ e ∈ dead, s.heap.get? e.1 = some e.2)
    (nodup : (dead.map (·.1)).Nodup) :
    (s.sweep stats dead).2.heap.size + dead.length = s.heap.size := by
  induction dead generalizing s stats with
  | nil => rfl
  | cons e dead ih =>
    obtain ⟨w, v⟩ := e
    rw [List.map_cons, List.nodup_cons] at nodup
    have fewer : s.heap.size = (s.heap.erase w).size + 1 :=
      Heap.size_erase (live (w, v) (by simp))
    have := ih (s := (s.remove stats w v).2) (s.remove stats w v).1 (fun e he => ?_) nodup.2
    · rw [remove_heap] at this
      rw [sweep_cons, List.length_cons]
      omega
    · have ne : e.1 ≠ w := fun same => by
        rw [← same] at nodup
        exact nodup.1 (List.mem_map_of_mem (f := (·.1)) he)
      rw [remove_heap, Heap.get?_erase, if_neg ne]
      exact live e (by simp [he])

/-- The root of a live node is kept if the node is. -/
theorem Kept.of_root {y : NodeId} (kept : Kept s x) (hy : s.forest.contains y)
    (same : s.forest.rootOf x = s.forest.rootOf y) : Kept s y := by
  obtain ⟨-, w, v, hw, rooted, e⟩ := kept
  exact ⟨hy, w, v, hw, rooted, e.trans same⟩

/-- The trees on the list are those of the nodes that are not kept. -/
theorem Paired.doomed_iff (h : Paired s) (c : Complete s)
    (mem : ∀ {w v}, s.heap.get? w = some v → ((w, v) ∈ dead ↔ ¬ Kept s v.node))
    (live : ∀ e ∈ dead, s.heap.get? e.1 = some e.2) (hx : s.forest.contains x) :
    Doomed s.forest dead x ↔ ¬ Kept s x := by
  constructor
  · rintro ⟨e, he, -, below⟩ kept
    have he' := live e he
    exact (mem he').mp he
      (kept.of_root (h.live he') (h.sound.linked.rootOf_below below))
  · intro dropped
    obtain ⟨r, -, hr, top, below⟩ := h.sound.linked.rootOf_ok hx
    obtain ⟨w, v, hw, rfl⟩ := h.wrapped_iff.mp (c hr top)
    refine ⟨(w, v), (mem hw).mpr fun kept => dropped ?_, (h.ownership hw).mpr top, below⟩
    exact kept.of_root hx (h.sound.linked.rootOf_below below).symm

/-- What is erased unless it is kept. -/
theorem erased_iff {α : Type} {p q : Prop} [Decidable p] {o : Option α} {a : α}
    (h : o = some a → (p ↔ ¬ q)) : (if p then none else o) = some a ↔ o = some a ∧ q := by
  constructor
  · intro found
    split at found
    · cases found
    · rename_i off
      refine ⟨found, ?_⟩
      by_contra dropped
      exact off ((h found).mpr dropped)
  · rintro ⟨found, kept⟩
    rw [if_neg fun on => (h found).mp on kept, found]

/-- A wrapper is on a list of live ones as soon as its id is. -/
theorem mem_wrappers_iff (live : ∀ e ∈ dead, s.heap.get? e.1 = some e.2)
    (hw : s.heap.get? w = some v) : w ∈ dead.map (·.1) ↔ (w, v) ∈ dead := by
  constructor
  · intro on
    obtain ⟨e, he, rfl⟩ := List.mem_map.mp on
    obtain rfl := Option.some.inj (hw.symm.trans (live e he))
    exact he
  · intro on
    exact List.mem_map.mpr ⟨(w, v), on, rfl⟩

/-- The nodes of the wrappers on the list are those that are not kept. -/
theorem Paired.mem_nodes_iff (h : Paired s)
    (mem : ∀ {w v}, s.heap.get? w = some v → ((w, v) ∈ dead ↔ ¬ Kept s v.node))
    (live : ∀ e ∈ dead, s.heap.get? e.1 = some e.2) (hx : s.identity.lookup x = some w) :
    x ∈ dead.map (·.2.node) ↔ ¬ Kept s x := by
  obtain ⟨v, hw, rfl⟩ := h.inverse.mp hx
  constructor
  · intro on
    obtain ⟨e, he, same⟩ := List.mem_map.mp on
    rw [← same]
    exact (mem (live e he)).mp he
  · intro dropped
    exact List.mem_map_of_mem (f := (·.2.node)) ((mem hw).mpr dropped)

/-- A collection of any store keeps what is reached, unless the node of a reached wrapper has a
parent without an entry. -/
theorem collect_exact (s : Store) :
    match s.collect with
    | .error e => Orphaned s e
    | .ok (stats, t) =>
      (∀ e, ¬ Orphaned s e) ∧ stats.marked = t.heap.size ∧
        ∀ w v, t.heap.get? w = some v ↔ s.heap.get? w = some v ∧ Reached s w := by
  have traced := (tracing_start s).unreached
  unfold collect dead
  cases marked : s.unreached s.rooted s.heap.entries with
  | error e =>
    rw [marked] at traced
    exact traced
  | ok dead =>
    rw [marked] at traced
    have m : Tracing s [] dead := traced
    have live : ∀ e ∈ dead, s.heap.get? e.1 = some e.2 := fun e he =>
      Heap.mem_entries.mp (m.sub.mem he)
    have keys : (dead.map (·.1)).Nodup := s.heap.wrappers.nodup_keys.sublist (m.sub.map _)
    have size := sweep_size { marked := s.heap.size - dead.length } live keys
    have heap := s.sweep_heap { marked := s.heap.size - dead.length } dead
    have count := congrArg (·.1.marked) (s.sweep_marked {} (s.heap.size - dead.length) dead)
    refine ⟨m.not_orphaned, ?_, fun w v => ?_⟩
    · exact count.trans (Nat.eq_sub_of_add_eq size).symm
    · refine (Eq.congr_left (heap w)).trans (erased_iff fun hw => ?_)
      rw [mem_wrappers_iff live hw, m.mem_iff hw]

/-- A collection never meets a violation, and removes exactly what is not kept. -/
theorem Paired.collected (h : Paired s) (c : Complete s) :
    ∃ stats t, s.collect = .ok (stats, t) ∧ Sound t.forest ∧ Collected s t stats := by
  obtain ⟨dead, hdead, sub, mem⟩ := h.dead
  have live : ∀ e ∈ dead, s.heap.get? e.1 = some e.2 := fun e he => Heap.mem_entries.mp (sub.mem he)
  have keys : (dead.map (·.1)).Nodup := s.heap.wrappers.nodup_keys.sublist (sub.map _)
  have nodes : (dead.map (·.2.node)).Nodup := by
    rw [List.nodup_iff_pairwise_ne, List.pairwise_map] at keys ⊢
    exact keys.imp_of_mem fun hd he ne same => ne (h.node_inj (live _ hd) (live _ he) same)
  have entered : ∀ e ∈ dead, s.identity.lookup e.2.node = some e.1 := fun e he =>
    h.lookup_node (live e he)
  have size := sweep_size { marked := s.heap.size - dead.length } live keys
  have heap := s.sweep_heap { marked := s.heap.size - dead.length } dead
  have table := sweep_identity { marked := s.heap.size - dead.length } dead entered nodes
  have forest := sweep_forest { marked := s.heap.size - dead.length } dead h.sound
    (fun e he root => ⟨h.live (live e he), (h.ownership (live e he)).mp root⟩) nodes
  have collect : s.collect = .ok ((s.sweep { marked := s.heap.size - dead.length } dead).1,
      { (s.sweep { marked := s.heap.size - dead.length } dead).2 with
        heap := (s.sweep { marked := s.heap.size - dead.length } dead).2.heap.resetCounter }) := by
    simp [Store.collect, hdead]
  generalize s.sweep { marked := s.heap.size - dead.length } dead = swept at *
  have doomed : ∀ {x}, s.forest.contains x → (Doomed s.forest dead x ↔ ¬ Kept s x) :=
    h.doomed_iff c mem live
  refine ⟨_, _, collect, forest.sound, ?_, ?_, ?_, ?_, ?_, ?_, ?_, ?_, ?_, forest.allocated⟩
  · intro x kept
    exact forest.kept fun bad => (doomed kept.1).mp bad kept
  · intro x dropped
    by_cases hx : s.forest.contains x
    · exact forest.gone ((doomed hx).mpr dropped)
    · have stale : s.forest.nodes.get? x = none := Forest.not_contains_iff.mp hx
      by_cases bad : Doomed s.forest dead x
      · exact forest.gone bad
      · exact (forest.kept bad).trans stale
  · intro w v
    change swept.2.heap.get? w = _ ↔ _
    rw [heap]
    exact erased_iff fun hw => (mem_wrappers_iff live hw).trans (mem hw)
  · intro x w
    rw [table]
    exact erased_iff (h.mem_nodes_iff mem live)
  · rw [forest.marked]
    exact Nat.sub_eq_of_eq_add size.symm
  · rw [forest.swept]
    change 0 + dead.length + swept.2.heap.size = s.heap.size
    omega
  · simpa using forest.finalized
  · simpa using forest.freedNodes
  · simpa using forest.freed

namespace Collected

theorem content (k : Collected s t stats) {n : Node} :
    t.forest.nodes.get? x = some n ↔ s.forest.nodes.get? x = some n ∧ Kept s x := by
  by_cases kept : Kept s x
  · simp [k.nodes_kept kept, kept]
  · simp [k.nodes_gone kept, kept]

theorem contains_iff (k : Collected s t stats) : t.forest.contains x ↔ Kept s x := by
  rw [Forest.contains_iff]
  constructor
  · rintro ⟨n, hn⟩
    exact (k.content.mp hn).2
  · intro kept
    obtain ⟨n, hn⟩ := Forest.contains_iff.mp kept.1
    exact ⟨n, k.content.mpr ⟨hn, kept⟩⟩

theorem parent? (k : Collected s t stats) (kept : Kept s x) :
    t.forest.parent? x = s.forest.parent? x := by
  rw [Forest.parent?, k.nodes_kept kept, Forest.parent?]

theorem paired (k : Collected s t stats) (h : Paired s) (sound : Sound t.forest) : Paired t where
  sound := sound
  inverse {x w} := by
    rw [k.table, h.inverse]
    constructor
    · rintro ⟨⟨v, hw, rfl⟩, kept⟩
      exact ⟨v, k.wrappers.mpr ⟨hw, kept⟩, rfl⟩
    · rintro ⟨v, hw, rfl⟩
      obtain ⟨hw, kept⟩ := k.wrappers.mp hw
      exact ⟨⟨v, hw, rfl⟩, kept⟩
  live hw := k.contains_iff.mpr (k.wrappers.mp hw).2
  ownership hw := by
    obtain ⟨hw, kept⟩ := k.wrappers.mp hw
    rw [k.parent? kept]
    exact h.ownership hw
  upward {x p} hx up := by
    obtain ⟨w, hw⟩ := identity_contains_iff.mp hx
    obtain ⟨hw, kept⟩ := k.table.mp hw
    rw [k.parent? kept] at up
    obtain ⟨u, hu⟩ := identity_contains_iff.mp (h.upward (identity_contains_iff.mpr ⟨w, hw⟩) up)
    exact identity_contains_iff.mpr ⟨u, k.table.mpr ⟨hu,
      kept.adjacent h (.inl up) (h.sound.linked.live_parent up)⟩⟩

theorem complete (k : Collected s t stats) (c : Complete s) : Complete t := fun hx top => by
  have kept := k.contains_iff.mp hx
  rw [k.parent? kept] at top
  obtain ⟨w, hw⟩ := identity_contains_iff.mp (c kept.1 top)
  exact identity_contains_iff.mpr ⟨w, k.table.mpr ⟨hw, kept⟩⟩

/-- What is kept has the root it had. -/
theorem rootOf (k : Collected s t stats) (h : Paired s) (sound : Sound t.forest)
    (kept : Kept s x) : t.forest.rootOf x = s.forest.rootOf x := by
  obtain ⟨path, hp⟩ := h.sound.linked.path x
  induction hp with
  | @root x top =>
    rw [h.sound.linked.rootOf_top kept.1 top,
      sound.linked.rootOf_top (k.contains_iff.mpr kept) ((k.parent? kept).trans top)]
  | @step x p path up _ ih =>
    have keptP := kept.adjacent h (.inl up) (h.sound.linked.live_parent up)
    rw [h.sound.linked.rootOf_parent up,
      sound.linked.rootOf_parent ((k.parent? kept).trans up), ih keptP]

/-- What a collection kept the next one keeps. -/
theorem kept (k : Collected s t stats) (h : Paired s) (sound : Sound t.forest)
    (hx : t.forest.contains x) : Kept t x := by
  have kept := k.contains_iff.mp hx
  have ⟨live, w, v, hw, rooted, same⟩ := kept
  have keptW : Kept s v.node := kept.of_root (h.live hw) same.symm
  refine ⟨hx, w, v, k.wrappers.mpr ⟨hw, keptW⟩, rooted, ?_⟩
  rw [k.rootOf h sound keptW, k.rootOf h sound kept, same]

/-- A second collection removes nothing. -/
theorem again (k : Collected s t stats) (h : Paired s) (sound : Sound t.forest) :
    t.collect = .ok ({ marked := stats.marked }, { t with heap := t.heap.resetCounter }) := by
  have h' := k.paired h sound
  obtain ⟨dead, hdead, sub, mem⟩ := h'.dead
  have none : dead = [] := List.eq_nil_iff_forall_not_mem.mpr fun e he => by
    have hw := Heap.mem_entries.mp (sub.mem he)
    exact (mem hw).mp he (k.kept h sound (h'.live hw))
  subst none
  simp [Store.collect, hdead, k.marked]

end Collected

end Collect

end MarkdownForest.Store
