/-
# MarkdownForest.Proofs.Sweeping -- what a sweep removes

A sweep goes through a list of wrappers.  Heap and table lose these and no others
(`sweep_heap`, `sweep_identity`), in whatever order.

Freeing a tree makes the nodes of wrappers further down the list stale, but never
a root: the roots on the list stay live roots until their turn comes.  So every
tree on the list is freed once, and none besides (`sweep_forest`).
-/
import MarkdownForest.Proofs.Marking

namespace MarkdownForest.Store

set_option autoImplicit false

open Forest (Sound Below Dropped contains_iff)

section Sweep

variable {s : Store} {stats : CollectStats} {w : WrapperId} {v : Wrapper}

@[simp] theorem remove_heap (s : Store) (stats : CollectStats) (w : WrapperId) (v : Wrapper) :
    (s.remove stats w v).2.heap = s.heap.erase w := by
  unfold remove
  cases v.ownership <;> rfl

@[simp] theorem remove_identity (s : Store) (stats : CollectStats) (w : WrapperId) (v : Wrapper) :
    (s.remove stats w v).2.identity = s.identity.forget v.node w := by
  unfold remove
  cases v.ownership <;> rfl

@[simp] theorem sweep_nil (s : Store) (stats : CollectStats) : s.sweep stats [] = (stats, s) := rfl

theorem sweep_cons (s : Store) (stats : CollectStats) (w : WrapperId) (v : Wrapper)
    (dead : List (WrapperId × Wrapper)) :
    s.sweep stats ((w, v) :: dead) =
      (s.remove stats w v).2.sweep (s.remove stats w v).1 dead := rfl

/-- The marks counted before a sweep do not matter to it. -/
theorem sweep_marked (s : Store) (stats : CollectStats) (marked : Nat)
    (dead : List (WrapperId × Wrapper)) :
    s.sweep { stats with marked } dead =
      ({ (s.sweep stats dead).1 with marked }, (s.sweep stats dead).2) := by
  induction dead generalizing s stats with
  | nil => rfl
  | cons e dead ih =>
    obtain ⟨w, v⟩ := e
    have removed : s.remove { stats with marked } w v =
        ({ (s.remove stats w v).1 with marked }, (s.remove stats w v).2) := by
      unfold remove
      cases v.ownership <;> rfl
    rw [sweep_cons, removed, ih, sweep_cons]

/-- The heap loses the wrappers on the list. -/
theorem sweep_heap (s : Store) (stats : CollectStats) (dead : List (WrapperId × Wrapper))
    (k : WrapperId) :
    (s.sweep stats dead).2.heap.get? k =
      if k ∈ dead.map (·.1) then none else s.heap.get? k := by
  induction dead generalizing s stats with
  | nil => simp
  | cons e dead ih =>
    obtain ⟨w, v⟩ := e
    rw [sweep_cons, ih, remove_heap, Heap.get?_erase]
    by_cases later : k ∈ dead.map (·.1)
    · simp [later]
    · by_cases here : k = w <;> simp [later, here]

/-- The table loses the nodes of the wrappers on the list. -/
theorem sweep_identity (stats : CollectStats) (dead : List (WrapperId × Wrapper))
    (entered : ∀ e ∈ dead, s.identity.lookup e.2.node = some e.1)
    (nodup : (dead.map (·.2.node)).Nodup) (x : NodeId) :
    (s.sweep stats dead).2.identity.lookup x =
      if x ∈ dead.map (·.2.node) then none else s.identity.lookup x := by
  induction dead generalizing s stats with
  | nil => simp
  | cons e dead ih =>
    obtain ⟨w, v⟩ := e
    rw [List.map_cons, List.nodup_cons] at nodup
    obtain ⟨apart, nodup⟩ := nodup
    have found : s.identity.lookup v.node = some w := entered (w, v) (by simp)
    have lookup : ∀ y, (s.remove stats w v).2.identity.lookup y =
        if y = v.node then none else s.identity.lookup y := fun y => by
      simp [IdentityTable.lookup_forget, found]
    rw [sweep_cons, ih _ (fun e he => ?_) nodup, lookup]
    · by_cases later : x ∈ dead.map (·.2.node)
      · simp [later]
      · by_cases here : x = v.node <;> simp [later, here]
    · have ne : e.2.node ≠ v.node := fun same => by
        rw [← same] at apart
        exact apart (List.mem_map_of_mem (f := (·.2.node)) he)
      rw [lookup, if_neg ne]
      exact entered e (by simp [he])

/-! ## Trees -/

/-- The wrapper of a root on the list stands above the node. -/
def Doomed (f : Forest) (dead : List (WrapperId × Wrapper)) (x : NodeId) : Prop :=
  ∃ e ∈ dead, e.2.ownership = .root ∧ Below f e.2.node x

/-- The forest `g` is `f` without the trees on the list, and the statistics tell of that. -/
structure Swept (f g : Forest) (before after : CollectStats)
    (dead : List (WrapperId × Wrapper)) : Prop where
  sound : Sound g
  gone : ∀ {x}, Doomed f dead x → g.nodes.get? x = none
  kept : ∀ {x}, ¬ Doomed f dead x → g.nodes.get? x = f.nodes.get? x
  marked : after.marked = before.marked
  swept : after.swept = before.swept + dead.length
  finalized : after.finalized + g.roots.length = before.finalized + f.roots.length
  freedNodes : after.freedNodes + g.live = before.freedNodes + f.live
  freed : g.freed + before.freedNodes = f.freed + after.freedNodes
  allocated : g.allocated = f.allocated

theorem doomed_cons {f : Forest} {e : WrapperId × Wrapper} {dead : List (WrapperId × Wrapper)}
    {x : NodeId} : Doomed f (e :: dead) x ↔
      (e.2.ownership = .root ∧ Below f e.2.node x) ∨ Doomed f dead x := by
  simp [Doomed]

/-- A wrapper of a node that is not a root goes without its node. -/
theorem Swept.cons_attached {f g : Forest} {before after : CollectStats}
    {e : WrapperId × Wrapper} {dead : List (WrapperId × Wrapper)} (owner : e.2.ownership = .attached)
    (h : Swept f g { before with swept := before.swept + 1 } after dead) :
    Swept f g before after (e :: dead) where
  sound := h.sound
  gone doomed := h.gone ((doomed_cons.mp doomed).resolve_left fun ⟨root, _⟩ => by
    simp [owner] at root)
  kept free := h.kept fun doomed => free (doomed_cons.mpr (.inr doomed))
  marked := h.marked
  swept := by
    rw [h.swept, List.length_cons]
    exact Nat.add_right_comm ..
  finalized := h.finalized
  freedNodes := h.freedNodes
  freed := h.freed
  allocated := h.allocated

/-- The wrapper of a root takes its tree along. -/
theorem Swept.cons_root {f g k : Forest} {before after : CollectStats} {count : Nat}
    {e : WrapperId × Wrapper} {dead : List (WrapperId × Wrapper)} (sound : Sound f)
    (owner : e.2.ownership = .root) (live : f.contains e.2.node)
    (top : f.parent? e.2.node = none) (d : Dropped f g e.2.node count)
    (h : Swept g k { before with
        swept := before.swept + 1
        finalized := before.finalized + 1
        freedNodes := before.freedNodes + count } after dead) :
    Swept f k before after (e :: dead) where
  sound := h.sound
  gone {x} doomed := by
    by_cases below : Below f e.2.node x
    · by_cases later : Doomed g dead x
      · exact h.gone later
      · rw [h.kept later, d.gone below]
    · obtain ⟨-, here⟩ | ⟨e', he', root, later⟩ := doomed_cons.mp doomed
      · exact absurd here below
      · exact h.gone ⟨e', he', root, (d.below_iff sound.linked below).mpr later⟩
  kept {x} free := by
    have below : ¬ Below f e.2.node x := fun below => free (doomed_cons.mpr (.inl ⟨owner, below⟩))
    have later : ¬ Doomed g dead x := fun ⟨e', he', root, later⟩ =>
      free (doomed_cons.mpr (.inr ⟨e', he', root, (d.below_iff sound.linked below).mp later⟩))
    rw [h.kept later, d.kept below]
  marked := h.marked
  swept := by
    rw [h.swept, List.length_cons]
    exact Nat.add_right_comm ..
  finalized := by
    have := d.length_roots live top (sound.linked.below_self _)
    have := h.finalized
    simp only at this
    omega
  freedNodes := by
    have := d.live
    have := h.freedNodes
    simp only at this
    omega
  freed := by
    have := d.freed
    have := h.freed
    simp only at this
    omega
  allocated := h.allocated.trans d.allocated

theorem sweep_forest (stats : CollectStats) (dead : List (WrapperId × Wrapper))
    (sound : Sound s.forest)
    (roots : ∀ e ∈ dead, e.2.ownership = .root →
      s.forest.contains e.2.node ∧ s.forest.parent? e.2.node = none)
    (nodup : (dead.map (·.2.node)).Nodup) :
    Swept s.forest (s.sweep stats dead).2.forest stats (s.sweep stats dead).1 dead := by
  induction dead generalizing s stats with
  | nil =>
    exact ⟨sound, fun ⟨_, he, _⟩ => absurd he List.not_mem_nil, fun _ => rfl, rfl, rfl, rfl, rfl,
      rfl, rfl⟩
  | cons e dead ih =>
    obtain ⟨w, v⟩ := e
    rw [List.map_cons, List.nodup_cons] at nodup
    obtain ⟨apart, nodup⟩ := nodup
    have later := fun e he => roots e (List.mem_cons_of_mem (w, v) he)
    rw [sweep_cons]
    cases owner : v.ownership with
    | attached =>
      have kept : s.remove stats w v = ({ stats with swept := stats.swept + 1 },
          { s with heap := s.heap.erase w, identity := s.identity.forget v.node w }) := by
        simp [remove, owner]
      rw [kept]
      exact .cons_attached owner (ih (s := { s with
        heap := s.heap.erase w, identity := s.identity.forget v.node w }) _ sound later nodup)
    | root =>
      obtain ⟨live, top⟩ := roots (w, v) (by simp) owner
      have d := sound.linked.erase live top
      have freed : s.remove stats w v = ({ stats with
            swept := stats.swept + 1
            finalized := stats.finalized + 1
            freedNodes := stats.freedNodes + (s.forest.erase v.node).1 },
          { s with
            heap := s.heap.erase w
            identity := s.identity.forget v.node w
            forest := (s.forest.erase v.node).2 }) := by
        simp [remove, owner]
      rw [freed]
      refine .cons_root sound owner live top d (ih (s := { s with
        heap := s.heap.erase w
        identity := s.identity.forget v.node w
        forest := (s.forest.erase v.node).2 }) _ (sound.dropped d top) (fun e he root => ?_) nodup)
      -- another root is not below this one, and stays
      obtain ⟨live', top'⟩ := later e he root
      have ne : v.node ≠ e.2.node := fun same => by
        rw [same] at apart
        exact apart (List.mem_map_of_mem (f := (·.2.node)) he)
      have free : ¬ Below s.forest v.node e.2.node := fun below => ne (below.eq_of_top top')
      refine ⟨(d.contains_iff_of_live live').mpr free, ?_⟩
      rw [Forest.parent?, d.kept free]
      exact top'

end Sweep

end MarkdownForest.Store
