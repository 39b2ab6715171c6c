/-
# MarkdownForest.Proofs.Marking -- what a collection keeps

A node is kept if a wrapper of its tree is rooted (`Kept`).  Where wrappers and
nodes are paired, a wrapper reaches those of the nodes next to its own, so that
from a rooted wrapper the root of the tree is reached, and from there all that is
wrapped below it: what is reached are the wrappers of kept nodes
(`Paired.reached_iff`).

Marking meets no wrapped node whose parent is not wrapped (`Paired.dead`).
-/
import MarkdownForest.Proofs.Pairing
import MarkdownForest.Proofs.Reaching

namespace MarkdownForest.Store

set_option autoImplicit false

open Forest (Sound Path Below contains_iff)

/-- Some wrapper in the tree of a live node is rooted. -/
def Kept (s : Store) (x : NodeId) : Prop :=
  s.forest.contains x ∧ ∃ w v, s.heap.get? w = some v ∧ v.isRooted ∧
    s.forest.rootOf v.node = s.forest.rootOf x

/-- One of the nodes is the parent of the other. -/
def Adjacent (f : Forest) (x y : NodeId) : Prop :=
  f.parent? x = some y ∨ f.parent? y = some x

section Kept

variable {s : Store} {x y : NodeId} {w : WrapperId} {v : Wrapper}

theorem Paired.rootOf_adjacent (h : Paired s) (near : Adjacent s.forest x y) :
    s.forest.rootOf x = s.forest.rootOf y := by
  rcases near with up | up
  · exact h.sound.linked.rootOf_parent up
  · exact (h.sound.linked.rootOf_parent up).symm

theorem Kept.adjacent (h : Paired s) (kept : Kept s x) (near : Adjacent s.forest x y)
    (hy : s.forest.contains y) : Kept s y := by
  obtain ⟨-, w, v, hw, rooted, same⟩ := kept
  exact ⟨hy, w, v, hw, rooted, same.trans (h.rootOf_adjacent near)⟩

theorem kept_of_rooted (h : Paired s) (hw : s.heap.get? w = some v) (rooted : v.isRooted) :
    Kept s v.node :=
  ⟨h.live hw, w, v, hw, rooted, rfl⟩

end Kept

/-! ## What is reached -/

/-- The wrapper of the node is reached. -/
def Met (s : Store) (x : NodeId) : Prop :=
  ∃ w, s.identity.lookup x = some w ∧ Reached s w

section Met

variable {s : Store} {x y r : NodeId} {w : WrapperId} {v : Wrapper}

theorem Met.adjacent (h : Paired s) (met : Met s x) (near : Adjacent s.forest x y)
    (hy : s.identity.contains y) : Met s y := by
  obtain ⟨w, hw, reached⟩ := met
  obtain ⟨v, live, rfl⟩ := h.inverse.mp hw
  obtain ⟨u, entry⟩ := identity_contains_iff.mp hy
  obtain ⟨v', hu, -⟩ := h.inverse.mp entry
  have there : s.heap.contains u := Arena.contains_iff.mpr ⟨v', hu⟩
  refine ⟨u, entry, ?_⟩
  rcases near with up | down
  · exact reached.parent live up entry there
  · exact reached.child live (h.sound.linked.parent?_iff.mp down) entry there

/-- With a node its root is met. -/
theorem Met.root (h : Paired s) (met : Met s x) (below : Below s.forest r x) : Met s r := by
  obtain ⟨path, hp, hr⟩ := below
  induction hp with
  | root _ => rwa [List.mem_singleton.mp hr]
  | step up _ ih =>
    rcases List.mem_cons.mp hr with rfl | hr
    · exact met
    · have ⟨w, hw, _⟩ := met
      exact ih (met.adjacent h (.inl up) (h.upward (identity_contains_iff.mpr ⟨w, hw⟩) up)) hr

/-- With a node all wrapped nodes below it are met. -/
theorem Met.below (h : Paired s) (met : Met s r) (below : Below s.forest r x)
    (hx : s.identity.contains x) : Met s x := by
  obtain ⟨path, hp, hr⟩ := below
  induction hp with
  | root _ => rwa [← List.mem_singleton.mp hr]
  | step up _ ih =>
    rcases List.mem_cons.mp hr with rfl | hr
    · exact met
    · exact (ih (h.upward hx up) hr).adjacent h (.inr up) hx

/-- What is reached is on kept nodes. -/
theorem Reached.kept (h : Paired s) (reached : Reached s w) (hw : s.heap.get? w = some v) :
    Kept s v.node := by
  -- from a wrapper on a kept node to one on a node next to it
  have next : ∀ {w v u v' y}, (∀ {v}, s.heap.get? w = some v → Kept s v.node) →
      s.heap.get? w = some v → Adjacent s.forest v.node y → s.identity.lookup y = some u →
      s.heap.get? u = some v' → Kept s v'.node := by
    intro w v u v' y kept hw near entry hu
    obtain ⟨v'', hu', rfl⟩ := h.inverse.mp entry
    obtain rfl := Option.some.inj (hu.symm.trans hu')
    exact (kept hw).adjacent h near (h.live hu)
  induction reached generalizing v with
  | rooted live rooted =>
    obtain rfl := Option.some.inj (hw.symm.trans live)
    exact kept_of_rooted h hw rooted
  | parent _ live up entry _ ih => exact next ih live (.inl up) entry hw
  | child _ live down entry _ ih =>
    exact next ih live (.inr (h.sound.linked.parent?_iff.mpr down)) entry hw

/-- The wrappers reached are those of kept nodes. -/
theorem Paired.reached_iff (h : Paired s) (hw : s.heap.get? w = some v) :
    Reached s w ↔ Kept s v.node := by
  refine ⟨fun reached => reached.kept h hw, ?_⟩
  rintro ⟨hx, w', v', hw', rooted, same⟩
  obtain ⟨r, hr, -, -, below⟩ := h.sound.linked.rootOf_ok hx
  obtain ⟨r', hr', -, -, below'⟩ := h.sound.linked.rootOf_ok (h.live hw')
  obtain rfl : r' = r := by
    rw [hr, hr'] at same
    exact Except.ok.inj same
  have met : Met s v'.node := ⟨w', h.lookup_node hw', .rooted hw' rooted⟩
  obtain ⟨u, hu, reached⟩ :=
    (met.root h below').below h below (h.wrapped_iff.mpr ⟨w, v, hw, rfl⟩)
  obtain rfl := Option.some.inj (hu.symm.trans (h.lookup_node hw))
  exact reached

/-- No wrapped node has a parent without a wrapper. -/
theorem Paired.not_orphaned (h : Paired s) (e : Violation) : ¬ Orphaned s e := by
  rintro ⟨w, v, -, hw, node, up, none⟩
  obtain ⟨u, hu⟩ := identity_contains_iff.mp
    (h.upward (h.wrapped_iff.mpr ⟨w, v, hw, node⟩) up)
  rw [none] at hu
  cases hu

/-- The wrappers that a collection removes are those of nodes that are not kept. -/
theorem Paired.dead (h : Paired s) :
    ∃ dead, s.dead = .ok dead ∧ dead.Sublist s.heap.entries ∧
      ∀ {w v}, s.heap.get? w = some v → ((w, v) ∈ dead ↔ ¬ Kept s v.node) := by
  have traced := (tracing_start s).unreached
  cases marked : s.dead with
  | error e =>
    rw [show s.unreached _ _ = _ from marked] at traced
    exact absurd traced (h.not_orphaned e)
  | ok dead =>
    rw [show s.unreached _ _ = _ from marked] at traced
    have m : Tracing s [] dead := traced
    exact ⟨dead, rfl, m.sub, fun hw => (m.mem_iff hw).trans (not_congr (h.reached_iff hw))⟩

end Met

end MarkdownForest.Store
