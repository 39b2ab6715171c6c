/-
# MarkdownForest.Proofs.Mutations -- what mutations do to a store

A mutation moves one wrapped node, and the wrapper of that node alone learns of
it.  The node goes below a wrapped node or becomes a root, so that the parent of
a wrapped node stays wrapped (`edit_ok`).
-/
import MarkdownForest.Proofs.Pairing

namespace MarkdownForest.Store

set_option autoImplicit false

open Forest (Sound Moved PutBelow contains_iff)

variable {s t : Store} {g : Forest} {m : Mutation} {w : WrapperId} {x : NodeId}

theorem wrappedNode_ok :
    s.wrappedNode w = .ok x ↔ ∃ v, s.heap.get? w = some v ∧ v.node = x := by
  unfold wrappedNode wrapper
  split <;> simp [*]

/-- `m` moved the node of its wrapper `v` below `above`, or made it a root. -/
structure Carried (s : Store) (m : Mutation) (g : Forest) (v : Wrapper) (above : Option NodeId) :
    Prop where
  wrapper : s.heap.get? m.moved = some v
  moved : Moved s.forest g v.node above
  sound : Sound g
  wrapped : ∀ {p}, above = some p → s.identity.contains p
  settled : ∀ o, (m.settle o).2 = .root ↔ above = none

theorem Paired.carried_below {p : NodeId} {v : Wrapper} (h : Paired s)
    (hv : s.heap.get? m.moved = some v) (put : PutBelow s.forest g p v.node)
    (wrapped : s.identity.contains p) (attaches : ∀ o, (m.settle o).2 = .attached) :
    Carried s m g v (some p) :=
  ⟨hv, put.moved, h.sound.putBelow put, fun e => Option.some.inj e ▸ wrapped,
    fun o => by simp [attaches o]⟩

/-- An edit of two wrapped nodes is one of their nodes. -/
theorem wrappedNodes_ok {u w : WrapperId} {edit : NodeId → NodeId → Except ForestError Forest}
    (e : (do
      let a ← s.wrappedNode u
      let x ← s.wrappedNode w
      (edit a x).mapError WorkspaceError.forest) = .ok g) :
    ∃ a v, s.heap.get? u = some a ∧ s.heap.get? w = some v ∧ edit a.node v.node = .ok g := by
  obtain ⟨_, first, e⟩ := bind_eq_ok.mp e
  obtain ⟨_, second, e⟩ := bind_eq_ok.mp e
  obtain ⟨a, ha, rfl⟩ := wrappedNode_ok.mp first
  obtain ⟨v, hv, rfl⟩ := wrappedNode_ok.mp second
  exact ⟨a, v, ha, hv, mapError_eq_ok.mp e⟩

theorem Paired.edit_ok (h : Paired s) (e : s.edit m = .ok g) :
    ∃ v above, Carried s m g v above := by
  have wrapped : ∀ {u a}, s.heap.get? u = some a → s.identity.contains a.node := fun {u a} ha =>
    h.wrapped_iff.mpr ⟨u, a, ha, rfl⟩
  cases m with
  | unlink node =>
    obtain ⟨x, hx, e⟩ := bind_eq_ok.mp e
    obtain ⟨v, hv, rfl⟩ := wrappedNode_ok.mp hx
    have e := mapError_eq_ok.mp e
    obtain ⟨-, moved, -⟩ := h.sound.linked.of_unlink e
    exact ⟨v, none, hv, moved, h.sound.unlink e, nofun,
      fun o => by simp [Mutation.settle, Ownership.detach]⟩
  | insertBefore anchor node =>
    obtain ⟨a, v, ha, hv, e⟩ := wrappedNodes_ok e
    obtain ⟨p, up, put⟩ := h.sound.linked.of_insertBefore e
    exact ⟨v, some p, h.carried_below hv put (h.upward (wrapped ha) up) fun _ => rfl⟩
  | insertAfter anchor node =>
    obtain ⟨a, v, ha, hv, e⟩ := wrappedNodes_ok e
    obtain ⟨p, up, put⟩ := h.sound.linked.of_insertAfter e
    exact ⟨v, some p, h.carried_below hv put (h.upward (wrapped ha) up) fun _ => rfl⟩
  | prependChild parent child =>
    obtain ⟨p, v, hp, hv, e⟩ := wrappedNodes_ok e
    exact ⟨v, _, h.carried_below hv (h.sound.linked.of_prependChild e) (wrapped hp) fun _ => rfl⟩
  | appendChild parent child =>
    obtain ⟨p, v, hp, hv, e⟩ := wrappedNodes_ok e
    exact ⟨v, _, h.carried_below hv (h.sound.linked.of_appendChild e) (wrapped hp) fun _ => rfl⟩

theorem Paired.apply {transition : Transition} (h : Paired s)
    (e : s.apply m = .ok (transition, t)) : Paired t ∧ (Complete s → Complete t) := by
  obtain ⟨g, edit, e⟩ := bind_eq_ok.mp e
  obtain ⟨v, above, c⟩ := h.edit_ok edit
  obtain ⟨v', hv', e⟩ := bind_eq_ok.mp e
  have same : v' = v := by
    simpa [wrapper, c.wrapper, eq_comm] using hv'
  subst same
  simp only [pure_eq_ok, Except.ok.injEq, Prod.mk.injEq] at e
  obtain ⟨-, rfl⟩ := e
  have moved := c.moved
  refine ⟨?_, fun complete => ?_⟩
  · refine h.rework (fun k u =>
        if k = m.moved then { u with ownership := (m.settle v'.ownership).2 } else u)
      c.sound rfl (fun k => ?_) (fun k u => ?_) ?_ ?_ ?_
    · rw [Heap.get?_update]
      split <;> simp
    · split <;> rfl
    · intro y hy
      exact (moved.contains_eq y).trans (h.live_of_wrapped hy)
    · intro y p hy up
      rw [moved.parent?] at up
      split at up
      · exact c.wrapped up
      · exact h.upward hy up
    · intro k u hu
      rw [moved.parent?]
      by_cases e : k = m.moved
      · subst e
        obtain rfl := Option.some.inj (c.wrapper.symm.trans hu)
        simp [c.settled]
      · have ne : u.node ≠ v'.node := fun e' => e (h.node_inj hu c.wrapper e')
        rw [if_neg e, if_neg ne]
        exact h.ownership hu
  · intro y hy top
    rw [moved.parent?] at top
    by_cases e : y = v'.node
    · exact e ▸ h.wrapped_iff.mpr ⟨_, v', c.wrapper, rfl⟩
    · exact complete ((moved.contains_eq y).symm.trans hy) (by rwa [if_neg e] at top)

end MarkdownForest.Store
