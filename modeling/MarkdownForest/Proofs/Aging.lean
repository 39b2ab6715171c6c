/-
# MarkdownForest.Proofs.Aging -- how the slots of a workspace age

A call that is no collection only adds wrappers, and a collection only removes
some; nodes are made by reading and by `newNode`, and freed by collections and
when reading fails.  So each call raises the generation of a slot by one at most
(`Ready.heap_slots`, `Ready.node_slots`).

A key that has become stale is therefore not live again before its slot has been
used as often as there are generations (`stays_stale`); and while each slot is
freed less often than that, a key that is live twice is live all the time
between (`stays_live`).
-/
import MarkdownForest.Proofs.Calls
import MarkdownForest.Proofs.Slots

namespace MarkdownForest.Workspace

set_option autoImplicit false

open Arena (Filled Emptied Aged contains_iff_slot)
open Store (Paired)

/-! ## One call -/

section Steps

variable {ws ws' : Workspace} {x : NodeId} {w : WrapperId}

theorem filled_wrap (e : ws.wrap x = .ok (w, ws')) : Filled ws.heap.wrappers ws'.heap.wrappers := by
  obtain ⟨⟨w', t⟩, made, ⟨⟩⟩ := bind_eq_ok.mp e
  exact Store.filled_materialize (mapError_eq_ok.mp made)

/-- What calls other than collections do to the slots of wrappers and nodes. -/
structure Grows (ws ws' : Workspace) : Prop where
  heap : Filled ws.heap.wrappers ws'.heap.wrappers
  nodes : Aged ws.forest.nodes ws'.forest.nodes

theorem Grows.refl (ws : Workspace) : Grows ws ws :=
  ⟨.refl _, (Filled.refl _).aged⟩

/-- A node is wrapped in a forest that is there already, or has just been made. -/
theorem grows_wrap {g : Forest} (h : Paired { ws.toStore with forest := g })
    (nodes : Aged ws.forest.nodes g.nodes)
    (e : Workspace.wrap { ws with forest := g } x = .ok (w, ws')) : Grows ws ws' := by
  have filled := filled_wrap e
  obtain ⟨grown, -, -⟩ := @wrap_extends { ws with forest := g } _ _ _ h e
  exact ⟨filled, grown.forest ▸ nodes⟩

theorem Ready.grows (h : Ready ws) {r : Request} (keeps : (Call.request r).collects = false) :
    Grows ws (ws.after r) := by
  have nodes : Aged ws.forest.nodes ws.forest.nodes := (Filled.refl _).aged
  cases r with
  | parse source =>
    have aged := ws.forest.aged_read ws.settings.parse source
    rcases h.parse_cases source with ⟨e, g, read, parsed⟩ | ⟨x, g, w, ws', read, paired, e, parsed⟩
    · rw [read] at aged
      rw [Workspace.after, parsed]
      exact ⟨.refl _, aged⟩
    · rw [read] at aged
      rw [Workspace.after, parsed]
      exact grows_wrap paired aged e
  | newNode k =>
    obtain ⟨w, ws', paired, e, made⟩ := h.newNode_cases k
    rw [Workspace.after, made]
    exact grows_wrap paired (ws.forest.filled_newNode _).aged e
  | wrap x => exact orElse_eq (P := Grows ws) (.refl ws) fun w ws' e => grows_wrap h.paired nodes e
  | follow link u =>
    refine orElse_eq (P := Grows ws) (.refl ws) fun found ws' e => ?_
    obtain ⟨x, -, ⟨-, -, rfl⟩ | ⟨y, w, -, -, wrapped⟩⟩ := follow_cases e
    · exact .refl _
    · exact grows_wrap h.paired nodes wrapped
  | root u | unroot u =>
    refine orElse_eq (P := Grows ws) (.refl ws) fun _ ws' e => ?_
    obtain ⟨_, e, ⟨⟩⟩ := bind_eq_ok.mp e
    obtain ⟨_, -, ⟨⟩⟩ := bind_eq_ok.mp e
    exact ⟨Store.filled_heapUpdate _ _ _, nodes⟩
  | set v u =>
    refine orElse_eq (P := Grows ws) (.refl ws) fun _ ws' e => ?_
    obtain ⟨_, e, ⟨⟩⟩ := bind_eq_ok.mp e
    obtain ⟨x, -, e⟩ := bind_eq_ok.mp e
    obtain ⟨g, set, ⟨⟩⟩ := bind_eq_ok.mp e
    exact ⟨.refl _, (Forest.reshaped_set (mapError_eq_ok.mp set)).filled.aged⟩
  | apply m =>
    refine orElse_eq (P := Grows ws) (.refl ws) fun _ ws' e => ?_
    obtain ⟨⟨transition, t⟩, applied, ⟨⟩⟩ := bind_eq_ok.mp e
    have applied := h.paired.applied applied
    obtain ⟨node, -, edited⟩ := applied.forest
    obtain ⟨x, o, -, -, heap⟩ := applied.heap
    refine ⟨?_, (Forest.reshaped_edit edited).filled.aged⟩
    rw [show (ws.withStore t).heap = t.heap from rfl, heap]
    exact Store.filled_heapUpdate _ _ _
  | collect | maybeCollect => simp [Call.collects] at keeps

/-- What collections do to the slots of wrappers and nodes. -/
structure Shrinks (ws ws' : Workspace) : Prop where
  heap : Emptied ws.heap.wrappers ws'.heap.wrappers
  nodes : Emptied ws.forest.nodes ws'.forest.nodes

theorem Shrinks.refl (ws : Workspace) : Shrinks ws ws :=
  ⟨.refl _, .refl _⟩

theorem shrinks_collect {stats : CollectStats} (e : ws.collect = .ok (stats, ws')) :
    Shrinks ws ws' := by
  obtain ⟨⟨stats', t⟩, collected, ⟨⟩⟩ := bind_eq_ok.mp e
  obtain ⟨heap, nodes⟩ := Store.emptied_collect collected
  exact ⟨heap, nodes⟩

theorem shrinks {r : Request} (collects : (Call.request r).collects) :
    Shrinks ws (ws.after r) := by
  cases r with
  | collect => exact orElse_eq (P := Shrinks ws) (.refl ws) fun stats ws' e => shrinks_collect e
  | maybeCollect =>
    refine orElse_eq (P := Shrinks ws) (.refl ws) fun stats ws' e => ?_
    unfold Workspace.maybeCollect at e
    split at e
    · cases e
      exact .refl ws
    · obtain ⟨⟨stats', ws''⟩, e, ⟨⟩⟩ := bind_eq_ok.mp e
      exact shrinks_collect e
  | _ => simp [Call.collects] at collects

/-- Wrappers are removed by collections only, and these make none. -/
theorem Ready.heap_slots (h : Ready ws) (c : Call) :
    if c.collects then Emptied ws.heap.wrappers (ws.afterCall c).heap.wrappers
    else Filled ws.heap.wrappers (ws.afterCall c).heap.wrappers := by
  cases c with
  | ask q w => exact .refl _
  | request r =>
    split
    · rename_i collects
      exact (shrinks collects).heap
    · rename_i keeps
      exact (h.grows (by simpa using keeps)).heap

theorem Ready.heap_aged (h : Ready ws) (c : Call) :
    Aged ws.heap.wrappers (ws.afterCall c).heap.wrappers := by
  have slots := h.heap_slots c
  split at slots
  · exact slots.aged
  · exact slots.aged

/-- What a call makes of nodes is made before any are freed. -/
theorem Ready.nodes_aged (h : Ready ws) (c : Call) :
    Aged ws.forest.nodes (ws.afterCall c).forest.nodes := by
  cases c with
  | ask q w => exact (Filled.refl _).aged
  | request r =>
    by_cases collects : (Call.request r).collects
    · exact (shrinks collects).nodes.aged
    · exact (h.grows (by simpa using collects)).nodes

end Steps

/-! ## Many calls -/

theorem count_append (event : Workspace → Workspace → Bool) (ws : Workspace) (cs ds : List Call) :
    ws.count event (cs ++ ds) = ws.count event cs + (ws.afterCalls cs).count event ds := by
  induction cs generalizing ws with
  | nil => simp [count]
  | cons c cs ih => simp [count, ih, Nat.add_assoc]

theorem count_le_length (event : Workspace → Workspace → Bool) (ws : Workspace) (cs : List Call) :
    ws.count event cs ≤ cs.length := by
  induction cs generalizing ws with
  | nil => exact Nat.le_refl 0
  | cons c cs ih =>
    have := ih (ws.afterCall c)
    have := Bool.toNat_le (event ws (ws.afterCall c))
    rw [count, List.length_cons]
    omega

/-- Fewer steps than there are generations do not lead back to a generation. -/
theorem eq_zero_of_add_ofNat {g : UInt32} {n : Nat} (few : n < UInt32.size)
    (back : g + UInt32.ofNat n = g) : n = 0 := by
  have := congrArg UInt32.toNat back
  simp only [UInt32.toNat_add, UInt32.toNat_ofNat'] at this
  have := g.toNat_lt
  simp only [UInt32.size] at few
  omega

theorem add_ofNat_succ (g : UInt32) (n : Nat) :
    g + UInt32.ofNat (n + 1) = g + UInt32.ofNat n + 1 := by
  rw [UInt32.ofNat_add, ← UInt32.add_assoc]
  rfl

/-- Whether a slot of the heap has been taken into use. -/
def reuses (slot : Nat) (ws ws' : Workspace) : Bool :=
  !ws.heap.wrappers.occupied slot && ws'.heap.wrappers.occupied slot

/-- The slot of a wrapper that was swept has been used `uses` times since. -/
structure Reused (ws : Workspace) (w : WrapperId) (uses : Nat) : Prop where
  used : ws.heap.wrappers.occupied w.index → 0 < uses ∧
    ws.heap.wrappers.generation w.index = w.generation + UInt32.ofNat uses
  vacant : ws.heap.wrappers.occupied w.index = false →
    ws.heap.wrappers.generation w.index = w.generation + UInt32.ofNat (uses + 1)

section Many

variable {ws : Workspace} {w : WrapperId} {uses : Nat}

theorem Reused.afterCall (r : Reused ws w uses) (h : Ready ws) (c : Call) :
    Reused (ws.afterCall c) w (uses + (reuses w.index ws (ws.afterCall c)).toNat) := by
  rcases (h.heap_aged c).slot w.index with ⟨same, kept⟩ | ⟨older, vacant⟩
  -- the slot keeps its generation: at most it has been taken into use
  · cases before : ws.heap.wrappers.occupied w.index with
    | true =>
      obtain ⟨pos, gen⟩ := r.used before
      have after := kept before
      exact ⟨fun _ => by simpa [reuses, before] using ⟨pos, same.trans gen⟩,
        fun vacant => by simp [after] at vacant⟩
    | false =>
      have gen := same.trans (r.vacant before)
      exact ⟨fun after => by simpa [reuses, before, after] using gen,
        fun vacant => by simpa [reuses, vacant] using gen⟩
  -- the slot grows older: it was in use, and is vacant now
  · have slots := h.heap_slots c
    split at slots
    · rcases slots w.index with ⟨same, -⟩ | ⟨-, before, -⟩
      · exact absurd (older.symm.trans same) (by simp)
      · obtain ⟨-, gen⟩ := r.used before
        refine ⟨fun after => by simp [vacant] at after, fun _ => ?_⟩
        rw [older, gen, add_ofNat_succ]
        simp [reuses, before]
    · exact absurd (older.symm.trans (slots.generation w.index)) (by simp)

/-- A wrapper swept is not live again before its slot has been used as often as there are
generations. -/
theorem Reused.stays_stale (r : Reused ws w uses) (h : Ready ws) (cs : List Call)
    (few : uses + ws.count (reuses w.index) cs < UInt32.size) :
    (ws.afterCalls cs).heap.contains w = false := by
  induction cs generalizing ws uses with
  | nil =>
    refine Bool.eq_false_iff.mpr fun live => ?_
    obtain ⟨used, gen⟩ := contains_iff_slot.mp live
    obtain ⟨pos, gen'⟩ := r.used used
    have none := eq_zero_of_add_ofNat (Nat.lt_of_le_of_lt (Nat.le_add_right _ _) few)
      (gen'.symm.trans gen)
    omega
  | cons c cs ih =>
    exact ih (r.afterCall h c) (h.afterCall c) (by simpa only [count, Nat.add_assoc] using few)

end Many

/-- Whether a slot has been freed. -/
def frees {ι α : Type} (arena : Workspace → Arena ι α) (slot : Nat) (ws ws' : Workspace) : Bool :=
  (arena ws').generation slot != (arena ws).generation slot

section Arenas

variable {ι α : Type} {arena : Workspace → Arena ι α} {ws : Workspace} {k : Key ι}

theorem generation_afterCalls (aged : ∀ ws c, Ready ws → Aged (arena ws) (arena (ws.afterCall c)))
    (h : Ready ws) (cs : List Call) (slot : Nat) :
    (arena (ws.afterCalls cs)).generation slot =
      (arena ws).generation slot + UInt32.ofNat (ws.count (frees arena slot) cs) := by
  induction cs generalizing ws with
  | nil => simp [count]
  | cons c cs ih =>
    rw [afterCalls_cons, ih (h.afterCall c), count]
    rcases (aged ws c h).slot slot with ⟨same, -⟩ | ⟨older, -⟩
    · simp [frees, same]
    · rw [older, Nat.add_comm, show (frees arena slot ws (ws.afterCall c)).toNat = 1 by
        simp [frees, older], add_ofNat_succ]
      ac_rfl

/-- A key stays live while its slot is not freed. -/
theorem live_of_unfreed (aged : ∀ ws c, Ready ws → Aged (arena ws) (arena (ws.afterCall c)))
    (h : Ready ws) {cs : List Call} (live : (arena ws).contains k)
    (none : ws.count (frees arena k.index) cs = 0) : (arena (ws.afterCalls cs)).contains k := by
  induction cs generalizing ws with
  | nil => exact live
  | cons c cs ih =>
    simp only [count, Nat.add_eq_zero_iff, Bool.toNat_eq_zero] at none
    refine ih (h.afterCall c) ?_ none.2
    rcases (aged ws c h).slot k.index with ⟨same, kept⟩ | ⟨older, -⟩
    · obtain ⟨used, gen⟩ := contains_iff_slot.mp live
      exact contains_iff_slot.mpr ⟨kept used, same.trans gen⟩
    · simp [frees, older] at none

/-- While each slot is freed less often than there are generations, a key that is live twice is live
all the time between. -/
theorem stays_live (aged : ∀ ws c, Ready ws → Aged (arena ws) (arena (ws.afterCall c)))
    (h : Ready ws) {cs ds : List Call} (live : (arena ws).contains k)
    (again : (arena (ws.afterCalls (cs ++ ds))).contains k)
    (few : ws.count (frees arena k.index) (cs ++ ds) < UInt32.size) :
    (arena (ws.afterCalls cs)).contains k := by
  have back := generation_afterCalls aged h (cs ++ ds) k.index
  rw [(contains_iff_slot.mp again).2, (contains_iff_slot.mp live).2] at back
  have none := eq_zero_of_add_ofNat few back.symm
  rw [count_append, Nat.add_eq_zero_iff] at none
  exact live_of_unfreed aged h live none.1

end Arenas

end MarkdownForest.Workspace
