/-
# MarkdownForest.Proofs.Slots -- how slots of arenas age

A slot of an arena has a generation, and holds a value or is vacant.  A key is
live when its slot holds a value of its generation (`Arena.contains_iff_slot`).
Storing fills a vacant slot and leaves its generation; erasing vacates a slot
and raises it by one.

* `Arena.Filled a b`: `b` is `a` with more stored, `Arena.Emptied a b`: with
  less, `Arena.Aged a b`: first the one and then the other;
* what the operations on forests and stores do to the slots below them
  (`filled_plant`, `emptied_erase`, `filled_materialize`, `emptied_sweep`).
-/
import MarkdownForest.Proofs.Applying
import MarkdownForest.Proofs.Updates

namespace MarkdownForest

set_option autoImplicit false

namespace Arena

variable {ι α : Type}

/-- The generation of a slot; that of a slot still to come is the first. -/
def generation (a : Arena ι α) (i : Nat) : UInt32 :=
  (a.slots[i]?.map (·.generation)).getD 0

/-- Whether a slot holds a value. -/
def occupied (a : Arena ι α) (i : Nat) : Bool :=
  (a.slots[i]?.bind (·.value)).isSome

/-- `b` is `a` with more stored. -/
structure Filled (a b : Arena ι α) : Prop where
  generation : ∀ i, b.generation i = a.generation i
  occupied : ∀ i, a.occupied i → b.occupied i

/-- A slot is as it was, or it was vacated once. -/
def Vacated (a b : Arena ι α) (i : Nat) : Prop :=
  (b.generation i = a.generation i ∧ b.occupied i = a.occupied i) ∨
    (b.generation i = a.generation i + 1 ∧ a.occupied i = true ∧ b.occupied i = false)

/-- `b` is `a` with less stored. -/
def Emptied (a b : Arena ι α) : Prop :=
  ∀ i, Vacated a b i

/-- `b` is `a` after storing and then erasing. -/
def Aged (a b : Arena ι α) : Prop :=
  ∃ mid, Filled a mid ∧ Emptied mid b

section Slots

variable {a b c : Arena ι α} {k : Key ι} {v : α} {i : Nat}

theorem contains_iff_slot :
    a.contains k ↔ a.occupied k.index ∧ a.generation k.index = k.generation := by
  simp only [contains_iff, get?_eq_some_iff, occupied, generation]
  cases a.slots[k.index]? with
  | none => simp
  | some s =>
    obtain ⟨g, w⟩ := s
    cases w <;> simp

@[simp] theorem generation_empty (i : Nat) : (empty : Arena ι α).generation i = 0 := by
  simp [generation, empty]

@[simp] theorem occupied_empty (i : Nat) : (empty : Arena ι α).occupied i = false := by
  simp [occupied, empty]

theorem Filled.refl (a : Arena ι α) : Filled a a :=
  ⟨fun _ => rfl, fun _ => id⟩

theorem Filled.trans (h : Filled a b) (k : Filled b c) : Filled a c :=
  ⟨fun i => (k.generation i).trans (h.generation i), fun i hi => k.occupied i (h.occupied i hi)⟩

theorem Filled.contains (h : Filled a b) (hk : a.contains k) : b.contains k := by
  obtain ⟨used, same⟩ := contains_iff_slot.mp hk
  exact contains_iff_slot.mpr ⟨h.occupied _ used, (h.generation _).trans same⟩

theorem Emptied.refl (a : Arena ι α) : Emptied a a :=
  fun _ => .inl ⟨rfl, rfl⟩

theorem Emptied.trans (h : Emptied a b) (k : Emptied b c) : Emptied a c := fun i => by
  rcases h i with ⟨g, o⟩ | ⟨g, o, o'⟩ <;> rcases k i with ⟨g', p⟩ | ⟨g', p, p'⟩
  · exact .inl ⟨g'.trans g, p.trans o⟩
  · exact .inr ⟨by rw [g', g], o ▸ p, p'⟩
  · exact .inr ⟨g'.trans g, o, p.trans o'⟩
  · simp [o'] at p

theorem Filled.aged (h : Filled a b) : Aged a b :=
  ⟨b, h, .refl b⟩

theorem Emptied.aged (h : Emptied a b) : Aged a b :=
  ⟨a, .refl a, h⟩

/-- A slot ages by one at most, and is vacant then. -/
theorem Aged.slot (h : Aged a b) (i : Nat) :
    (b.generation i = a.generation i ∧ (a.occupied i → b.occupied i)) ∨
      (b.generation i = a.generation i + 1 ∧ b.occupied i = false) := by
  obtain ⟨mid, filled, emptied⟩ := h
  rcases emptied i with ⟨g, o⟩ | ⟨g, -, o⟩
  · exact .inl ⟨g.trans (filled.generation i), fun hi => o ▸ filled.occupied i hi⟩
  · exact .inr ⟨by rw [g, filled.generation i], o⟩

/-! ## What each operation does -/

theorem filled_alloc (a : Arena ι α) (v : α) : Filled a (a.alloc v).2 := by
  unfold alloc
  split
  · refine ⟨fun i => ?_, fun i hi => ?_⟩
    · by_cases e : i = a.slots.size <;> simp [generation, Array.getElem?_push, e]
    · by_cases e : i = a.slots.size
      · simp [occupied, e]
      · simpa [occupied, Array.getElem?_push, e] using hi
  · rename_i f free hf
    obtain ⟨s, hs, -⟩ := a.vacant_of_free f (by simp [hf])
    obtain ⟨hlt, hs⟩ := Array.getElem?_eq_some_iff.mp hs
    refine ⟨fun i => ?_, fun i hi => ?_⟩
    · by_cases e : f = i
      · subst e; simp [generation, hlt]
      · simp [generation, Array.getElem?_setIfInBounds_ne e]
    · by_cases e : f = i
      · subst e; simp [occupied, hlt]
      · simpa [occupied, Array.getElem?_setIfInBounds_ne e] using hi

theorem slot_set (a : Arena ι α) (k : Key ι) (v : α) (i : Nat) :
    (a.set k v).generation i = a.generation i ∧ (a.set k v).occupied i = a.occupied i := by
  unfold set
  split
  · exact ⟨rfl, rfl⟩
  · rename_i w hw
    obtain ⟨hlt, hs⟩ := Array.getElem?_eq_some_iff.mp (get?_eq_some_iff.mp hw)
    by_cases e : k.index = i
    · subst e; simp [generation, occupied, hlt, hs]
    · simp [generation, occupied, Array.getElem?_setIfInBounds_ne e]

theorem filled_set (a : Arena ι α) (k : Key ι) (v : α) : Filled a (a.set k v) :=
  ⟨fun i => (a.slot_set k v i).1, fun i hi => (a.slot_set k v i).2 ▸ hi⟩

theorem emptied_set (a : Arena ι α) (k : Key ι) (v : α) : Emptied a (a.set k v) :=
  fun i => .inl (a.slot_set k v i)

theorem emptied_erase (a : Arena ι α) (k : Key ι) : Emptied a (a.erase k) := by
  intro i
  unfold erase
  split
  · exact .inl ⟨rfl, rfl⟩
  · rename_i w hw
    obtain ⟨hlt, hs⟩ := Array.getElem?_eq_some_iff.mp (get?_eq_some_iff.mp hw)
    by_cases e : k.index = i
    · subst e
      exact .inr (by simp [generation, occupied, hlt, hs])
    · exact .inl (by simp [generation, occupied, Array.getElem?_setIfInBounds_ne e])

end Slots

end Arena

open Arena (Filled Emptied Aged)

/-! ## Forests -/

namespace Forest

variable {f g : Forest} {x p : NodeId}

/-- `g` is `f` with records changed, but none made or freed. -/
structure Reshaped (f g : Forest) : Prop where
  filled : Filled f.nodes g.nodes
  emptied : Emptied f.nodes g.nodes

theorem Reshaped.refl (f : Forest) : Reshaped f f :=
  ⟨.refl _, .refl _⟩

theorem Reshaped.trans {h : Forest} (r : Reshaped f g) (s : Reshaped g h) : Reshaped f h :=
  ⟨r.filled.trans s.filled, r.emptied.trans s.emptied⟩

theorem reshaped_update {change : Node → Node} (h : f.update x change = .ok g) :
    Reshaped f g := by
  unfold update at h
  split at h
  · cases h
    exact ⟨Arena.filled_set _ _ _, Arena.emptied_set _ _ _⟩
  · cases h

theorem Updated.reshaped (u : Updated f g) : Reshaped f g := by
  induction u with
  | refl => exact .refl f
  | step _ last ih => exact ih.trans (reshaped_update last)

theorem reshaped_set {write : Content → Except FieldError Content} (h : f.set write x = .ok g) :
    Reshaped f g :=
  (updated_set h).reshaped

theorem reshaped_edit {m : Mutation} {node : WrapperId → NodeId} (h : m.edit node f = .ok g) :
    Reshaped f g := by
  cases m with
  | unlink _ => exact (updated_detach h).reshaped
  | insertBefore _ _ | insertAfter _ _ | prependChild _ _ | appendChild _ _ =>
    exact (updated_move h).reshaped

theorem filled_newNode (f : Forest) (c : Content) : Filled f.nodes (f.newNode c).2.nodes :=
  Arena.filled_alloc ..

theorem filled_place (f : Forest) (p x : NodeId) : Filled f.nodes (f.place p x).nodes := by
  unfold place
  split
  · rename_i g h
    exact (updated_appendChild h).reshaped.filled
  · exact .refl _

mutual
/-- Planting a tree frees nothing. -/
theorem filled_plant (f : Forest) : (t : Tree) → Filled f.nodes (f.plant t).2.nodes
  | .node c ts => (f.filled_newNode c).trans (filled_plantBelow _ _ ts)

theorem filled_plantBelow (f : Forest) (x : NodeId) :
    (ts : List Tree) → Filled f.nodes (f.plantBelow x ts).nodes
  | [] => .refl _
  | t :: ts =>
    ((filled_plant f t).trans (filled_place _ _ _)).trans (filled_plantBelow _ x ts)
end

/-- Freeing makes nothing. -/
theorem emptied_release (f : Forest) (stack : List NodeId) :
    Emptied f.nodes (f.release stack).2.nodes := by
  fun_induction release f stack with
  | case1 f => exact .refl _
  | case2 f x stack _ ih => exact ih
  | case3 f x stack n _ g count h e ih =>
    rw [e] at ih
    exact (Arena.emptied_erase _ _).trans ih

theorem emptied_erase (f : Forest) (x : NodeId) : Emptied f.nodes (f.erase x).2.nodes := by
  unfold Forest.erase
  split
  · rename_i freed h
    obtain ⟨f', hf', ⟨⟩⟩ := bind_eq_ok.mp h
    exact (updated_detach hf').reshaped.emptied.trans (emptied_release f' [x])
  · exact .refl _

/-- Reading a source makes nodes, and frees them again if it fails. -/
theorem aged_read (f : Forest) (o : ParseOptions) (source : String) :
    Aged f.nodes (f.read o source).2.nodes := by
  unfold Forest.read
  dsimp only
  split
  · exact (filled_plant f _).aged
  · exact ⟨_, filled_plant f _, emptied_erase _ _⟩

end Forest

/-! ## Stores -/

namespace Store

variable {s t : Store} {x : NodeId} {w : WrapperId}

theorem filled_getOrCreate (h : s.getOrCreate x = .ok (w, t)) :
    Filled s.heap.wrappers t.heap.wrappers := by
  unfold getOrCreate at h
  split at h
  · cases h
    exact .refl _
  · obtain ⟨_, -, h⟩ := bind_eq_ok.mp h
    cases h
    exact Arena.filled_alloc ..

theorem filled_wrapAll {xs : List NodeId}
    (h : (xs.foldlM (fun s y => return (← Store.getOrCreate s y).2) s :
      Except ForestError Store) = .ok t) : Filled s.heap.wrappers t.heap.wrappers := by
  induction xs generalizing s with
  | nil => cases h; exact .refl _
  | cons y xs ih =>
    rw [List.foldlM_cons] at h
    obtain ⟨s', hs', h⟩ := bind_eq_ok.mp h
    obtain ⟨⟨w, u⟩, entered, ⟨⟩⟩ := bind_eq_ok.mp hs'
    exact (filled_getOrCreate entered).trans (ih h)

/-- Wrapping a node removes no wrapper. -/
theorem filled_materialize (h : s.materialize x = .ok (w, t)) :
    Filled s.heap.wrappers t.heap.wrappers := by
  unfold materialize at h
  split at h
  · cases h
    exact .refl _
  · obtain ⟨_, -, h⟩ := bind_eq_ok.mp h
    obtain ⟨s', hs', h⟩ := bind_eq_ok.mp h
    exact (filled_wrapAll hs').trans (filled_getOrCreate h)

theorem filled_heapUpdate (h : Heap) (w : WrapperId) (change : Wrapper → Wrapper) :
    Filled h.wrappers (h.update w change).wrappers := by
  unfold Heap.update
  split
  · exact Arena.filled_set _ _ _
  · exact .refl _

theorem emptied_remove (s : Store) (stats : CollectStats) (w : WrapperId) (v : Wrapper) :
    Emptied s.heap.wrappers (s.remove stats w v).2.heap.wrappers ∧
      Emptied s.forest.nodes (s.remove stats w v).2.forest.nodes := by
  refine ⟨by rw [remove_heap]; exact Arena.emptied_erase _ _, ?_⟩
  unfold remove
  cases v.ownership with
  | attached => exact .refl _
  | root => exact s.forest.emptied_erase v.node

/-- Sweeping makes neither wrappers nor nodes. -/
theorem emptied_sweep (s : Store) (stats : CollectStats) (dead : List (WrapperId × Wrapper)) :
    Emptied s.heap.wrappers (s.sweep stats dead).2.heap.wrappers ∧
      Emptied s.forest.nodes (s.sweep stats dead).2.forest.nodes := by
  induction dead generalizing s stats with
  | nil => exact ⟨.refl _, .refl _⟩
  | cons e dead ih =>
    obtain ⟨w, v⟩ := e
    rw [sweep_cons]
    obtain ⟨heap, forest⟩ := s.emptied_remove stats w v
    obtain ⟨heap', forest'⟩ := ih (s.remove stats w v).2 (s.remove stats w v).1
    exact ⟨heap.trans heap', forest.trans forest'⟩

/-- A collection makes neither wrappers nor nodes. -/
theorem emptied_collect {stats : CollectStats} (h : s.collect = .ok (stats, t)) :
    Emptied s.heap.wrappers t.heap.wrappers ∧ Emptied s.forest.nodes t.forest.nodes := by
  obtain ⟨dead, -, h⟩ := bind_eq_ok.mp h
  cases h
  exact s.emptied_sweep _ dead

end Store

end MarkdownForest
