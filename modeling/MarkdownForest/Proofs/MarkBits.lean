/-
# MarkdownForest.Proofs.MarkBits -- collecting with marks in the heap

A collection may keep its marks in the records of the wrappers.  It then clears
them, works off a stack, marking records in the heap as it goes, and removes the
records without a mark; a violation ends it where it is found, and whatever marks
there are stay (`MarkStore.collect`).  Its loops have no bound: that over the
stack, those from child to child, and those that free the trees of roots.

Without the marks a heap is one of wrappers (`MarkHeap.plain`), and setting marks
does not show there.  The wrappers without a mark are the ones not met so far,
in the order of their slots (`MarkHeap.unmarked`), so that the loop over the stack
is in step with `Store.unreached` (`run_markRound`), the sweep with `Store.sweep`
(`sweep_eq`), and the whole with `Store.collect` (`collect_eq`).
-/
import Mathlib.Data.List.Nodup
import MarkdownForest.Proofs.Collecting
import MarkdownForest.Proofs.Ledger
import MarkdownForest.Proofs.LinkLoops
import MarkdownForest.Proofs.PlantingOrder
import MarkdownForest.Proofs.Requests

namespace MarkdownForest

set_option autoImplicit false

/-! ## Arenas of other values -/

namespace Arena

variable {ι α β : Type} {f : α → β} {a b : Arena ι α} {k : Key ι} {v w : α}

/-- The arena with other values under the same keys. -/
def convert (f : α → β) (a : Arena ι α) : Arena ι β where
  slots := a.slots.map fun s => ⟨s.generation, s.value.map f⟩
  free := a.free
  free_nodup := a.free_nodup
  vacant_of_free i hi := by
    obtain ⟨s, hs, vacant⟩ := a.vacant_of_free i hi
    exact ⟨⟨s.generation, s.value.map f⟩, by simp [hs], by simp [vacant]⟩

@[simp] theorem get?_convert (f : α → β) (a : Arena ι α) (k : Key ι) :
    (a.convert f).get? k = (a.get? k).map f := by
  unfold get? convert
  rw [Array.getElem?_map]
  cases a.slots[k.index]? with
  | none => rfl
  | some s => by_cases e : s.generation = k.generation <;> simp [e]

theorem SameShape.convert (h : SameShape a b) (f : α → β) :
    SameShape (a.convert f) (b.convert f) where
  free := h.free
  generations := by
    simpa [Arena.convert, Function.comp_def] using h.generations

/-- Values that become the same may be exchanged. -/
theorem convert_set (hk : a.get? k = some v) (same : f w = f v) :
    (a.set k w).convert f = a.convert f := by
  refine ((a.sameShape_set k w).convert f).ext fun j => ?_
  rw [get?_convert, get?_convert, get?_set (contains_iff.mpr ⟨v, hk⟩)]
  split
  · rename_i e
    rw [e, hk, Option.map_some, Option.map_some, same]
  · rfl

theorem convert_convert {γ : Type} (g : β → γ) (f : α → β) (a : Arena ι α) :
    (a.convert f).convert g = a.convert (g ∘ f) := by
  simp [convert, Function.comp_def]

theorem convert_erase (f : α → β) (a : Arena ι α) (k : Key ι) :
    (a.erase k).convert f = (a.convert f).erase k := by
  by_cases live : a.contains k
  · have live' : (a.convert f).contains k := by simpa [contains] using live
    obtain ⟨slots, free⟩ := erase_slots live
    obtain ⟨slots', free'⟩ := erase_slots live'
    refine SameShape.ext ⟨?_, ?_⟩ fun j => ?_
    · rw [free']
      exact free
    · rw [slots']
      simp [convert, slots, Array.map_setIfInBounds, Function.comp_def]
    · simp [get?_erase, apply_ite (Option.map f)]
  · have stale : a.get? k = none := by simpa [contains] using live
    rw [erase_of_stale stale, erase_of_stale (by rw [get?_convert, stale]; rfl)]

theorem entries_convert (f : α → β) (a : Arena ι α) :
    (a.convert f).entries = a.entries.map fun e => (e.1, f e.2) := by
  simp only [entries, convert, Array.toList_map, List.zipIdx_map, List.filterMap_map,
    List.map_filterMap]
  refine List.filterMap_congr fun e _ => ?_
  cases h : e.1.value <;> simp [h]

end Arena

/-! ## Wrappers with marks -/

/-- A wrapper as it lies in the heap. -/
structure Marked where
  wrapper : Wrapper
  marked : Bool

structure MarkHeap where
  wrappers : Arena Wrapper Marked := .empty
  allocatedSinceCollect : Nat := 0
  totalAllocated : Nat := 0

namespace MarkHeap

/-- The heap without the marks. -/
def plain (h : MarkHeap) : Heap :=
  ⟨h.wrappers.convert (·.wrapper), h.allocatedSinceCollect, h.totalAllocated⟩

/-- The wrappers without a mark, by index. -/
def unmarked (h : MarkHeap) : List (WrapperId × Wrapper) :=
  (h.wrappers.entries.filter (!·.2.marked)).map fun e => (e.1, e.2.wrapper)

/-- Takes all marks away. -/
def clear (h : MarkHeap) : MarkHeap :=
  { h with wrappers := h.wrappers.convert ({ · with marked := false }) }

/-- The rooted wrappers, in the order in which they go on the stack. -/
def rooted (h : MarkHeap) : List WrapperId :=
  (h.wrappers.entries.filter (·.2.wrapper.isRooted)).map (·.1)

/-- Marks a wrapper whose record is known. -/
def mark (h : MarkHeap) (w : WrapperId) (v : Marked) : MarkHeap :=
  { h with wrappers := h.wrappers.set w { v with marked := true } }

def erase (h : MarkHeap) (w : WrapperId) : MarkHeap :=
  { h with wrappers := h.wrappers.erase w }

end MarkHeap

structure MarkStore where
  forest : Forest
  heap : MarkHeap
  identity : IdentityTable

namespace MarkStore

/-- The store without the marks. -/
def plain (s : MarkStore) : Store :=
  ⟨s.forest, s.heap.plain, s.identity⟩

/-! ## The collection -/

/-- Puts on the stack the wrapper of a node, if there is one. -/
def pushEntry (t : IdentityTable) (stack : List WrapperId) (y : NodeId) : List WrapperId :=
  match t.lookup y with
  | some w => w :: stack
  | none => stack

/-- Puts on the stack what the wrapper of a node reaches. -/
def propagate (f : Forest) (t : IdentityTable) (x : NodeId) (stack : List WrapperId) :
    Part (Except Violation (List WrapperId)) :=
  match f.nodes.get? x with
  | none => .some (.ok stack)
  | some n =>
    match n.parent with
    | none => (f.along (pushEntry t) stack n.firstChild).map .ok
    | some p =>
      match t.lookup p with
      | none => .some (.error ⟨x, p⟩)
      | some w => (f.along (pushEntry t) (w :: stack) n.firstChild).map .ok

/-- One wrapper of the stack; a wrapper that is met for the first time is marked and counted. -/
def markRound (f : Forest) (t : IdentityTable) : MarkHeap × List WrapperId × Nat →
    Part ((Except Violation Nat × MarkHeap) ⊕ MarkHeap × List WrapperId × Nat)
  | (h, [], count) => .some (.inl (.ok count, h))
  | (h, w :: stack, count) =>
    match h.wrappers.get? w with
    | none => .some (.inr (h, stack, count))
    | some v =>
      if v.marked then .some (.inr (h, stack, count))
      else (propagate f t v.wrapper.node stack).map fun
        | .error e => .inl (.error e, h.mark w v)
        | .ok stack => .inr (h.mark w v, stack, count + 1)

/-- Marks what is reached, and counts it. -/
def mark (s : MarkStore) : Part (Except Violation Nat × MarkHeap) :=
  Loop.run (markRound s.forest s.identity) (s.heap.clear, s.heap.rooted.reverse, 0)

/-- Frees the tree of a node; nothing is freed if the node is not live. -/
def finalize (f : Forest) (x : NodeId) : Part (Nat × Forest) :=
  (f.freeLoop x).map fun
    | .ok freed => freed
    | .error _ => (0, f)

/-- Removes a wrapper if it is there, and the tree of its node if that is a root. -/
def remove (s : MarkStore) (stats : CollectStats) (w : WrapperId) :
    Part (CollectStats × MarkStore) :=
  match s.heap.wrappers.get? w with
  | none => .some (stats, s)
  | some v =>
    let s := { s with heap := s.heap.erase w, identity := s.identity.forget v.wrapper.node w }
    let stats := { stats with swept := stats.swept + 1 }
    match v.wrapper.ownership with
    | .attached => .some (stats, s)
    | .root => (finalize s.forest v.wrapper.node).map fun (count, forest) =>
      ({ stats with finalized := stats.finalized + 1, freedNodes := stats.freedNodes + count },
        { s with forest })

/-- Removes wrappers one by one. -/
def sweep (s : MarkStore) (stats : CollectStats) : List WrapperId → Part (CollectStats × MarkStore)
  | [] => .some (stats, s)
  | w :: more => (s.remove stats w).bind fun (stats, s) => s.sweep stats more

/-- Collects. -/
def collect (s : MarkStore) : Part (Except Violation CollectStats × MarkStore) :=
  s.mark.bind fun (marked, heap) =>
    match marked with
    | .error e => .some (.error e, { s with heap })
    | .ok marked =>
      (({ s with heap } : MarkStore).sweep {} (heap.unmarked.map (·.1))).map fun (stats, t) =>
        (.ok { stats with marked }, { t with heap := { t.heap with allocatedSinceCollect := 0 } })

end MarkStore

/-! ## Marks -/

namespace MarkHeap

variable {h : MarkHeap} {w : WrapperId} {v : Wrapper} {m : Marked}

theorem get?_plain (h : MarkHeap) (w : WrapperId) :
    h.plain.get? w = (h.wrappers.get? w).map (·.wrapper) :=
  Arena.get?_convert ..

@[simp] theorem plain_clear (h : MarkHeap) : h.clear.plain = h.plain := by
  simp [plain, clear, Arena.convert_convert, Function.comp_def]

theorem plain_mark (hw : h.wrappers.get? w = some m) : (h.mark w m).plain = h.plain := by
  have same : (h.wrappers.set w { m with marked := true }).convert (·.wrapper) =
      h.wrappers.convert (·.wrapper) := Arena.convert_set hw rfl
  simp only [plain, mark, same]

@[simp] theorem plain_erase (h : MarkHeap) (w : WrapperId) :
    (h.erase w).plain = h.plain.erase w := by
  simp [plain, erase, Heap.erase, Arena.convert_erase]

theorem mem_unmarked : (w, v) ∈ h.unmarked ↔ h.wrappers.get? w = some ⟨v, false⟩ := by
  simp only [unmarked, List.mem_map, List.mem_filter, Prod.exists, Prod.mk.injEq, Arena.mem_entries]
  constructor
  · rintro ⟨w, ⟨v, marked⟩, ⟨found, off⟩, rfl, rfl⟩
    cases marked with
    | false => exact found
    | true => cases off
  · intro found
    exact ⟨w, ⟨v, false⟩, ⟨found, rfl⟩, rfl, rfl⟩

theorem sorted_unmarked (h : MarkHeap) :
    h.unmarked.Pairwise fun d e => d.1.index < e.1.index := by
  rw [unmarked, List.pairwise_map]
  exact h.wrappers.entries_sorted.filter _

/-- In a list by index no wrapper stands twice. -/
theorem nodup_of_sorted {l : List (WrapperId × Wrapper)}
    (sorted : l.Pairwise fun d e => d.1.index < e.1.index) : (l.map (·.1)).Nodup := by
  rw [List.nodup_iff_pairwise_ne, List.pairwise_map]
  exact sorted.imp fun lt same => Nat.ne_of_lt lt (congrArg Key.index same)

/-- Without marks no wrapper is marked. -/
theorem unmarked_clear (h : MarkHeap) : h.clear.unmarked = h.plain.entries := by
  rw [Heap.entries, plain, Arena.entries_convert, unmarked, clear, Arena.entries_convert]
  simp [List.filter_map, Function.comp_def]

theorem rooted_eq (f : Forest) (t : IdentityTable) (h : MarkHeap) :
    h.rooted.reverse = (Store.mk f h.plain t).rooted := by
  rw [Store.rooted, Heap.entries, plain, Arena.entries_convert, rooted, List.filter_map,
    List.map_map]
  rfl

/-- Lists by index are known from their members. -/
theorem eq_of_sorted {l l' : List (WrapperId × Wrapper)}
    (sorted : l.Pairwise fun d e => d.1.index < e.1.index)
    (sorted' : l'.Pairwise fun d e => d.1.index < e.1.index) (mem : ∀ e, e ∈ l ↔ e ∈ l') :
    l = l' := by
  have nodup := List.Nodup.of_map _ (nodup_of_sorted sorted)
  have nodup' := List.Nodup.of_map _ (nodup_of_sorted sorted')
  have perm : l.Perm l' := (List.perm_ext_iff_of_nodup nodup nodup').mpr mem
  refine List.Perm.eq_of_pairwise (fun d e _ _ lt gt => ?_) sorted sorted' perm
  omega

/-- Marking a wrapper takes it out of those without a mark. -/
theorem unmarked_mark {rest : List (WrapperId × Wrapper)} (hw : h.wrappers.get? w = some m)
    (found : Store.extract? w h.unmarked = some (v, rest)) : (h.mark w m).unmarked = rest := by
  obtain ⟨perm, sub⟩ := Store.extract?_some found
  have sorted := h.sorted_unmarked.sublist sub
  refine eq_of_sorted (sorted_unmarked _) sorted fun ⟨k, u⟩ => ?_
  rw [mem_unmarked, mark, Arena.get?_set (Arena.contains_iff.mpr ⟨m, hw⟩)]
  have mem := Store.mem_of_extract?_some found (k, u)
  by_cases here : k = w
  · subst here
    rw [if_pos rfl]
    refine iff_of_false nofun fun on => ?_
    -- the wrapper would stand twice among those without a mark
    have once := (perm.map (·.1)).nodup_iff.mp (nodup_of_sorted h.sorted_unmarked)
    exact (List.nodup_cons.mp once).1 (List.mem_map_of_mem (f := (·.1)) on)
  · rw [if_neg here, ← mem_unmarked, mem]
    exact or_iff_right fun same => here (congrArg Prod.fst same)

end MarkHeap

namespace MarkStore

open Forest (Linked Sound)

/-! ## The loop over the stack -/

section Marking

variable {s : Store} {h : MarkHeap} {w : WrapperId} {stack : List WrapperId}
  {left : List (WrapperId × Wrapper)}

theorem foldl_pushEntry (t : IdentityTable) (row : List NodeId) (stack : List WrapperId) :
    row.foldl (pushEntry t) stack = (row.filterMap t.lookup).reverse ++ stack := by
  induction row generalizing stack with
  | nil => rfl
  | cons y row ih =>
    rw [List.foldl_cons, ih, pushEntry]
    cases hy : t.lookup y with
    | none => rw [List.filterMap_cons_none hy]
    | some w => simp [List.filterMap_cons_some hy]

/-- What is reached from a wrapper goes on the stack, the last one on top. -/
theorem propagate_eq (linked : Linked s.forest s.forest.children) (x : NodeId)
    (stack : List WrapperId) : propagate s.forest s.identity x stack =
      .some ((s.propagate x).map fun reached => reached.reverse ++ stack) := by
  unfold propagate Store.propagate
  cases hx : s.forest.nodes.get? x with
  | none =>
    rw [if_neg (Forest.not_contains_iff.mpr hx)]
    rfl
  | some n =>
    have live : s.forest.contains x := Forest.contains_iff.mpr ⟨n, hx⟩
    have children (stack : List WrapperId) := linked.along_children (pushEntry s.identity) stack hx
    rw [if_pos live, Forest.parent?_of_get? hx]
    dsimp only
    cases n.parent with
    | none => rw [children, Part.map_some, foldl_pushEntry]; rfl
    | some p =>
      dsimp only
      cases s.identity.lookup p with
      | none => rfl
      | some w =>
        dsimp only
        rw [children, Part.map_some, foldl_pushEntry]
        simp [Except.map]

/-- A wrapper that is gone or has a mark is passed by. -/
theorem markRound_skip {f : Forest} {t : IdentityTable} {count : Nat}
    (met : Store.extract? w h.unmarked = none) :
    markRound f t (h, w :: stack, count) = .some (.inr (h, stack, count)) := by
  cases hw : h.wrappers.get? w with
  | none => rw [markRound, hw]
  | some m =>
    obtain ⟨v, marked⟩ := m
    cases marked with
    | true =>
      rw [markRound, hw]
      rfl
    | false => exact absurd (MarkHeap.mem_unmarked.mpr hw) (Store.not_mem_of_extract?_none met)

/-- A wrapper without a mark is marked. -/
theorem markRound_visit {f : Forest} {t : IdentityTable} {count : Nat} {v : Wrapper}
    (hw : h.wrappers.get? w = some ⟨v, false⟩) :
    markRound f t (h, w :: stack, count) = (propagate f t v.node stack).map fun
      | .error e => .inl (.error e, h.mark w ⟨v, false⟩)
      | .ok stack => .inr (h.mark w ⟨v, false⟩, stack, count + 1) := by
  rw [markRound, hw]
  rfl

theorem get?_of_extract? {v : Wrapper} {rest : List (WrapperId × Wrapper)}
    (found : Store.extract? w h.unmarked = some (v, rest)) :
    h.wrappers.get? w = some ⟨v, false⟩ :=
  MarkHeap.mem_unmarked.mp ((Store.mem_of_extract?_some found _).mpr (.inl rfl))

/-- The loop over the stack meets what `Store.unreached` meets, and marks it. -/
theorem run_markRound (linked : Linked s.forest s.forest.children) {count : Nat}
    (plain : h.plain = s.heap) (unmarked : h.unmarked = left)
    (counted : count + left.length = s.heap.size) :
    ∃ h' : MarkHeap, h'.plain = s.heap ∧
      match s.unreached stack left with
      | .error e => Loop.run (markRound s.forest s.identity) (h, stack, count) =
          .some (.error e, h')
      | .ok dead => h'.unmarked = dead ∧
          Loop.run (markRound s.forest s.identity) (h, stack, count) =
            .some (.ok (s.heap.size - dead.length), h') := by
  fun_induction Store.unreached s stack left generalizing h count with
  | case1 left =>
    refine ⟨h, plain, unmarked, ?_⟩
    rw [← counted, Nat.add_sub_cancel]
    exact Loop.run_over rfl
  | case2 left w stack met ih =>
    subst unmarked
    have round : Loop.run (markRound s.forest s.identity) (h, w :: stack, count) =
        Loop.run (markRound s.forest s.identity) (h, stack, count) :=
      Loop.run_next (markRound_skip met)
    rw [round]
    exact ih plain rfl counted
  | case3 left w stack v rest found e failed =>
    subst unmarked
    have hw := get?_of_extract? found
    refine ⟨h.mark w ⟨v, false⟩, (MarkHeap.plain_mark hw).trans plain, Loop.run_over ?_⟩
    rw [markRound_visit hw, propagate_eq linked, failed, Part.map_some]
    rfl
  | case4 left w stack v rest found reached ok ih =>
    subst unmarked
    have hw := get?_of_extract? found
    have fewer : h.unmarked.length = rest.length + 1 := (Store.extract?_some found).1.length_eq
    have round : Loop.run (markRound s.forest s.identity) (h, w :: stack, count) =
        Loop.run (markRound s.forest s.identity)
          (h.mark w ⟨v, false⟩, reached.reverse ++ stack, count + 1) := by
      apply Loop.run_next
      rw [markRound_visit hw, propagate_eq linked, ok, Part.map_some]
      rfl
    rw [round]
    exact ih ((MarkHeap.plain_mark hw).trans plain) (MarkHeap.unmarked_mark hw found) (by omega)

/-- Marking in place. -/
theorem mark_eq {s : MarkStore} (linked : Linked s.forest s.forest.children) :
    ∃ h : MarkHeap, h.plain = s.heap.plain ∧
      match s.plain.dead with
      | .error e => s.mark = .some (.error e, h)
      | .ok dead => h.unmarked = dead ∧
          s.mark = .some (.ok (s.plain.heap.size - dead.length), h) := by
  unfold mark Store.dead
  rw [MarkHeap.rooted_eq s.forest s.identity s.heap]
  have start : s.heap.clear.plain = s.plain.heap := s.heap.plain_clear
  exact run_markRound (s := s.plain) linked start s.heap.unmarked_clear (Nat.zero_add _)

end Marking

/-! ## The sweep -/

section Sweeping

variable {s : MarkStore} {w : WrapperId} {v : Wrapper}

theorem finalize_eq {f : Forest} (sound : Sound f) (x : NodeId) :
    finalize f x = .some (f.erase x) := by
  rw [finalize, sound.linked.freeLoop_eq, Part.map_some]
  unfold Forest.erase
  cases f.freeSubtree x <;> rfl

/-- Removing a wrapper in place. -/
theorem remove_eq (sound : Sound s.forest) (stats : CollectStats)
    (hw : s.plain.heap.get? w = some v) :
    ∃ s', s.remove stats w = .some ((s.plain.remove stats w v).1, s') ∧
      s'.plain = (s.plain.remove stats w v).2 := by
  obtain ⟨m, hm, rfl⟩ := Option.map_eq_some_iff.mp ((s.heap.get?_plain w).symm.trans hw)
  have heap : (s.heap.erase w).plain = s.plain.heap.erase w := s.heap.plain_erase w
  unfold remove Store.remove
  rw [hm]
  dsimp only
  cases m.wrapper.ownership with
  | attached => exact ⟨_, rfl, congrArg (Store.mk s.forest · _) heap⟩
  | root =>
    dsimp only
    rw [finalize_eq sound, Part.map_some]
    exact ⟨_, rfl, congrArg (Store.mk (s.forest.erase m.wrapper.node).2 · _) heap⟩

theorem sound_remove {s : Store} (sound : Sound s.forest) (stats : CollectStats) (w : WrapperId)
    (v : Wrapper) : Sound (s.remove stats w v).2.forest := by
  unfold Store.remove
  cases v.ownership with
  | attached => exact sound
  | root => exact sound.erase v.node

/-- Sweeping in place. -/
theorem sweep_eq (sound : Sound s.forest) (stats : CollectStats)
    {dead : List (WrapperId × Wrapper)} (live : ∀ e ∈ dead, s.plain.heap.get? e.1 = some e.2)
    (nodup : (dead.map (·.1)).Nodup) :
    ∃ s', s.sweep stats (dead.map (·.1)) = .some ((s.plain.sweep stats dead).1, s') ∧
      s'.plain = (s.plain.sweep stats dead).2 := by
  induction dead generalizing s stats with
  | nil => exact ⟨s, rfl, rfl⟩
  | cons e dead ih =>
    obtain ⟨w, v⟩ := e
    rw [List.map_cons, List.nodup_cons] at nodup
    obtain ⟨s', removed, same⟩ := remove_eq sound stats (live (w, v) List.mem_cons_self)
    have sound' : Sound s'.forest := by
      have := sound_remove (s := s.plain) sound stats w v
      rwa [← same] at this
    have live' : ∀ e ∈ dead, s'.plain.heap.get? e.1 = some e.2 := by
      intro e he
      have ne : e.1 ≠ w := fun same => nodup.1 (same ▸ List.mem_map_of_mem (f := (·.1)) he)
      rw [same, Store.remove_heap, Heap.get?_erase, if_neg ne]
      exact live e (List.mem_cons_of_mem _ he)
    obtain ⟨t, swept, plain⟩ := ih sound' (s.plain.remove stats w v).1 live' nodup.2
    refine ⟨t, ?_, ?_⟩
    · rw [List.map_cons, sweep, removed, Part.bind_some, Store.sweep_cons, ← same]
      exact swept
    · rw [Store.sweep_cons, ← same]
      exact plain

/-- Collecting in place comes to an end, with what `Store.collect` gives; a violation leaves nothing
but marks behind. -/
theorem collect_eq (sound : Sound s.forest) :
    match s.plain.collect with
    | .error e => ∃ s', s.collect = .some (.error e, s') ∧ s'.plain = s.plain
    | .ok (stats, t) => ∃ s', s.collect = .some (.ok stats, s') ∧ s'.plain = t := by
  obtain ⟨h, plain, marked⟩ := mark_eq (s := s) sound.linked
  have same : MarkStore.plain { s with heap := h } = s.plain :=
    congrArg (Store.mk s.forest · s.identity) plain
  unfold collect Store.collect
  cases left : s.plain.dead with
  | error e =>
    rw [left] at marked
    exact ⟨{ s with heap := h }, by rw [marked, Part.bind_some], same⟩
  | ok dead =>
    rw [left] at marked
    obtain ⟨rfl, marked⟩ := marked
    have live : ∀ e ∈ h.unmarked, h.plain.get? e.1 = some e.2 := by
      rintro ⟨w, v⟩ he
      exact (h.get?_plain w).trans (by rw [MarkHeap.mem_unmarked.mp he]; rfl)
    obtain ⟨t, swept, last⟩ := sweep_eq (s := { s with heap := h }) sound {} live
      (MarkHeap.nodup_of_sorted h.sorted_unmarked)
    rw [same] at swept last
    have counts := s.plain.sweep_marked {} (s.plain.heap.size - h.unmarked.length) h.unmarked
    refine ⟨{ t with heap := { t.heap with allocatedSinceCollect := 0 } }, ?_, ?_⟩
    · rw [marked, Part.bind_some]
      dsimp only
      rw [swept, Part.map_some]
      exact congrArg (fun r => Part.some (Except.ok r.1, _)) counts.symm
    · have last := last.trans (congrArg (·.2) counts).symm
      exact congrArg (fun s : Store => { s with heap := s.heap.resetCounter }) last

end Sweeping

/-- After any requests, with any wrappers and any table, a collection with marks in the heap comes
to an end.  It is the collection of the store without the marks.

It fails just if the node of a reached wrapper is a live one whose parent has no entry; then forest,
table, wrappers and counters are what they were.  Otherwise it marks as many wrappers as are
reached, and these are the ones left. -/
theorem collect_keeps_reached (rs : List Forest.Request) (h : MarkHeap) (t : IdentityTable) :
    let s : MarkStore := ⟨Forest.run rs, h, t⟩
    ∃ outcome s', s.collect = .some (outcome, s') ∧
      match outcome with
      | .error e =>
        s.plain.collect = .error e ∧ Store.Orphaned s.plain e ∧ s'.plain = s.plain
      | .ok stats =>
        s.plain.collect = .ok (stats, s'.plain) ∧ (∀ e, ¬ Store.Orphaned s.plain e) ∧
          (∃ reached : List WrapperId, reached.Nodup ∧
            (∀ w, w ∈ reached ↔ Store.Reached s.plain w) ∧ stats.marked = reached.length) ∧
          ∀ w v, s'.plain.heap.get? w = some v ↔
            s.plain.heap.get? w = some v ∧ Store.Reached s.plain w := by
  intro s
  have inPlace := collect_eq (s := s) (Forest.sound_run rs)
  have exact_ := s.plain.collect_exact
  cases result : s.plain.collect with
  | error e =>
    rw [result] at inPlace exact_
    obtain ⟨s', ran, same⟩ := inPlace
    exact ⟨.error e, s', ran, rfl, exact_, same⟩
  | ok r =>
    obtain ⟨stats, t⟩ := r
    rw [result] at inPlace exact_
    obtain ⟨s', ran, rfl⟩ := inPlace
    obtain ⟨none, marked, left⟩ := exact_
    have keys (w : WrapperId) : w ∈ s'.plain.heap.wrappers.keys ↔ Store.Reached s.plain w := by
      rw [Arena.mem_keys, Arena.contains_iff]
      constructor
      · rintro ⟨v, hv⟩
        exact ((left w v).mp hv).2
      · intro reached
        obtain ⟨v, hv⟩ := reached.live
        exact ⟨v, (left w v).mpr ⟨hv, reached⟩⟩
    exact ⟨.ok stats, s', ran, rfl, none,
      ⟨s'.plain.heap.wrappers.keys, s'.plain.heap.wrappers.nodup_keys, keys,
        marked.trans (Arena.length_keys _).symm⟩, left⟩

end MarkStore

end MarkdownForest
