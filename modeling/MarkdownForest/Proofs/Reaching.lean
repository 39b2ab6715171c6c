/-
# MarkdownForest.Proofs.Reaching -- what marking meets

A collection keeps what is reached from the rooted wrappers (`Store.Reached`): a
wrapper reaches the one its node's parent has in the table, and those that its
node's children have there.  Nothing has to be in order for that.  Several
wrappers may be on one node, the table may name wrappers that are not the node's
or not there at all, and nodes of wrappers may be gone.

Marking goes over a stack on which the same wrapper may stand more than once,
and finds what is reached in any case (`Tracing`): what it has met or is to visit
is reached, and what is reached from the wrappers met is met or to be visited.

* `Tracing.unreached`: it is stopped only by a wrapper on whose account it must
  stop (`Orphaned`), and then never gets by it (`Tracing.not_orphaned`);
* `Tracing.mem_iff`: else what is left is what is not reached.
-/
import MarkdownForest.Proofs.Path
import MarkdownForest.Wrapper.Collector

namespace MarkdownForest.Store

set_option autoImplicit false

/-! ## What is reached -/

/-- The wrappers reached from the rooted ones: the least live wrappers that contain the rooted ones
and, with a wrapper, the one that the table has for its node's parent and those that it has for its
node's children. -/
inductive Reached (s : Store) : WrapperId → Prop where
  | rooted {w : WrapperId} {v : Wrapper} (live : s.heap.get? w = some v) (rooted : v.isRooted) :
      Reached s w
  | parent {w u : WrapperId} {v : Wrapper} {p : NodeId} (source : Reached s w)
      (live : s.heap.get? w = some v) (up : s.forest.parent? v.node = some p)
      (entry : s.identity.lookup p = some u) (there : s.heap.contains u) : Reached s u
  | child {w u : WrapperId} {v : Wrapper} {x : NodeId} (source : Reached s w)
      (live : s.heap.get? w = some v) (down : x ∈ s.forest.children v.node)
      (entry : s.identity.lookup x = some u) (there : s.heap.contains u) : Reached s u

/-- What is reached is there. -/
theorem Reached.live {s : Store} {w : WrapperId} (h : Reached s w) :
    ∃ v, s.heap.get? w = some v := by
  cases h with
  | rooted live => exact ⟨_, live⟩
  | parent _ _ _ _ there => exact Arena.contains_iff.mp there
  | child _ _ _ _ there => exact Arena.contains_iff.mp there

/-- The node of a reached wrapper is the one of the violation, and its parent has no entry. -/
def Orphaned (s : Store) (e : Violation) : Prop :=
  ∃ w v, Reached s w ∧ s.heap.get? w = some v ∧ v.node = e.node ∧
    s.forest.parent? e.node = some e.parent ∧ s.identity.lookup e.parent = none

section Propagate

variable {s : Store} {x : NodeId} {w : WrapperId} {v : Wrapper} {e : Violation}
  {reached : List WrapperId}

theorem parent?_stale (hx : ¬ s.forest.contains x) : s.forest.parent? x = none := by
  rw [Forest.parent?, Forest.not_contains_iff.mp hx]
  rfl

theorem children_stale (hx : ¬ s.forest.contains x) : s.forest.children x = [] := by
  rw [Forest.children, Forest.not_contains_iff.mp hx, Forest.onward, Option.bind_none,
    Forest.follow]
  simp

/-- What the wrapper of a node reaches in one step. -/
theorem mem_propagate (h : s.propagate x = .ok reached) (u : WrapperId) : u ∈ reached ↔
    (∃ p, s.forest.parent? x = some p ∧ s.identity.lookup p = some u) ∨
      ∃ y ∈ s.forest.children x, s.identity.lookup y = some u := by
  unfold propagate at h
  split at h
  · cases up : s.forest.parent? x with
    | none =>
      rw [up] at h
      cases h
      simp
    | some p =>
      rw [up] at h
      dsimp only at h
      split at h
      · rename_i w hw
        cases h
        simp [hw, eq_comm]
      · cases h
  · rename_i hx
    cases h
    simp [parent?_stale hx, children_stale hx]

/-- A step fails only for a parent without an entry. -/
theorem propagate_error : s.propagate x = .error e ↔
    x = e.node ∧ s.forest.parent? e.node = some e.parent ∧ s.identity.lookup e.parent = none := by
  constructor
  · intro h
    unfold propagate at h
    split at h
    · split at h
      · cases h
      · rename_i p up
        split at h
        · cases h
        · rename_i none
          cases h
          exact ⟨rfl, up, none⟩
    · cases h
  · rintro ⟨rfl, up, none⟩
    have live : s.forest.contains e.node := by
      by_contra stale
      rw [parent?_stale stale] at up
      cases up
    rw [propagate, if_pos live, up]
    dsimp only
    rw [none]

end Propagate

/-! ## Lists of wrappers -/

section Entries

variable {w : WrapperId} {v : Wrapper} {l rest : List (WrapperId × Wrapper)}

theorem not_mem_of_extract?_none (h : extract? w l = none) : (w, v) ∉ l := by
  induction l with
  | nil => simp
  | cons e l ih =>
    unfold extract? at h
    split at h
    · simp at h
    · rename_i ne
      have := ih (by simpa using h)
      rintro (_ | _)
      · exact ne rfl
      · contradiction

theorem extract?_some (h : extract? w l = some (v, rest)) :
    l.Perm ((w, v) :: rest) ∧ rest.Sublist l := by
  induction l generalizing rest with
  | nil => simp [extract?] at h
  | cons e l ih =>
    unfold extract? at h
    split at h
    · rename_i he
      cases h
      exact ⟨by rw [← he], List.sublist_cons_self e _⟩
    · simp only [Option.map_eq_some_iff, Prod.exists, Prod.mk.injEq] at h
      obtain ⟨u, rest', h, rfl, rfl⟩ := h
      obtain ⟨perm, sub⟩ := ih h
      exact ⟨(perm.cons e).trans (.swap ..), sub.cons_cons e⟩

theorem mem_of_extract?_some (h : extract? w l = some (v, rest)) (e : WrapperId × Wrapper) :
    e ∈ l ↔ e = (w, v) ∨ e ∈ rest := by
  rw [(extract?_some h).1.mem_iff, List.mem_cons]

/-- What was taken out is not left. -/
theorem not_mem_rest (nodup : (l.map (·.1)).Nodup) (h : extract? w l = some (v, rest)) :
    (w, v) ∉ rest := by
  have once := ((extract?_some h).1.map (·.1)).nodup_iff.mp nodup
  intro again
  exact (List.nodup_cons.mp once).1 (List.mem_map.mpr ⟨(w, v), again, rfl⟩)

end Entries

/-! ## Tracing -/

/-- Where marking stands, with the wrappers not met so far. -/
structure Tracing (s : Store) (stack : List WrapperId) (left : List (WrapperId × Wrapper)) :
    Prop where
  sub : left.Sublist s.heap.entries
  /-- What is met or to be visited is reached. -/
  sound : ∀ {w v}, s.heap.get? w = some v → w ∈ stack ∨ (w, v) ∉ left → Reached s w
  rooted : ∀ {w v}, s.heap.get? w = some v → v.isRooted → w ∈ stack ∨ (w, v) ∉ left
  /-- What a wrapper that is met reaches is met or to be visited. -/
  closed : ∀ {w v}, s.heap.get? w = some v → (w, v) ∉ left →
    ∃ reached, s.propagate v.node = .ok reached ∧
      ∀ u ∈ reached, ∀ {v'}, s.heap.get? u = some v' → u ∈ stack ∨ (u, v') ∉ left

section Tracing

variable {s : Store} {w : WrapperId} {v : Wrapper} {stack : List WrapperId}
  {left rest dead : List (WrapperId × Wrapper)}

theorem mem_rooted : w ∈ s.rooted ↔ ∃ v, s.heap.get? w = some v ∧ v.isRooted := by
  simp only [Store.rooted, List.mem_reverse, List.mem_map, List.mem_filter, Prod.exists,
    exists_and_right, exists_eq_right, Heap.mem_entries]

theorem tracing_start (s : Store) : Tracing s s.rooted s.heap.entries where
  sub := List.Sublist.refl _
  sound {w v} hw met := by
    rcases met with met | met
    · obtain ⟨u, hu, rooted⟩ := mem_rooted.mp met
      exact .rooted hu rooted
    · exact absurd (Heap.mem_entries.mpr hw) met
  rooted hw rooted := .inl (mem_rooted.mpr ⟨_, hw, rooted⟩)
  closed hw met := absurd (Heap.mem_entries.mpr hw) met

/-- A wrapper on the stack that is gone, or has been met before. -/
theorem Tracing.skip (m : Tracing s (w :: stack) left) (met : extract? w left = none) :
    Tracing s stack left := by
  have still : ∀ {k u}, k ∈ w :: stack ∨ (k, u) ∉ left → k ∈ stack ∨ (k, u) ∉ left := by
    rintro k u (on | off)
    · rcases List.mem_cons.mp on with rfl | on
      · exact .inr (not_mem_of_extract?_none met)
      · exact .inl on
    · exact .inr off
  refine ⟨m.sub, ?_, fun hk rooted => still (m.rooted hk rooted), ?_⟩
  · intro k u hk on
    exact m.sound hk (on.imp_left (List.mem_cons_of_mem w))
  · intro k u hk off
    obtain ⟨reached, ok, next⟩ := m.closed hk off
    exact ⟨reached, ok, fun k' hk' _ live => still (next k' hk' live)⟩

/-- A wrapper that is met for the first time is one of the heap. -/
theorem Tracing.found (m : Tracing s stack left) (found : extract? w left = some (v, rest)) :
    s.heap.get? w = some v :=
  Heap.mem_entries.mp (m.sub.mem ((mem_of_extract?_some found _).mpr (.inl rfl)))

/-- A wrapper on the stack that is met for the first time. -/
theorem Tracing.visit {reached : List WrapperId} (m : Tracing s (w :: stack) left)
    (found : extract? w left = some (v, rest)) (ok : s.propagate v.node = .ok reached) :
    Tracing s (reached.reverse ++ stack) rest := by
  have mem := mem_of_extract?_some found
  have hw := m.found found
  have apart : (w, v) ∉ rest :=
    not_mem_rest ((s.heap.wrappers.nodup_keys).sublist (m.sub.map _)) found
  have here : Reached s w := m.sound hw (.inl List.mem_cons_self)
  -- a wrapper that is not left is this one, or was met before
  have met : ∀ {k u}, s.heap.get? k = some u → (k, u) ∉ rest → k = w ∨ (k, u) ∉ left := by
    intro k u hk hr
    by_cases e : k = w
    · exact .inl e
    · exact .inr fun hl => ((mem _).mp hl).elim (fun e' => e (congrArg Prod.fst e')) hr
  have later : ∀ {k u}, s.heap.get? k = some u → k ∈ w :: stack ∨ (k, u) ∉ left →
      k ∈ reached.reverse ++ stack ∨ (k, u) ∉ rest := by
    rintro k u hk (on | off)
    · rcases List.mem_cons.mp on with rfl | on
      · obtain rfl := Option.some.inj (hw.symm.trans hk)
        exact .inr apart
      · exact .inl (List.mem_append_right _ on)
    · exact .inr fun hr => off ((mem _).mpr (.inr hr))
  refine ⟨(extract?_some found).2.trans m.sub, ?_, fun hk rooted => later hk (m.rooted hk rooted),
    ?_⟩
  · rintro k u hk (on | off)
    · rcases List.mem_append.mp on with on | on
      · have there : s.heap.contains k := Arena.contains_iff.mpr ⟨u, hk⟩
        rcases (mem_propagate ok k).mp (List.mem_reverse.mp on) with ⟨p, up, hp⟩ | ⟨y, down, hy⟩
        · exact .parent here hw up hp there
        · exact .child here hw down hy there
      · exact m.sound hk (.inl (List.mem_cons_of_mem w on))
    · rcases met hk off with rfl | off
      · exact here
      · exact m.sound hk (.inr off)
  · intro k u hk off
    rcases met hk off with rfl | off
    · obtain rfl := Option.some.inj (hw.symm.trans hk)
      exact ⟨reached, ok, fun k' hk' _ _ =>
        .inl (List.mem_append_left _ (List.mem_reverse.mpr hk'))⟩
    · obtain ⟨reached', ok', next⟩ := m.closed hk off
      exact ⟨reached', ok', fun k' hk' _ live => later live (next k' hk' live)⟩

/-- Marking ends with an empty stack, or at a wrapper on whose account it must. -/
theorem Tracing.unreached (m : Tracing s stack left) :
    match s.unreached stack left with
    | .ok dead => Tracing s [] dead
    | .error e => Orphaned s e := by
  fun_induction Store.unreached s stack left with
  | case1 left => exact m
  | case2 left w stack met ih => exact ih (m.skip met)
  | case3 left w stack v rest found e failed =>
    obtain ⟨node, up, none⟩ := propagate_error.mp failed
    exact ⟨w, v, m.sound (m.found found) (.inl List.mem_cons_self), m.found found, node, up, none⟩
  | case4 left w stack v rest found reached ok ih => exact ih (m.visit found ok)

/-- In the end what is reached has been met. -/
theorem Tracing.met (m : Tracing s [] dead) (h : Reached s w) :
    ∀ v, s.heap.get? w = some v → (w, v) ∉ dead := by
  have next : ∀ {w v u}, s.heap.get? w = some v → (w, v) ∉ dead →
      ((∃ p, s.forest.parent? v.node = some p ∧ s.identity.lookup p = some u) ∨
        ∃ y ∈ s.forest.children v.node, s.identity.lookup y = some u) →
      ∀ v', s.heap.get? u = some v' → (u, v') ∉ dead := by
    intro w v u hw met near v' hu
    obtain ⟨reached, ok, closed⟩ := m.closed hw met
    exact (closed u ((mem_propagate ok u).mpr near) hu).resolve_left List.not_mem_nil
  induction h with
  | rooted live rooted =>
    intro v hw
    obtain rfl := Option.some.inj (live.symm.trans hw)
    exact (m.rooted live rooted).resolve_left List.not_mem_nil
  | parent _ live up entry _ ih => exact next live (ih _ live) (.inl ⟨_, up, entry⟩)
  | child _ live down entry _ ih => exact next live (ih _ live) (.inr ⟨_, down, entry⟩)

/-- In the end the wrappers left are those that are not reached. -/
theorem Tracing.mem_iff (m : Tracing s [] dead) (hw : s.heap.get? w = some v) :
    (w, v) ∈ dead ↔ ¬ Reached s w := by
  constructor
  · intro on reached
    exact m.met reached v hw on
  · intro off
    by_contra out
    exact off (m.sound hw (.inr out))

/-- Marking only comes to its end where no reached wrapper must stop it. -/
theorem Tracing.not_orphaned (m : Tracing s [] dead) (e : Violation) : ¬ Orphaned s e := by
  rintro ⟨w, v, reached, hw, orphan⟩
  obtain ⟨next, ok, -⟩ := m.closed hw (m.met reached v hw)
  cases ok.symm.trans (propagate_error.mpr orphan)

end Tracing

end MarkdownForest.Store
