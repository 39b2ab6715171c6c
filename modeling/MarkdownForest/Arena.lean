/-
# MarkdownForest.Arena -- stores whose keys are never valid twice

An arena is an array of slots.  A key names a slot and a generation of it: a key
is live while the slot holds a value of that generation.  Erasing a value raises
the generation of its slot, so old keys stay stale when the slot is used again.

* the slot freed last is used first; only then does the array grow;
* generations are 32-bit words and wrap;
* `Arena.entries` lists what is stored, by index.

The free slots are vacant and distinct, by the type.  Through `Arena.get?` an
arena is a finite map: `get?_alloc`, `get?_set` and `get?_erase` say what each
operation does to it, and `mem_entries` that the entries are its graph.
-/

namespace MarkdownForest

set_option autoImplicit false

/-- A slot and a generation of it, for keys of the sort `ι`. -/
structure Key (ι : Type) where
  index : Nat
  generation : UInt32
  deriving Repr

namespace Key

variable {ι : Type}

theorem ext {a b : Key ι} (hi : a.index = b.index) (hg : a.generation = b.generation) : a = b := by
  cases a; cases b; simp_all

instance : DecidableEq (Key ι) := fun a b =>
  decidable_of_iff (a.index = b.index ∧ a.generation = b.generation)
    ⟨fun h => ext h.1 h.2, fun h => h ▸ ⟨rfl, rfl⟩⟩

instance : Inhabited (Key ι) := ⟨⟨0, 0⟩⟩

/-- The key as it stands in messages. -/
def text (k : Key ι) : String :=
  "#" ++ toString k.index ++ "v" ++ toString k.generation.toNat

end Key

/-- A place in an arena.  `generation` belongs to the value held, or else to the next one. -/
structure Slot (α : Type) where
  generation : UInt32
  value : Option α
  deriving Repr

/-- Values of `α` under keys of the sort `ι`. -/
structure Arena (ι : Type) (α : Type := ι) where
  slots : Array (Slot α)
  /-- The slots to use again, the one freed last in front. -/
  free : List Nat
  free_nodup : free.Nodup
  vacant_of_free : ∀ i ∈ free, ∃ s, slots[i]? = some s ∧ s.value = none

namespace Arena

variable {ι α : Type}

/-- The arena that stores nothing. -/
def empty : Arena ι α where
  slots := #[]
  free := []
  free_nodup := List.nodup_nil
  vacant_of_free := nofun

instance : Inhabited (Arena ι α) := ⟨empty⟩

/-- The value of a live key. -/
def get? (a : Arena ι α) (k : Key ι) : Option α :=
  match a.slots[k.index]? with
  | some s => if s.generation = k.generation then s.value else none
  | none => none

def contains (a : Arena ι α) (k : Key ι) : Bool :=
  (a.get? k).isSome

/-- What is stored, by index. -/
def entries (a : Arena ι α) : List (Key ι × α) :=
  a.slots.toList.zipIdx.filterMap fun (s, i) => s.value.map (⟨i, s.generation⟩, ·)

def keys (a : Arena ι α) : List (Key ι) :=
  a.entries.map (·.1)

/-- The number of live keys. -/
def size (a : Arena ι α) : Nat :=
  a.entries.length

/-- The number of slots. -/
def capacity (a : Arena ι α) : Nat :=
  a.slots.size

theorem index_lt_of_get? {a : Arena ι α} {k : Key ι} {v : α} (h : a.get? k = some v) :
    k.index < a.slots.size := by
  rcases Nat.lt_or_ge k.index a.slots.size with hlt | hge
  · exact hlt
  · simp [get?, Array.getElem?_eq_none hge] at h

theorem index_not_mem_free {a : Arena ι α} {k : Key ι} {v : α} (h : a.get? k = some v) :
    k.index ∉ a.free := by
  intro hm
  obtain ⟨s, hs, hv⟩ := a.vacant_of_free k.index hm
  simp [get?, hs, hv] at h

/-- Stores a value under a new key. -/
def alloc (a : Arena ι α) (v : α) : Key ι × Arena ι α :=
  match h : a.free with
  | [] =>
    (⟨a.slots.size, 0⟩,
      { slots := a.slots.push ⟨0, some v⟩
        free := []
        free_nodup := List.nodup_nil
        vacant_of_free := nofun })
  | i :: free =>
    let generation := (a.slots[i]?.map (·.generation)).getD 0
    (⟨i, generation⟩,
      { slots := a.slots.setIfInBounds i ⟨generation, some v⟩
        free
        free_nodup := by
          have := a.free_nodup
          rw [h] at this
          exact (List.nodup_cons.mp this).2
        vacant_of_free := by
          intro j hj
          have nodup := a.free_nodup
          rw [h] at nodup
          have hne : i ≠ j := fun e => (List.nodup_cons.mp nodup).1 (e ▸ hj)
          obtain ⟨s, hs, hv⟩ := a.vacant_of_free j (h ▸ List.mem_cons_of_mem i hj)
          exact ⟨s, by rw [Array.getElem?_setIfInBounds_ne hne]; exact hs, hv⟩ })

/-- Changes the value of a live key; a stale key changes nothing. -/
def set (a : Arena ι α) (k : Key ι) (v : α) : Arena ι α :=
  match h : a.get? k with
  | none => a
  | some _ =>
    { slots := a.slots.setIfInBounds k.index ⟨k.generation, some v⟩
      free := a.free
      free_nodup := a.free_nodup
      vacant_of_free := by
        intro j hj
        have hne : k.index ≠ j := fun e => index_not_mem_free h (e ▸ hj)
        obtain ⟨s, hs, hv⟩ := a.vacant_of_free j hj
        exact ⟨s, by rw [Array.getElem?_setIfInBounds_ne hne]; exact hs, hv⟩ }

/-- Makes a live key stale; a stale key changes nothing. -/
def erase (a : Arena ι α) (k : Key ι) : Arena ι α :=
  match h : a.get? k with
  | none => a
  | some _ =>
    { slots := a.slots.setIfInBounds k.index ⟨k.generation + 1, none⟩
      free := k.index :: a.free
      free_nodup := List.nodup_cons.mpr ⟨index_not_mem_free h, a.free_nodup⟩
      vacant_of_free := by
        intro j hj
        by_cases e : k.index = j
        · subst e
          refine ⟨⟨k.generation + 1, none⟩, ?_, rfl⟩
          have hlt := index_lt_of_get? h
          rw [Array.getElem?_setIfInBounds_self_of_lt hlt]
        · rcases List.mem_cons.mp hj with he | hm
          · exact absurd he.symm e
          · obtain ⟨s, hs, hv⟩ := a.vacant_of_free j hm
            exact ⟨s, by rw [Array.getElem?_setIfInBounds_ne e]; exact hs, hv⟩ }

/-- Changes every stored value. -/
def map (f : α → α) (a : Arena ι α) : Arena ι α where
  slots := a.slots.map fun s => { s with value := s.value.map f }
  free := a.free
  free_nodup := a.free_nodup
  vacant_of_free := by
    intro j hj
    obtain ⟨s, hs, hv⟩ := a.vacant_of_free j hj
    exact ⟨⟨s.generation, s.value.map f⟩, by simp [Array.getElem?_map, hs], by simp [hv]⟩

/-! ## What each operation does to `get?` -/

theorem get?_eq_some_iff {a : Arena ι α} {k : Key ι} {v : α} :
    a.get? k = some v ↔ a.slots[k.index]? = some ⟨k.generation, some v⟩ := by
  unfold get?
  cases a.slots[k.index]? with
  | none => simp
  | some s => cases s; simp

theorem contains_iff {a : Arena ι α} {k : Key ι} : a.contains k ↔ ∃ v, a.get? k = some v :=
  Option.isSome_iff_exists

@[simp] theorem get?_empty (k : Key ι) : (empty : Arena ι α).get? k = none := by
  simp [get?, empty]

theorem get?_alloc (a : Arena ι α) (v : α) (k : Key ι) :
    (a.alloc v).2.get? k = if k = (a.alloc v).1 then some v else a.get? k := by
  obtain ⟨i, g⟩ := k
  unfold alloc
  split
  · by_cases hi : i = a.slots.size
    · subst hi
      by_cases hg : g = 0 <;> simp [get?, Key.mk.injEq, hg, eq_comm]
    · simp [get?, Array.getElem?_push, hi, Key.mk.injEq]
  · rename_i f free hf
    obtain ⟨s, hs, -⟩ := a.vacant_of_free f (by simp [hf])
    by_cases hi : f = i
    · subst hi
      obtain ⟨hlt, hs⟩ := Array.getElem?_eq_some_iff.mp hs
      by_cases hg : g = s.generation <;>
        simp [get?, hlt, hs, Key.mk.injEq, hg, eq_comm]
    · have hne : (⟨i, g⟩ : Key ι) ≠ ⟨f, ((a.slots[f]?.map (·.generation)).getD 0)⟩ := by
        simp [Key.mk.injEq, Ne.symm hi]
      simp [get?, Array.getElem?_setIfInBounds_ne hi, hne]

/-- A new key was not live before. -/
theorem get?_alloc_new (a : Arena ι α) (v : α) : a.get? (a.alloc v).1 = none := by
  unfold alloc
  split
  · simp [get?]
  · rename_i f free hf
    obtain ⟨s, hs, hv⟩ := a.vacant_of_free f (by simp [hf])
    simp [get?, hs, hv]

/-- What is stored after an allocation is the new value or was there before. -/
theorem get?_alloc_iff (a : Arena ι α) (v : α) {k : Key ι} {w : α} :
    (a.alloc v).2.get? k = some w ↔ (k = (a.alloc v).1 ∧ w = v) ∨ a.get? k = some w := by
  rw [get?_alloc]
  split
  · rename_i e
    rw [e, get?_alloc_new]
    simp [eq_comm]
  · rename_i e
    simp [e]

theorem get?_set {a : Arena ι α} {j : Key ι} (h : a.contains j) (v : α) (k : Key ι) :
    (a.set j v).get? k = if k = j then some v else a.get? k := by
  unfold set
  split
  · rename_i hn; simp [contains, hn] at h
  · rename_i w hw
    obtain ⟨hlt, hs⟩ := Array.getElem?_eq_some_iff.mp (get?_eq_some_iff.mp hw)
    obtain ⟨i, g⟩ := k
    by_cases hi : j.index = i
    · subst hi
      by_cases hg : j.generation = g
      · subst hg; simp [get?, hlt]
      · have hne : (⟨j.index, g⟩ : Key ι) ≠ j := fun e => hg (by rw [← e])
        simp [get?, hlt, hs, hg, hne]
    · have hne : (⟨i, g⟩ : Key ι) ≠ j := fun e => hi (by rw [← e])
      simp [get?, Array.getElem?_setIfInBounds_ne hi, hne]

theorem get?_erase (a : Arena ι α) (j k : Key ι) :
    (a.erase j).get? k = if k = j then none else a.get? k := by
  unfold erase
  split
  · rename_i hn
    by_cases e : k = j
    · rw [if_pos e, e, hn]
    · rw [if_neg e]
  · rename_i w hw
    obtain ⟨hlt, hs⟩ := Array.getElem?_eq_some_iff.mp (get?_eq_some_iff.mp hw)
    obtain ⟨i, g⟩ := k
    by_cases hi : j.index = i
    · subst hi
      by_cases hg : j.generation = g
      · have e : (⟨j.index, g⟩ : Key ι) = j := Key.ext rfl hg.symm
        simp [get?, hlt, e]
      · have hne : (⟨j.index, g⟩ : Key ι) ≠ j := fun e => hg (by rw [← e])
        simp [get?, hlt, hs, hg, hne]
    · have hne : (⟨i, g⟩ : Key ι) ≠ j := fun e => hi (by rw [← e])
      simp [get?, Array.getElem?_setIfInBounds_ne hi, hne]

/-! ## The entries -/

theorem mem_entries {a : Arena ι α} {k : Key ι} {v : α} :
    (k, v) ∈ a.entries ↔ a.get? k = some v := by
  simp only [entries, List.mem_filterMap, Prod.exists, List.mk_mem_zipIdx_iff_getElem?,
    Option.map_eq_some_iff, Prod.mk.injEq, Array.getElem?_toList]
  constructor
  · rintro ⟨s, i, hs, w, hw, rfl, rfl⟩
    rw [get?_eq_some_iff, hs, ← hw]
  · intro h
    exact ⟨⟨k.generation, some v⟩, k.index, get?_eq_some_iff.mp h, v, rfl, rfl, rfl⟩

theorem mem_keys {a : Arena ι α} {k : Key ι} : k ∈ a.keys ↔ a.contains k := by
  simp [keys, contains_iff, mem_entries]

/-- The entries stand in the order of their slots. -/
theorem entries_sorted (a : Arena ι α) :
    a.entries.Pairwise fun d e => d.1.index < e.1.index := by
  have h : a.slots.toList.zipIdx.Pairwise fun d e => d.2 < e.2 := by
    rw [← List.pairwise_map (f := Prod.snd), List.zipIdx_map_snd]
    exact List.pairwise_lt_range'
  refine List.Pairwise.filterMap _ ?_ h
  rintro ⟨s, i⟩ ⟨t, j⟩ hij d hd e he
  simp only [Option.map_eq_some_iff] at hd he
  obtain ⟨_, _, rfl⟩ := hd
  obtain ⟨_, _, rfl⟩ := he
  exact hij

theorem nodup_keys (a : Arena ι α) : a.keys.Nodup := by
  rw [keys, List.nodup_iff_pairwise_ne, List.pairwise_map]
  exact a.entries_sorted.imp fun h e => Nat.ne_of_lt h (congrArg Key.index e)

@[simp] theorem length_keys (a : Arena ι α) : a.keys.length = a.size := by
  simp [keys, size]

theorem keys_alloc_perm (a : Arena ι α) (v : α) :
    (a.alloc v).2.keys.Perm ((a.alloc v).1 :: a.keys) := by
  have fresh : (a.alloc v).1 ∉ a.keys := by
    simp [mem_keys, contains, get?_alloc_new]
  refine (List.perm_ext_iff_of_nodup (nodup_keys _) (List.nodup_cons.mpr ⟨fresh, a.nodup_keys⟩)).mpr ?_
  intro k
  by_cases e : k = (a.alloc v).1 <;> simp [mem_keys, contains, get?_alloc, e]

theorem size_alloc (a : Arena ι α) (v : α) : (a.alloc v).2.size = a.size + 1 := by
  simpa using (a.keys_alloc_perm v).length_eq

theorem keys_set_perm (a : Arena ι α) (k : Key ι) (v : α) : (a.set k v).keys.Perm a.keys := by
  refine (List.perm_ext_iff_of_nodup (nodup_keys _) a.nodup_keys).mpr fun j => ?_
  by_cases h : a.contains k
  · by_cases e : j = k
    · subst e
      simp only [mem_keys, h, iff_true]
      simp [contains, get?_set h]
    · simp [mem_keys, contains, get?_set h, e]
  · have : a.set k v = a := by
      unfold set
      split
      · rfl
      · rename_i w hw; simp [contains, hw] at h
    rw [this]

@[simp] theorem size_set (a : Arena ι α) (k : Key ι) (v : α) : (a.set k v).size = a.size := by
  simpa using (a.keys_set_perm k v).length_eq

theorem keys_erase_perm {a : Arena ι α} {k : Key ι} (h : a.contains k) :
    a.keys.Perm (k :: (a.erase k).keys) := by
  have gone : k ∉ (a.erase k).keys := by
    simp [mem_keys, contains, get?_erase]
  refine (List.perm_ext_iff_of_nodup a.nodup_keys
    (List.nodup_cons.mpr ⟨gone, nodup_keys _⟩)).mpr fun j => ?_
  by_cases e : j = k
  · simp [mem_keys, h, e]
  · simp [mem_keys, contains, get?_erase, e]

theorem size_erase {a : Arena ι α} {k : Key ι} (h : a.contains k) :
    a.size = (a.erase k).size + 1 := by
  simpa using (keys_erase_perm h).length_eq

theorem size_le_capacity (a : Arena ι α) : a.size ≤ a.capacity := by
  have := List.length_filterMap_le (fun x : Slot α × Nat =>
    x.1.value.map ((⟨x.2, x.1.generation⟩ : Key ι), ·)) a.slots.toList.zipIdx
  simpa [size, entries, capacity] using this

end Arena

end MarkdownForest
