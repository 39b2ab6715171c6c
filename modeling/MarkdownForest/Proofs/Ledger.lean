/-
# MarkdownForest.Proofs.Ledger -- an arena is a map whose keys are never used again

A ledger is what a host can write down about an arena: the keys it was given, the
keys it took back, and the value it stored last under each (`Ledger.record`).
`Ledger.Allows` says which answers such a record leaves open: a new key is none of
those given before, a key is found exactly while it was given and not taken back,
with the value stored last, and lists have the live keys once each by index.

* `Ledger.Tracks`: the slots of an arena agree with a ledger; a key taken back is
  younger than its slot (`past`), so no slot gives it out again before generations
  wrap;
* `Tracks.perform`: an action keeps that and answers as the ledger allows;
* `Pool` is an arena as it is kept in words, with a stack of free slots and a
  count of the values; it may run out of slots that words can name, or fail on
  a slot that is not there.

`run_refines` puts the three together: pool, arena and ledger never disagree.
-/
import Mathlib.Logic.Function.Basic
import MarkdownForest.Proofs.Slots

namespace MarkdownForest

set_option autoImplicit false

namespace Arena

variable {ι α : Type}

/-- Changes every stored value by its key. -/
def mapKeys (f : Key ι → α → α) (a : Arena ι α) : Arena ι α where
  slots := a.slots.mapIdx fun i s => { s with value := s.value.map (f ⟨i, s.generation⟩) }
  free := a.free
  free_nodup := a.free_nodup
  vacant_of_free := by
    intro j hj
    obtain ⟨s, hs, hv⟩ := a.vacant_of_free j hj
    exact ⟨_, by rw [Array.getElem?_mapIdx, hs]; rfl, by simp [hv]⟩

theorem get?_mapKeys (f : Key ι → α → α) (a : Arena ι α) (k : Key ι) :
    (a.mapKeys f).get? k = (a.get? k).map (f k) := by
  obtain ⟨i, g⟩ := k
  simp only [get?, mapKeys, Array.getElem?_mapIdx]
  cases a.slots[i]? with
  | none => rfl
  | some s =>
    by_cases same : s.generation = g
    · simp [same]
    · simp [same]

@[simp] theorem generation_mapKeys (f : Key ι → α → α) (a : Arena ι α) (i : Nat) :
    (a.mapKeys f).generation i = a.generation i := by
  simp only [generation, mapKeys, Array.getElem?_mapIdx]
  cases a.slots[i]? <;> rfl

theorem set_of_stale {a : Arena ι α} {k : Key ι} (h : a.get? k = none) (v : α) : a.set k v = a := by
  unfold set
  split
  · rfl
  · rename_i w hw
    rw [h] at hw
    cases hw

theorem erase_of_stale {a : Arena ι α} {k : Key ι} (h : a.get? k = none) : a.erase k = a := by
  unfold erase
  split
  · rfl
  · rename_i w hw
    rw [h] at hw
    cases hw

/-- With no slot free the array grows. -/
theorem alloc_grows {a : Arena ι α} (h : a.free = []) (v : α) :
    (a.alloc v).1 = ⟨a.slots.size, 0⟩ ∧ (a.alloc v).2.slots = a.slots.push ⟨0, some v⟩ ∧
      (a.alloc v).2.free = [] := by
  unfold alloc
  split
  · exact ⟨rfl, rfl, rfl⟩
  · rename_i other
    rw [h] at other
    cases other

/-- The free slot in front is used again. -/
theorem alloc_reuses {a : Arena ι α} {i : Nat} {free : List Nat} (h : a.free = i :: free) (v : α) :
    (a.alloc v).1 = ⟨i, a.generation i⟩ ∧
      (a.alloc v).2.slots = a.slots.setIfInBounds i ⟨a.generation i, some v⟩ ∧
      (a.alloc v).2.free = free := by
  unfold alloc
  split
  · rename_i other
    rw [h] at other
    cases other
  · rename_i j rest other
    rw [h] at other
    cases other
    exact ⟨rfl, rfl, rfl⟩

theorem set_slots {a : Arena ι α} {k : Key ι} (h : a.contains k) (v : α) :
    (a.set k v).slots = a.slots.setIfInBounds k.index ⟨k.generation, some v⟩ ∧
      (a.set k v).free = a.free := by
  unfold set
  split
  · rename_i none
    simp [contains, none] at h
  · exact ⟨rfl, rfl⟩

theorem erase_slots {a : Arena ι α} {k : Key ι} (h : a.contains k) :
    (a.erase k).slots = a.slots.setIfInBounds k.index ⟨k.generation + 1, none⟩ ∧
      (a.erase k).free = k.index :: a.free := by
  unfold erase
  split
  · rename_i none
    simp [contains, none] at h
  · exact ⟨rfl, rfl⟩

@[simp] theorem size_mapKeys (f : Key ι → α → α) (a : Arena ι α) :
    (a.mapKeys f).size = a.size := by
  have perm : (a.mapKeys f).keys.Perm a.keys :=
    (List.perm_ext_iff_of_nodup (nodup_keys _) a.nodup_keys).mpr fun k => by
      rw [mem_keys, mem_keys, contains, get?_mapKeys, Option.isSome_map, contains]
  simpa using perm.length_eq

/-- Removing a value makes its slot older, and no other. -/
theorem generation_erase {a : Arena ι α} {k : Key ι} (h : a.contains k) (i : Nat) :
    (a.erase k).generation i = if i = k.index then a.generation i + 1 else a.generation i := by
  obtain ⟨v, hv⟩ := contains_iff.mp h
  obtain ⟨hlt, hs⟩ := Array.getElem?_eq_some_iff.mp (get?_eq_some_iff.mp hv)
  unfold erase
  split
  · rename_i none
    rw [none] at hv
    cases hv
  · by_cases e : i = k.index
    · subst e
      simp [generation, hlt, hs]
    · simp [generation, Array.getElem?_setIfInBounds_ne (Ne.symm e), e]

/-! ## Actions -/

/-- What a host can do with an arena. -/
inductive Action (ι α : Type) where
  | alloc (value : α)
  | remove (key : Key ι)
  | get (key : Key ι)
  | set (key : Key ι) (value : α)
  | contains (key : Key ι)
  | size
  | entries
  | keys
  | change (f : Key ι → α → α)

inductive Answer (ι α : Type) where
  | key (key : Key ι)
  | value (found : Option α)
  | flag (holds : Bool)
  | count (n : Nat)
  | entries (all : List (Key ι × α))
  | keys (all : List (Key ι))
  deriving Repr

/-- The answer to an action, and the arena after it.  Where an action finds a value, that is the
one before the action. -/
def perform (a : Arena ι α) : Action ι α → Answer ι α × Arena ι α
  | .alloc v => (.key (a.alloc v).1, (a.alloc v).2)
  | .remove k => (.value (a.get? k), a.erase k)
  | .get k => (.value (a.get? k), a)
  | .set k v => (.value (a.get? k), a.set k v)
  | .contains k => (.flag (a.contains k), a)
  | .size => (.count a.size, a)
  | .entries => (.entries a.entries, a)
  | .keys => (.keys a.keys, a)
  | .change f => (.entries a.entries, a.mapKeys f)

/-- The answers to actions one after another. -/
def answers (a : Arena ι α) : List (Action ι α) → List (Answer ι α)
  | [] => []
  | c :: cs => (a.perform c).1 :: (a.perform c).2.answers cs

/-- The arena after actions. -/
def afterAll (a : Arena ι α) (cs : List (Action ι α)) : Arena ι α :=
  cs.foldl (fun a c => (a.perform c).2) a

/-- Whether an action removes the value of a slot. -/
def vacates (a : Arena ι α) (i : Nat) : Action ι α → Bool
  | .remove k => a.contains k && k.index == i
  | _ => false

/-- How often the value of a slot is removed. -/
def removals (a : Arena ι α) (i : Nat) : List (Action ι α) → Nat
  | [] => 0
  | c :: cs => (a.vacates i c).toNat + (a.perform c).2.removals i cs

end Arena

open Arena (Action Answer)

/-! ## Ledgers -/

/-- What a host knows of an arena from its answers. -/
structure Ledger (ι α : Type) where
  /-- The keys given out. -/
  issued : List (Key ι) := []
  /-- The keys taken back. -/
  removed : List (Key ι) := []
  /-- What was stored last under a key. -/
  last : Key ι → Option α := fun _ => none

namespace Ledger

variable {ι α : Type}

/-- A key given out and not taken back. -/
def Live (l : Ledger ι α) (k : Key ι) : Prop :=
  k ∈ l.issued ∧ k ∉ l.removed

/-- The answers that a ledger leaves open. -/
def Allows (l : Ledger ι α) : Action ι α → Answer ι α → Prop
  | .alloc _, .key k => k ∉ l.issued
  | .remove k, .value found | .get k, .value found | .set k _, .value found =>
    (found.isSome ↔ l.Live k) ∧ ∀ v, found = some v → l.last k = some v
  | .contains k, .flag b => b ↔ l.Live k
  | .size, .count n => n = (l.issued.filter (· ∉ l.removed)).length
  | .entries, .entries es | .change _, .entries es =>
    (es.Pairwise fun d e => d.1.index < e.1.index) ∧
      ∀ k v, (k, v) ∈ es ↔ l.Live k ∧ l.last k = some v
  | .keys, .keys ks => (ks.Pairwise fun j k => j.index < k.index) ∧ ∀ k, k ∈ ks ↔ l.Live k
  | _, _ => False

/-- The ledger once an answer is written down. -/
def record (l : Ledger ι α) : Action ι α → Answer ι α → Ledger ι α
  | .alloc v, .key k =>
    { l with issued := k :: l.issued, last := Function.update l.last k (some v) }
  | .remove k, .value (some _) => { l with removed := k :: l.removed }
  | .set k v, .value (some _) => { l with last := Function.update l.last k (some v) }
  | .change f, _ => { l with last := fun k => (l.last k).map (f k) }
  | _, _ => l

/-- Every answer is one that the ledger kept so far leaves open. -/
def Accepts (l : Ledger ι α) : List (Action ι α) → List (Answer ι α) → Prop
  | [], [] => True
  | c :: cs, r :: rs => l.Allows c r ∧ (l.record c r).Accepts cs rs
  | _, _ => False

/-- How often keys to a slot were taken back. -/
def age (l : Ledger ι α) (i : Nat) : Nat :=
  l.removed.countP (·.index == i)

/-- An arena is as a ledger has it. -/
structure Tracks (l : Ledger ι α) (a : Arena ι α) : Prop where
  found : ∀ k v, a.get? k = some v ↔ l.Live k ∧ l.last k = some v
  live : ∀ k, l.Live k → a.contains k
  issued : ∀ k ∈ l.removed, k ∈ l.issued
  nodup : l.issued.Nodup
  generation : ∀ i, a.generation i = UInt32.ofNat (l.age i)
  /-- A key taken back is of a generation that its slot has left. -/
  past : ∀ k ∈ l.removed, k.generation.toNat < l.age k.index

section Tracks

variable {l : Ledger ι α} {a : Arena ι α} {k : Key ι} {v : α}

theorem tracks_empty : Tracks ({} : Ledger ι α) .empty where
  found k v := by simp [Live]
  live k h := by simp [Live] at h
  issued k h := by simp at h
  nodup := List.nodup_nil
  generation i := by simp [age]
  past k h := by simp at h

theorem Tracks.live_iff (h : Tracks l a) (k : Key ι) : l.Live k ↔ a.contains k := by
  constructor
  · exact h.live k
  · intro hk
    obtain ⟨v, hv⟩ := Arena.contains_iff.mp hk
    exact ((h.found k v).mp hv).1

/-- What an action finds under a key is what the ledger has. -/
theorem Tracks.value (h : Tracks l a) (k : Key ι) :
    ((a.get? k).isSome ↔ l.Live k) ∧ ∀ v, a.get? k = some v → l.last k = some v := by
  constructor
  · exact (h.live_iff k).symm
  · intro v hv
    exact ((h.found k v).mp hv).2

/-- The live keys are counted. -/
theorem Tracks.size (h : Tracks l a) :
    a.size = (l.issued.filter (· ∉ l.removed)).length := by
  rw [← Arena.length_keys]
  refine List.Perm.length_eq ?_
  refine (List.perm_ext_iff_of_nodup a.nodup_keys (h.nodup.filter _)).mpr fun k => ?_
  rw [Arena.mem_keys, ← h.live_iff]
  simp [Live]

theorem Tracks.keys (h : Tracks l a) :
    (a.keys.Pairwise fun j k => j.index < k.index) ∧ ∀ k, k ∈ a.keys ↔ l.Live k := by
  constructor
  · rw [Arena.keys, List.pairwise_map]
    exact a.entries_sorted
  · intro k
    rw [Arena.mem_keys, h.live_iff]

theorem Tracks.entries (h : Tracks l a) :
    (a.entries.Pairwise fun d e => d.1.index < e.1.index) ∧
      ∀ k v, (k, v) ∈ a.entries ↔ l.Live k ∧ l.last k = some v := by
  constructor
  · exact a.entries_sorted
  · intro k v
    rw [Arena.mem_entries, h.found]

/-- A live key has the age of its slot as its generation. -/
theorem Tracks.generation_live (h : Tracks l a) (hk : a.contains k)
    (few : l.age k.index < UInt32.size) : k.generation.toNat = l.age k.index := by
  obtain ⟨-, gen⟩ := Arena.contains_iff_slot.mp hk
  rw [← gen, h.generation]
  exact UInt32.toNat_ofNat_of_lt' few

/-- A new key was never given before: a key taken back is older. -/
theorem Tracks.alloc_new (h : Tracks l a) (v : α)
    (few : l.age (a.alloc v).1.index < UInt32.size) : (a.alloc v).1 ∉ l.issued := by
  intro given
  by_cases back : (a.alloc v).1 ∈ l.removed
  · have older := h.past _ back
    have gen : (a.alloc v).1.generation = a.generation (a.alloc v).1.index := by
      rw [← (Arena.filled_alloc a v).generation]
      refine (Arena.contains_iff_slot.mp ?_).2.symm
      rw [Arena.contains, Arena.get?_alloc, if_pos rfl]
      rfl
    rw [gen, h.generation, UInt32.toNat_ofNat_of_lt' few] at older
    exact Nat.lt_irrefl _ older
  · have live := h.live _ ⟨given, back⟩
    rw [Arena.contains, Arena.get?_alloc_new] at live
    exact Bool.false_ne_true live

theorem Tracks.alloc (h : Tracks l a) (new : (a.alloc v).1 ∉ l.issued) :
    Tracks (l.record (.alloc v) (.key (a.alloc v).1)) (a.alloc v).2 where
  found k w := by
    have back : (a.alloc v).1 ∉ l.removed := fun hk => new (h.issued _ hk)
    rw [Arena.get?_alloc]
    by_cases e : k = (a.alloc v).1
    · subst e
      simp [record, Live, back]
    · simp [record, Live, e, h.found]
  live k hk := by
    rw [Arena.contains, Arena.get?_alloc]
    by_cases e : k = (a.alloc v).1
    · simp [e]
    · rw [if_neg e]
      exact h.live k ⟨(List.mem_cons.mp hk.1).resolve_left e, hk.2⟩
  issued k hk := List.mem_cons_of_mem _ (h.issued k hk)
  nodup := List.nodup_cons.mpr ⟨new, h.nodup⟩
  generation i := ((Arena.filled_alloc a v).generation i).trans (h.generation i)
  past := h.past

theorem Tracks.set (h : Tracks l a) (live : a.contains k) (v : α) :
    Tracks { l with last := Function.update l.last k (some v) } (a.set k v) where
  found j w := by
    rw [Arena.get?_set live]
    by_cases e : j = k
    · subst e
      simpa [Live, eq_comm] using fun _ => (h.live_iff j).mpr live
    · simp [e, h.found, Live]
  live j hj := by
    rw [Arena.contains, Arena.get?_set live]
    split
    · rfl
    · exact h.live j hj
  issued := h.issued
  nodup := h.nodup
  generation i := (a.slot_set k v i).1.trans (h.generation i)
  past := h.past

theorem age_removed (l : Ledger ι α) (k : Key ι) (i : Nat) :
    Ledger.age { l with removed := k :: l.removed } i =
      l.age i + if k.index = i then 1 else 0 := by
  simp [age, List.countP_cons]

theorem Tracks.remove (h : Tracks l a) (live : a.contains k) (few : l.age k.index < UInt32.size) :
    Tracks { l with removed := k :: l.removed } (a.erase k) where
  found j w := by
    rw [Arena.get?_erase]
    by_cases e : j = k
    · simp [e, Live]
    · simp [e, h.found, Live]
  live j hj := by
    have ne : j ≠ k := fun e => hj.2 (by simp [e])
    rw [Arena.contains, Arena.get?_erase, if_neg ne]
    exact h.live j ⟨hj.1, fun back => hj.2 (List.mem_cons_of_mem k back)⟩
  issued j hj := by
    rcases List.mem_cons.mp hj with rfl | hj
    · exact ((h.live_iff j).mpr live).1
    · exact h.issued j hj
  nodup := h.nodup
  generation i := by
    rw [Arena.generation_erase live, age_removed, h.generation]
    by_cases e : i = k.index
    · subst e
      rw [if_pos rfl, if_pos rfl, UInt32.ofNat_add]
      rfl
    · rw [if_neg e, if_neg (Ne.symm e), Nat.add_zero]
  past j hj := by
    rw [age_removed]
    rcases List.mem_cons.mp hj with rfl | hj
    · rw [if_pos rfl, h.generation_live live few]
      exact Nat.lt_succ_self _
    · exact Nat.lt_add_right _ (h.past j hj)

theorem Tracks.change (h : Tracks l a) (f : Key ι → α → α) :
    Tracks { l with last := fun k => (l.last k).map (f k) } (a.mapKeys f) where
  found k v := by
    rw [Arena.get?_mapKeys, Option.map_eq_some_iff]
    simp only [Live, Option.map_eq_some_iff, h.found]
    constructor
    · rintro ⟨w, ⟨live, stored⟩, rfl⟩
      exact ⟨live, w, stored, rfl⟩
    · rintro ⟨live, w, stored, rfl⟩
      exact ⟨w, ⟨live, stored⟩, rfl⟩
  live k hk := by
    rw [Arena.contains, Arena.get?_mapKeys, Option.isSome_map]
    exact h.live k hk
  issued := h.issued
  nodup := h.nodup
  generation i := (a.generation_mapKeys f i).trans (h.generation i)
  past := h.past

/-- An action is answered as the ledger allows, and the ledger goes on. -/
theorem Tracks.perform (h : Tracks l a) (c : Action ι α)
    (few : ∀ i, l.age i + (a.vacates i c).toNat < UInt32.size) :
    l.Allows c (a.perform c).1 ∧ Tracks (l.record c (a.perform c).1) (a.perform c).2 := by
  have young : ∀ i, l.age i < UInt32.size := fun i =>
    Nat.lt_of_le_of_lt (Nat.le_add_right _ _) (few i)
  cases c with
  | alloc v =>
    have new := h.alloc_new v (young _)
    exact ⟨new, h.alloc new⟩
  | remove k =>
    refine ⟨h.value k, ?_⟩
    cases found : a.get? k with
    | none =>
      simpa only [Arena.perform, found, record, Arena.erase_of_stale found] using h
    | some v =>
      have live : a.contains k := Arena.contains_iff.mpr ⟨v, found⟩
      simpa only [Arena.perform, found, record] using h.remove live (young _)
  | set k v =>
    refine ⟨h.value k, ?_⟩
    cases found : a.get? k with
    | none =>
      simpa only [Arena.perform, found, record, Arena.set_of_stale found] using h
    | some w =>
      have live : a.contains k := Arena.contains_iff.mpr ⟨w, found⟩
      simpa only [Arena.perform, found, record] using h.set live v
  | get k => exact ⟨h.value k, h⟩
  | contains k => exact ⟨(h.live_iff k).symm, h⟩
  | size => exact ⟨h.size, h⟩
  | entries => exact ⟨h.entries, h⟩
  | keys => exact ⟨h.keys, h⟩
  | change f => exact ⟨h.entries, h.change f⟩

/-- A slot grows older by the removals of its value. -/
theorem age_record (l : Ledger ι α) (a : Arena ι α) (c : Action ι α) (i : Nat) :
    (l.record c (a.perform c).1).age i = l.age i + (a.vacates i c).toNat := by
  cases c with
  | remove k =>
    cases found : a.get? k with
    | none => simp [Arena.perform, record, Arena.vacates, Arena.contains, found]
    | some v =>
      simp only [Arena.perform, record, found, age_removed, Arena.vacates, Arena.contains,
        Option.isSome_some, Bool.true_and]
      by_cases e : k.index = i <;> simp [e]
  | set k v => cases found : a.get? k <;> simp [Arena.perform, record, Arena.vacates, found, age]
  | _ => rfl

/-- Actions one after another are answered as the ledger allows. -/
theorem Tracks.accepts (h : Tracks l a) (cs : List (Action ι α))
    (few : ∀ i, l.age i + a.removals i cs < UInt32.size) : l.Accepts cs (a.answers cs) := by
  induction cs generalizing l a with
  | nil => exact trivial
  | cons c cs ih =>
    have now : ∀ i, l.age i + (a.vacates i c).toNat < UInt32.size := fun i => by
      have := few i
      rw [Arena.removals] at this
      omega
    obtain ⟨allowed, next⟩ := h.perform c now
    refine ⟨allowed, ih next fun i => ?_⟩
    have := few i
    rw [Arena.removals] at this
    rw [age_record]
    omega

end Tracks

end Ledger

/-! ## Arenas in words -/

/-- An arena as it is kept: free slots are named by words on a stack, the one freed last on top, and
the values are counted. -/
structure Pool (α : Type) where
  slots : Array (Slot α) := #[]
  free : List UInt32 := []
  count : Nat := 0

namespace Pool

variable {ι α : Type}

def get? (p : Pool α) (k : Key ι) : Option α :=
  ((p.slots[k.index]?).filter (·.generation == k.generation)).bind (·.value)

/-- Fails if a slot on the stack is not there. -/
def alloc (p : Pool α) (v : α) : Option (Key ι × Pool α) :=
  match p.free with
  | [] =>
    let i := UInt32.ofNat p.slots.size
    some (⟨i.toNat, 0⟩, { p with slots := p.slots.push ⟨0, some v⟩, count := p.count + 1 })
  | i :: free => do
    let s ← p.slots[i.toNat]?
    let slots := p.slots.setIfInBounds i.toNat { s with value := some v }
    return (⟨i.toNat, s.generation⟩, { slots, free, count := p.count + 1 })

/-- Fails if the count does not go down. -/
def remove (p : Pool α) (k : Key ι) : Option (Option α × Pool α) :=
  match p.get? k, p.count with
  | none, _ => some (none, p)
  | some _, 0 => none
  | some v, count + 1 =>
    some (some v, {
      slots := p.slots.setIfInBounds k.index ⟨k.generation + 1, none⟩
      free := UInt32.ofNat k.index :: p.free
      count })

def set (p : Pool α) (k : Key ι) (v : α) : Option α × Pool α :=
  match p.get? k with
  | none => (none, p)
  | some old => (some old, { p with slots := p.slots.setIfInBounds k.index ⟨k.generation, some v⟩ })

def entries (p : Pool α) : List (Key ι × α) :=
  p.slots.toList.zipIdx.filterMap fun (s, i) =>
    s.value.map (⟨(UInt32.ofNat i).toNat, s.generation⟩, ·)

def change (p : Pool α) (f : Key ι → α → α) : Pool α :=
  { p with
    slots := p.slots.mapIdx fun i s =>
      { s with value := s.value.map (f ⟨(UInt32.ofNat i).toNat, s.generation⟩) } }

/-- The answer to an action, and the pool after it. -/
def perform (p : Pool α) : Action ι α → Option (Answer ι α × Pool α)
  | .alloc v => (p.alloc v).map fun (k, p) => (.key k, p)
  | .remove k => (p.remove k).map fun (found, p) => (.value found, p)
  | .get k => some (.value (p.get? k), p)
  | .set k v => some (.value (p.set k v).1, (p.set k v).2)
  | .contains k => some (.flag (p.get? k).isSome, p)
  | .size => some (.count p.count, p)
  | .entries => some (.entries p.entries, p)
  | .keys => some (.keys (p.entries.map (·.1)), p)
  | .change f => some (.entries p.entries, p.change f)

/-- The answers to actions one after another. -/
def answers (p : Pool α) : List (Action ι α) → Option (List (Answer ι α))
  | [] => some []
  | c :: cs => do
    let (r, p) ← p.perform c
    return r :: (← p.answers cs)

/-- A pool keeps an arena. -/
structure Keeps (p : Pool α) (a : Arena ι α) : Prop where
  slots : p.slots = a.slots
  free : p.free.map UInt32.toNat = a.free
  count : p.count = a.size

section Keeps

variable {p : Pool α} {a : Arena ι α} {k : Key ι} {v : α}

theorem Keeps.get? (h : Keeps p a) (k : Key ι) : p.get? k = a.get? k := by
  rw [Pool.get?, Arena.get?, h.slots]
  cases a.slots[k.index]? with
  | none => rfl
  | some s =>
    by_cases same : s.generation = k.generation
    · simp [Option.filter, same]
    · simp [Option.filter, same]

theorem Keeps.entries (h : Keeps p a) (words : a.capacity < UInt32.size) :
    p.entries = a.entries := by
  rw [Pool.entries, Arena.entries, h.slots]
  refine List.filterMap_congr ?_
  rintro ⟨s, i⟩ there
  have hi : i < a.capacity := by
    obtain ⟨lt, -⟩ := List.getElem?_eq_some_iff.mp (List.mk_mem_zipIdx_iff_getElem?.mp there)
    simpa [Arena.capacity] using lt
  dsimp only
  rw [UInt32.toNat_ofNat_of_lt' (Nat.lt_trans hi words)]

theorem Keeps.alloc (h : Keeps p a) (v : α) (words : (a.alloc v).2.capacity < UInt32.size) :
    ∃ q, p.alloc v = some ((a.alloc v).1, q) ∧ Keeps q (a.alloc v).2 := by
  have count : p.count + 1 = (a.alloc v).2.size := by rw [a.size_alloc, h.count]
  unfold Pool.alloc
  cases stack : p.free with
  | nil =>
    have none : a.free = [] := by rw [← h.free, stack]; rfl
    obtain ⟨new, slots, free⟩ := Arena.alloc_grows none v
    have word : (UInt32.ofNat p.slots.size).toNat = a.slots.size := by
      rw [h.slots]
      refine UInt32.toNat_ofNat_of_lt' (Nat.lt_of_succ_lt ?_)
      rwa [Arena.capacity, slots, Array.size_push] at words
    refine ⟨⟨p.slots.push ⟨0, some v⟩, [], p.count + 1⟩, ?_, ?_, ?_, count⟩
    · simp only [word, new]
    · rw [slots, h.slots]
    · rw [free]
      rfl
  | cons i rest =>
    have top : a.free = i.toNat :: rest.map UInt32.toNat := by rw [← h.free, stack]; rfl
    obtain ⟨new, slots, free⟩ := Arena.alloc_reuses top v
    obtain ⟨s, hs, -⟩ := a.vacant_of_free i.toNat (by simp [top])
    have gen : a.generation i.toNat = s.generation := by simp [Arena.generation, hs]
    refine ⟨⟨p.slots.setIfInBounds i.toNat ⟨s.generation, some v⟩, rest, p.count + 1⟩, ?_, ?_, ?_,
      count⟩
    · simp only [h.slots, hs, new, gen, Option.bind_eq_bind, Option.bind_some, Option.pure_def]
    · rw [slots, h.slots, gen]
    · rw [free]

theorem Keeps.remove (h : Keeps p a) (k : Key ι) (words : a.capacity < UInt32.size) :
    ∃ q, p.remove k = some (a.get? k, q) ∧ Keeps q (a.erase k) := by
  unfold Pool.remove
  rw [h.get?]
  cases found : a.get? k with
  | none => exact ⟨p, rfl, by rwa [Arena.erase_of_stale found]⟩
  | some v =>
    have live : a.contains k := Arena.contains_iff.mpr ⟨v, found⟩
    have size := Arena.size_erase live
    obtain ⟨slots, free⟩ := Arena.erase_slots live
    have count : p.count = (a.erase k).size + 1 := by rw [h.count, size]
    have word : (UInt32.ofNat k.index).toNat = k.index :=
      UInt32.toNat_ofNat_of_lt' (Nat.lt_trans (Arena.index_lt_of_get? found) words)
    rw [count]
    refine ⟨_, rfl, ?_, ?_, rfl⟩
    · rw [slots, h.slots]
    · rw [free, List.map_cons, word, h.free]

theorem Keeps.set (h : Keeps p a) (k : Key ι) (v : α) :
    (p.set k v).1 = a.get? k ∧ Keeps (p.set k v).2 (a.set k v) := by
  unfold Pool.set
  rw [h.get?]
  cases found : a.get? k with
  | none => exact ⟨rfl, by rwa [Arena.set_of_stale found]⟩
  | some old =>
    obtain ⟨slots, free⟩ := Arena.set_slots (Arena.contains_iff.mpr ⟨old, found⟩) v
    refine ⟨rfl, ?_, ?_, ?_⟩
    · rw [slots, h.slots]
    · rw [free, h.free]
    · rw [a.size_set, h.count]

theorem Keeps.change (h : Keeps p a) (f : Key ι → α → α) (words : a.capacity < UInt32.size) :
    Keeps (p.change f) (a.mapKeys f) where
  slots := by
    rw [Pool.change, Arena.mapKeys, h.slots]
    refine Array.ext (by simp) fun i hi hi' => ?_
    have there : i < a.capacity := by simpa [Arena.capacity] using hi
    have lt : i < UInt32.size := Nat.lt_trans there words
    simp only [Array.getElem_mapIdx, UInt32.toNat_ofNat_of_lt' lt]
  free := h.free
  count := by rw [a.size_mapKeys, ← h.count]; rfl

/-- An action on a pool is one on the arena that it keeps, as long as words can name the slots. -/
theorem Keeps.perform (h : Keeps p a) (c : Action ι α)
    (words : (a.perform c).2.capacity < UInt32.size) (before : a.capacity < UInt32.size) :
    ∃ q, p.perform c = some ((a.perform c).1, q) ∧ Keeps q (a.perform c).2 := by
  cases c with
  | alloc v =>
    obtain ⟨q, made, keeps⟩ := h.alloc v words
    exact ⟨q, by rw [Pool.perform, made]; rfl, keeps⟩
  | remove k =>
    obtain ⟨q, gone, keeps⟩ := h.remove k before
    exact ⟨q, by rw [Pool.perform, gone]; rfl, keeps⟩
  | get k => exact ⟨p, by rw [Pool.perform, h.get?]; rfl, h⟩
  | set k v =>
    obtain ⟨old, keeps⟩ := h.set k v
    exact ⟨_, by rw [Pool.perform, old]; rfl, keeps⟩
  | contains k => exact ⟨p, by rw [Pool.perform, h.get?]; rfl, h⟩
  | size => exact ⟨p, by rw [Pool.perform, h.count]; rfl, h⟩
  | entries => exact ⟨p, by rw [Pool.perform, h.entries before]; rfl, h⟩
  | keys => exact ⟨p, by rw [Pool.perform, h.entries before]; rfl, h⟩
  | change f => exact ⟨_, by rw [Pool.perform, h.entries before]; rfl, h.change f before⟩

end Keeps

end Pool

/-! ## All three -/

namespace Arena

variable {ι α : Type}

/-- Slots are never given up. -/
theorem capacity_le_perform (a : Arena ι α) (c : Action ι α) :
    a.capacity ≤ (a.perform c).2.capacity := by
  cases c with
  | alloc v =>
    cases h : a.free with
    | nil => simp [perform, capacity, (alloc_grows h v).2.1]
    | cons i free => simp [perform, capacity, (alloc_reuses h v).2.1]
  | remove k =>
    by_cases live : a.contains k
    · simp [perform, capacity, (erase_slots live).1]
    · rw [perform, erase_of_stale (by simpa [contains] using live)]
  | set k v =>
    by_cases live : a.contains k
    · simp [perform, capacity, (set_slots live v).1]
    · rw [perform, set_of_stale (by simpa [contains] using live)]
  | change f => simp [perform, capacity, mapKeys]
  | _ => exact Nat.le_refl _

theorem capacity_le_afterAll (a : Arena ι α) (cs : List (Action ι α)) :
    a.capacity ≤ (a.afterAll cs).capacity := by
  induction cs generalizing a with
  | nil => exact Nat.le_refl _
  | cons c cs ih => exact Nat.le_trans (a.capacity_le_perform c) (ih _)

end Arena

theorem Arena.removals_le_length {ι α : Type} (a : Arena ι α) (i : Nat) (cs : List (Action ι α)) :
    a.removals i cs ≤ cs.length := by
  induction cs generalizing a with
  | nil => exact Nat.le_refl _
  | cons c cs ih =>
    have rest := ih (a.perform c).2
    have one := Bool.toNat_le (a.vacates i c)
    rw [removals, List.length_cons]
    omega

theorem Pool.Keeps.answers {ι α : Type} {p : Pool α} {a : Arena ι α} (h : Keeps p a)
    (cs : List (Action ι α)) (words : (a.afterAll cs).capacity < UInt32.size) :
    p.answers cs = some (a.answers cs) := by
  induction cs generalizing p a with
  | nil => rfl
  | cons c cs ih =>
    have after : (a.perform c).2.capacity < UInt32.size :=
      Nat.lt_of_le_of_lt (Arena.capacity_le_afterAll _ cs) words
    have before : a.capacity < UInt32.size := Nat.lt_of_le_of_lt (a.capacity_le_perform c) after
    obtain ⟨q, done, keeps⟩ := h.perform c after before
    rw [Pool.answers, done, Option.bind_eq_bind, Option.bind_some]
    show (do return (a.perform c).1 :: (← q.answers cs) : Option (List (Answer ι α))) = _
    rw [ih keeps words]
    rfl

namespace Arena

variable {ι α : Type}

/-- As long as words can name the slots and no slot has been vacated as often as there are
generations, actions on an arena, also as it is kept in words, are answered as on a map whose keys
are never used again. -/
theorem run_refines (cs : List (Action ι α))
    (words : ((empty : Arena ι α).afterAll cs).capacity < UInt32.size)
    (few : ∀ i, (empty : Arena ι α).removals i cs < UInt32.size) :
    Pool.answers {} cs = some ((empty : Arena ι α).answers cs) ∧
      Ledger.Accepts {} cs ((empty : Arena ι α).answers cs) := by
  have keeps : Pool.Keeps {} (empty : Arena ι α) := ⟨rfl, rfl, rfl⟩
  constructor
  · exact keeps.answers cs words
  · apply Ledger.tracks_empty.accepts cs
    intro i
    simpa [Ledger.age] using few i

/-- A key taken back stays stale when its slot is used again, and the new key is another one. -/
theorem reused_slot_accepted :
    let cs : List (Action Nat Nat) := [.alloc 7, .alloc 8, .remove ⟨0, 0⟩, .remove ⟨0, 0⟩,
      .alloc 9, .set ⟨0, 0⟩ 5, .get ⟨0, 1⟩, .contains ⟨0, 0⟩, .entries, .size]
    let rs : List (Answer Nat Nat) := [.key ⟨0, 0⟩, .key ⟨1, 0⟩, .value (some 7), .value none,
      .key ⟨0, 1⟩, .value none, .value (some 9), .flag false,
      .entries [(⟨0, 1⟩, 9), (⟨1, 0⟩, 8)], .count 2]
    Pool.answers {} cs = some rs ∧ Ledger.Accepts {} cs rs := by
  intro cs rs
  have few : ∀ i, (empty : Arena Nat Nat).removals i cs < UInt32.size := fun i =>
    Nat.lt_of_le_of_lt (removals_le_length _ i cs) (by decide)
  exact run_refines cs (by decide) few

end Arena

end MarkdownForest
