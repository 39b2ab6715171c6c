/-
# MarkdownForest.Wrapper.Identity -- which wrapper a node has

The table maps nodes to wrappers, one wrapper a node.
-/
import MarkdownForest.Wrapper.Heap

namespace MarkdownForest

set_option autoImplicit false

structure IdentityTable where
  entries : List (NodeId × WrapperId) := []

namespace IdentityTable

/-- The wrapper of a node. -/
def lookup (t : IdentityTable) (x : NodeId) : Option WrapperId :=
  t.entries.lookup x

def contains (t : IdentityTable) (x : NodeId) : Bool :=
  (t.lookup x).isSome

def size (t : IdentityTable) : Nat :=
  t.entries.length

def erase (t : IdentityTable) (x : NodeId) : IdentityTable :=
  ⟨t.entries.filter fun e => e.1 != x⟩

def insert (t : IdentityTable) (x : NodeId) (w : WrapperId) : IdentityTable :=
  ⟨(x, w) :: (t.erase x).entries⟩

/-- Takes a node out if `w` is its wrapper. -/
def forget (t : IdentityTable) (x : NodeId) (w : WrapperId) : IdentityTable :=
  if t.lookup x = some w then t.erase x else t

/-! ## What each operation does to `lookup` -/

@[simp] theorem lookup_empty (x : NodeId) : ({} : IdentityTable).lookup x = none := rfl

theorem lookup_filter_ne {l : List (NodeId × WrapperId)} {x y : NodeId} (h : y ≠ x) :
    (l.filter fun e => e.1 != x).lookup y = l.lookup y := by
  induction l with
  | nil => rfl
  | cons e l ih =>
    obtain ⟨z, w⟩ := e
    by_cases hz : z = x
    · subst hz
      have : (y == z) = false := by simpa using h
      simp [List.lookup_cons, this, ih]
    · by_cases hy : y = z
      · subst hy; simp [hz]
      · have : (y == z) = false := by simpa using hy
        simp [hz, List.lookup_cons, this, ih]

theorem lookup_filter_self (l : List (NodeId × WrapperId)) (x : NodeId) :
    (l.filter fun e => e.1 != x).lookup x = none := by
  induction l with
  | nil => rfl
  | cons e l ih =>
    obtain ⟨z, w⟩ := e
    by_cases hz : z = x
    · simp [hz, ih]
    · have : (x == z) = false := by simpa using fun e => hz e.symm
      simp [hz, List.lookup_cons, this, ih]

@[simp] theorem lookup_erase_self (t : IdentityTable) (x : NodeId) :
    (t.erase x).lookup x = none :=
  lookup_filter_self t.entries x

theorem lookup_erase_of_ne (t : IdentityTable) {x y : NodeId} (h : y ≠ x) :
    (t.erase x).lookup y = t.lookup y :=
  lookup_filter_ne h

@[simp] theorem lookup_insert_self (t : IdentityTable) (x : NodeId) (w : WrapperId) :
    (t.insert x w).lookup x = some w := by
  simp [insert, lookup]

theorem lookup_insert_of_ne (t : IdentityTable) {x y : NodeId} (h : y ≠ x) (w : WrapperId) :
    (t.insert x w).lookup y = t.lookup y := by
  have hb : (y == x) = false := by simpa using h
  simp only [insert, lookup, List.lookup_cons, hb]
  exact lookup_filter_ne h

theorem lookup_insert (t : IdentityTable) (x : NodeId) (w : WrapperId) (y : NodeId) :
    (t.insert x w).lookup y = if y = x then some w else t.lookup y := by
  by_cases e : y = x
  · simp [e]
  · rw [if_neg e, t.lookup_insert_of_ne e]

/-- Forgetting a wrapper takes out its node, and no other. -/
theorem lookup_forget (t : IdentityTable) (x : NodeId) (w : WrapperId) (y : NodeId) :
    (t.forget x w).lookup y = if y = x ∧ t.lookup x = some w then none else t.lookup y := by
  unfold forget
  by_cases h : t.lookup x = some w
  · by_cases e : y = x
    · simp [h, e]
    · simp [h, e, t.lookup_erase_of_ne e]
  · simp [h]

end IdentityTable

end MarkdownForest
