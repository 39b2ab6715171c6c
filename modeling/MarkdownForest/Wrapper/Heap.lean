/-
# MarkdownForest.Wrapper.Heap -- wrappers and where they live

A wrapper is a handle on a node.  It remembers whether its node is a root, and
how many holds on it keep it from being collected.

The heap counts all wrappers ever made, and those made since the last
collection.
-/
import MarkdownForest.Forest.Node

namespace MarkdownForest

set_option autoImplicit false

structure Wrapper where
  node : NodeId
  ownership : Ownership
  /-- The number of holds that keep the wrapper alive.  It has no bound; a count of 32 bits is the
  same while a wrapper has fewer than 2^32 holds. -/
  roots : Nat := 0
  deriving DecidableEq, Repr

def Wrapper.isRooted (w : Wrapper) : Bool :=
  w.roots != 0

abbrev WrapperId := Key Wrapper

structure Heap where
  wrappers : Arena Wrapper := .empty
  allocatedSinceCollect : Nat := 0
  totalAllocated : Nat := 0

namespace Heap

/-- Makes a wrapper that nothing holds. -/
def alloc (h : Heap) (node : NodeId) (ownership : Ownership) : WrapperId × Heap :=
  let (w, wrappers) := h.wrappers.alloc { node, ownership }
  (w, { wrappers
        allocatedSinceCollect := h.allocatedSinceCollect + 1
        totalAllocated := h.totalAllocated + 1 })

def get? (h : Heap) (w : WrapperId) : Option Wrapper :=
  h.wrappers.get? w

def contains (h : Heap) (w : WrapperId) : Bool :=
  h.wrappers.contains w

/-- The number of wrappers. -/
def size (h : Heap) : Nat :=
  h.wrappers.size

/-- The wrappers, by index. -/
def entries (h : Heap) : List (WrapperId × Wrapper) :=
  h.wrappers.entries

/-- Changes a wrapper, if it is there. -/
def update (h : Heap) (w : WrapperId) (change : Wrapper → Wrapper) : Heap :=
  match h.get? w with
  | some wrapper => { h with wrappers := h.wrappers.set w (change wrapper) }
  | none => h

def erase (h : Heap) (w : WrapperId) : Heap :=
  { h with wrappers := h.wrappers.erase w }

/-- Begins to count anew the wrappers made since the last collection. -/
def resetCounter (h : Heap) : Heap :=
  { h with allocatedSinceCollect := 0 }

/-! ## What each operation does to `get?` -/

theorem get?_alloc_iff (h : Heap) (x : NodeId) (o : Ownership) {w : WrapperId} {v : Wrapper} :
    (h.alloc x o).2.get? w = some v ↔
      (w = (h.alloc x o).1 ∧ v = { node := x, ownership := o }) ∨ h.get? w = some v :=
  Arena.get?_alloc_iff ..

theorem get?_update (h : Heap) (w : WrapperId) (change : Wrapper → Wrapper) (k : WrapperId) :
    (h.update w change).get? k = if k = w then (h.get? k).map change else h.get? k := by
  unfold update
  split
  · rename_i v hv
    have live : h.wrappers.contains w := Arena.contains_iff.mpr ⟨v, hv⟩
    by_cases e : k = w
    · simp [get?, Arena.get?_set live, e, show h.wrappers.get? w = some v from hv]
    · simp [get?, Arena.get?_set live, e]
  · rename_i hv
    split
    · rename_i e
      rw [e, hv]
      rfl
    · rfl

theorem get?_erase (h : Heap) (w k : WrapperId) :
    (h.erase w).get? k = if k = w then none else h.get? k :=
  Arena.get?_erase ..

theorem mem_entries {h : Heap} {w : WrapperId} {v : Wrapper} :
    (w, v) ∈ h.entries ↔ h.get? w = some v :=
  Arena.mem_entries

theorem size_erase {h : Heap} {w : WrapperId} {v : Wrapper} (hv : h.get? w = some v) :
    h.size = (h.erase w).size + 1 :=
  Arena.size_erase (Arena.contains_iff.mpr ⟨v, hv⟩)

end Heap

end MarkdownForest
