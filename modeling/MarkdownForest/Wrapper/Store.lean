/-
# MarkdownForest.Wrapper.Store -- a forest with its wrappers

A store is a forest, a heap of wrappers, and the table that says which wrapper a
node has.  A node is wrapped at most once.

Wrapping a node wraps everything above it first, so that the parent of a wrapped
node is wrapped (`Store.materialize`).
-/
import MarkdownForest.Forest.Plant
import MarkdownForest.Wrapper.Identity

namespace MarkdownForest

set_option autoImplicit false

structure Store where
  forest : Forest := {}
  heap : Heap := {}
  identity : IdentityTable := {}

instance : Inhabited Store := ⟨{}⟩

namespace Store

/-- Makes a wrapper for a node and enters it in the table. -/
def enter (s : Store) (x : NodeId) (ownership : Ownership) : WrapperId × Store :=
  let (w, heap) := s.heap.alloc x ownership
  (w, { s with heap, identity := s.identity.insert x w })

/-- The wrapper of a node, made if there is none. -/
def getOrCreate (s : Store) (x : NodeId) : Except ForestError (WrapperId × Store) :=
  match s.identity.lookup x with
  | some w => .ok (w, s)
  | none => do return s.enter x (← s.forest.ownership x)

/-- The nodes above `x` up to the first that is wrapped. -/
def unwrappedAbove (s : Store) (x : NodeId) : List NodeId :=
  ((s.forest.ancestors x).drop 1).takeWhile fun y => !s.identity.contains y

/-- The wrapper of a node; if there is none, it is made after those of the nodes above, from the
root on. -/
def materialize (s : Store) (x : NodeId) : Except ForestError (WrapperId × Store) :=
  match s.identity.lookup x with
  | some w => .ok (w, s)
  | none => do
    let _ ← s.forest.content x
    let above := (s.unwrappedAbove x).reverse
    let s ← above.foldlM (fun s y => return (← s.getOrCreate y).2) s
    s.getOrCreate x

end Store

end MarkdownForest
