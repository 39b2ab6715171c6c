/-
# MarkdownForest.Wrapper.Collector -- collecting wrappers and freeing trees

A collection keeps the wrappers that are reached from a rooted one, and removes
the others.  A wrapper reaches the wrapper of its node's parent and the wrappers
of its node's children; so a whole tree is kept as soon as one of its wrappers
is rooted.  Removing the wrapper of a root frees the tree.

* `Store.unreached` marks: it goes over a stack of wrappers to visit, and gives
  back what it never met.  A wrapped node whose parent is not wrapped is a
  violation, and stops it.
* `Store.sweep` removes wrappers one by one, by index.
* A violation is found before anything is removed (`Store.collect`).
-/
import MarkdownForest.Wrapper.Store

namespace MarkdownForest

set_option autoImplicit false

/-- A wrapped node whose parent is not wrapped. -/
structure Violation where
  node : NodeId
  parent : NodeId
  deriving DecidableEq, Repr

def Violation.message (v : Violation) : String :=
  "node " ++ v.node.text ++ " is wrapped but its parent " ++ v.parent.text ++ " is not"

/-- What a collection did. -/
structure CollectStats where
  marked : Nat := 0
  swept : Nat := 0
  finalized : Nat := 0
  freedNodes : Nat := 0
  deriving DecidableEq, Repr, Inhabited

namespace Store

/-! ## Marking -/

/-- The wrappers that the wrapper of a node reaches: that of the parent, then those of the
children. -/
def propagate (s : Store) (x : NodeId) : Except Violation (List WrapperId) :=
  if s.forest.contains x then
    let below := (s.forest.children x).filterMap s.identity.lookup
    match s.forest.parent? x with
    | none => .ok below
    | some p =>
      match s.identity.lookup p with
      | some w => .ok (w :: below)
      | none => .error ⟨x, p⟩
  else .ok []

/-- Takes an entry out of a list. -/
def extract? (w : WrapperId) :
    List (WrapperId × Wrapper) → Option (Wrapper × List (WrapperId × Wrapper))
  | [] => none
  | e :: l => if e.1 = w then some (e.2, l) else (extract? w l).map fun (v, l) => (v, e :: l)

theorem length_of_extract? {w : WrapperId} {v : Wrapper} {l rest : List (WrapperId × Wrapper)}
    (h : extract? w l = some (v, rest)) : rest.length < l.length := by
  induction l generalizing rest with
  | nil => simp [extract?] at h
  | cons e l ih =>
    unfold extract? at h
    split at h
    · simp only [Option.some.injEq, Prod.mk.injEq] at h
      simp [← h.2]
    · simp only [Option.map_eq_some_iff, Prod.exists, Prod.mk.injEq] at h
      obtain ⟨_, _, hl, rfl, rfl⟩ := h
      simpa using ih hl

/-- The entries that are not reached from a stack of wrappers to visit. -/
def unreached (s : Store) (stack : List WrapperId) (left : List (WrapperId × Wrapper)) :
    Except Violation (List (WrapperId × Wrapper)) :=
  match stack with
  | [] => .ok left
  | w :: stack =>
    match _h : extract? w left with
    | none => s.unreached stack left
    | some (wrapper, left') =>
      match s.propagate wrapper.node with
      | .error violation => .error violation
      | .ok reached => s.unreached (reached.reverse ++ stack) left'
termination_by (left.length, stack.length)
decreasing_by
  · exact Prod.Lex.right _ (by simp)
  · exact Prod.Lex.left _ _ (length_of_extract? _h)

/-- The rooted wrappers, the one visited first in front. -/
def rooted (s : Store) : List WrapperId :=
  ((s.heap.entries.filter (·.2.isRooted)).map (·.1)).reverse

/-- The wrappers that a collection removes, by index. -/
def dead (s : Store) : Except Violation (List (WrapperId × Wrapper)) :=
  s.unreached s.rooted s.heap.entries

/-! ## Sweeping -/

/-- Removes a wrapper, and the tree of its node if that is a root. -/
def remove (s : Store) (stats : CollectStats) (w : WrapperId) (wrapper : Wrapper) :
    CollectStats × Store :=
  let s := { s with heap := s.heap.erase w, identity := s.identity.forget wrapper.node w }
  let stats := { stats with swept := stats.swept + 1 }
  match wrapper.ownership with
  | .attached => (stats, s)
  | .root =>
    let (count, forest) := s.forest.erase wrapper.node
    ({ stats with finalized := stats.finalized + 1, freedNodes := stats.freedNodes + count },
      { s with forest })

/-- Removes wrappers one by one. -/
def sweep (s : Store) (stats : CollectStats) : List (WrapperId × Wrapper) → CollectStats × Store
  | [] => (stats, s)
  | (w, wrapper) :: more =>
    let (stats, s) := s.remove stats w wrapper
    s.sweep stats more

/-- Collects. -/
def collect (s : Store) : Except Violation (CollectStats × Store) := do
  let dead ← s.dead
  let (stats, s) := s.sweep { marked := s.heap.size - dead.length } dead
  return (stats, { s with heap := s.heap.resetCounter })

end Store

end MarkdownForest
