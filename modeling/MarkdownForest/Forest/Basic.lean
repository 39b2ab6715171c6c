/-
# MarkdownForest.Forest.Basic -- forests and their links

A forest keeps the records of its nodes in an arena.  The links between nodes
are stored in the records, and reading one fails for a node that is not live.

What takes more than one link is found by going from record to record
(`Forest.follow`): the children of a node from the first one on, and what is
above a node from the node up.  No node is met twice on such a way, so it is no
longer than the arena has slots, and it is cut off there.
-/
import MarkdownForest.Forest.Branch

namespace MarkdownForest

set_option autoImplicit false

structure Forest where
  nodes : Arena Content Node := .empty
  /-- The number of nodes ever made. -/
  allocated : Nat := 0
  /-- The number of nodes ever freed. -/
  freed : Nat := 0

instance : Inhabited Forest := ⟨{}⟩

/-! ## Errors -/

/-- Why nodes could not be put where they should go. -/
inductive EditError where
  | sameNode
  | cycle
  | cannotContain (parent child : Kind)
  | detached
  deriving DecidableEq, Repr

def EditError.message : EditError → String
  | sameNode => "a node cannot be inserted relative to itself"
  | cycle => "would create a cycle"
  | cannotContain parent child => parent.typeName ++ " cannot contain " ++ child.typeName
  | detached => "anchor node has no parent"

inductive ForestError where
  | stale (node : NodeId)
  | edit (cause : EditError)
  | field (cause : FieldError)
  deriving DecidableEq, Repr

def ForestError.message : ForestError → String
  | stale node => "node " ++ node.text ++ " is no longer live"
  | edit cause => "invalid edit: " ++ cause.message
  | field cause => cause.message

namespace Forest

/-- The number of live nodes. -/
def live (f : Forest) : Nat :=
  f.nodes.size

def contains (f : Forest) (x : NodeId) : Bool :=
  f.nodes.contains x

/-! ## Records -/

/-- The record of a live node. -/
def node (f : Forest) (x : NodeId) : Except ForestError Node :=
  match f.nodes.get? x with
  | some n => .ok n
  | none => .error (.stale x)

/-- Changes the record of a live node. -/
def update (f : Forest) (x : NodeId) (change : Node → Node) : Except ForestError Forest :=
  match f.nodes.get? x with
  | some n => .ok { f with nodes := f.nodes.set x (change n) }
  | none => .error (.stale x)

/-- Changes the record that a link leads to, if it leads anywhere. -/
def updateAt (f : Forest) (link : Option NodeId) (change : Node → Node) :
    Except ForestError Forest :=
  match link with
  | some x => f.update x change
  | none => .ok f

/-! ## Contents -/

def content (f : Forest) (x : NodeId) : Except ForestError Content :=
  return (← f.node x).content

def kind (f : Forest) (x : NodeId) : Except ForestError Kind :=
  return (← f.content x).kind

/-- Reads a field of a node. -/
def get {α : Type} (f : Forest) (read : Content → Except FieldError α) (x : NodeId) :
    Except ForestError α := do
  (read (← f.content x)).mapError .field

/-- Writes a field of a node. -/
def set (f : Forest) (write : Content → Except FieldError Content) (x : NodeId) :
    Except ForestError Forest := do
  let content ← (write (← f.content x)).mapError .field
  f.update x ({ · with content })

/-! ## Links -/

def ownership (f : Forest) (x : NodeId) : Except ForestError Ownership :=
  return (← f.node x).ownership

def parent (f : Forest) (x : NodeId) : Except ForestError (Option NodeId) :=
  return (← f.node x).parent

def firstChild (f : Forest) (x : NodeId) : Except ForestError (Option NodeId) :=
  return (← f.node x).firstChild

def lastChild (f : Forest) (x : NodeId) : Except ForestError (Option NodeId) :=
  return (← f.node x).lastChild

def next (f : Forest) (x : NodeId) : Except ForestError (Option NodeId) :=
  return (← f.node x).next

def previous (f : Forest) (x : NodeId) : Except ForestError (Option NodeId) :=
  return (← f.node x).previous

/-- The parent of a live node that has one. -/
def parent? (f : Forest) (x : NodeId) : Option NodeId :=
  (f.nodes.get? x).bind (·.parent)

/-- The sibling after a live node, if there is one. -/
def next? (f : Forest) (x : NodeId) : Option NodeId :=
  (f.nodes.get? x).bind (·.next)

/-! ## Ways through the forest -/

/-- What is met from a node on when every step goes where `step` leads, at most `fuel` nodes. -/
def follow (step : NodeId → Option NodeId) : Nat → Option NodeId → List NodeId
  | fuel + 1, some x => x :: follow step fuel (step x)
  | _, _ => []

/-- A node and its siblings after it. -/
def onward (f : Forest) (first : Option NodeId) : List NodeId :=
  follow f.next? f.nodes.capacity first

/-- The children of a node; empty for a node that is not live. -/
def children (f : Forest) (x : NodeId) : List NodeId :=
  f.onward ((f.nodes.get? x).bind (·.firstChild))

/-- A node, its parent, and so on up to the root; empty for a node that is not live. -/
def ancestors (f : Forest) (x : NodeId) : List NodeId :=
  if f.contains x then follow f.parent? f.nodes.capacity (some x) else []

/-- The root above a node. -/
def rootOf (f : Forest) (x : NodeId) : Except ForestError NodeId := do
  let _ ← f.node x
  return (f.ancestors x).getLastD x

/-- The number of nodes above a node. -/
def depth (f : Forest) (x : NodeId) : Except ForestError Nat := do
  let _ ← f.node x
  return (f.ancestors x).length - 1

/-- A node with those below it, down to `fuel` levels. -/
def branchAt (f : Forest) : Nat → NodeId → Branch
  | 0, x => .node x []
  | fuel + 1, x => .node x ((f.children x).map (f.branchAt fuel))

/-- A live node with those below it. -/
def branch? (f : Forest) (x : NodeId) : Option Branch :=
  if f.contains x then some (f.branchAt f.nodes.capacity x) else none

/-- The number of nodes at and below a node. -/
def subtreeSize (f : Forest) (x : NodeId) : Except ForestError Nat := do
  let _ ← f.node x
  return (f.branch? x).elim 0 (·.size)

/-- The roots, by index. -/
def roots (f : Forest) : List NodeId :=
  (f.nodes.entries.filter fun e => e.2.parent.isNone).map (·.1)

end Forest

end MarkdownForest
