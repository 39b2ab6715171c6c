/-
# MarkdownForest.Wrapper.Mutation -- edits on wrapped nodes

A mutation is an edit of the forest whose nodes are given by their wrappers.  It
succeeds if the wrappers are there and the forest accepts the edit.  Then the
wrapper of the node moved learns whether its node is a root now; nothing else in
the heap changes.
-/
import MarkdownForest.Wrapper.Store

namespace MarkdownForest

set_option autoImplicit false

/-- Why an operation on wrapped nodes fails. -/
inductive WorkspaceError where
  | parse (cause : ParseError)
  | forest (cause : ForestError)
  | staleWrapper (wrapper : WrapperId)
  deriving DecidableEq, Repr

def WorkspaceError.message : WorkspaceError → String
  | parse cause => "Parse error: " ++ cause.message
  | forest cause => cause.message
  | staleWrapper wrapper => "wrapper " ++ wrapper.text ++ " has already been collected"

inductive Mutation where
  | unlink (node : WrapperId)
  | insertBefore (anchor node : WrapperId)
  | insertAfter (anchor node : WrapperId)
  | prependChild (parent child : WrapperId)
  | appendChild (parent child : WrapperId)
  deriving DecidableEq, Repr

namespace Mutation

def name : Mutation → String
  | unlink _ => "unlink"
  | insertBefore .. => "insert_before"
  | insertAfter .. => "insert_after"
  | prependChild .. => "prepend_child"
  | appendChild .. => "append_child"

/-- The wrapper of the node that moves. -/
def moved : Mutation → WrapperId
  | unlink node => node
  | insertBefore _ node | insertAfter _ node => node
  | prependChild _ child | appendChild _ child => child

/-- How the state of the node that moves changes. -/
def settle : Mutation → Ownership → Transition × Ownership
  | unlink _ => Ownership.detach
  | _ => Ownership.attach

end Mutation

namespace Store

def wrapper (s : Store) (w : WrapperId) : Except WorkspaceError Wrapper :=
  match s.heap.get? w with
  | some wrapper => .ok wrapper
  | none => .error (.staleWrapper w)

/-- The node of a wrapper, live or not. -/
def wrappedNode (s : Store) (w : WrapperId) : Except WorkspaceError NodeId :=
  return (← s.wrapper w).node

/-- The edit that a mutation makes. -/
def edit (s : Store) : Mutation → Except WorkspaceError Forest
  | .unlink node => do
    let x ← s.wrappedNode node
    (s.forest.unlink x).mapError .forest
  | .insertBefore anchor node => do
    let a ← s.wrappedNode anchor
    let x ← s.wrappedNode node
    (s.forest.insertBefore a x).mapError .forest
  | .insertAfter anchor node => do
    let a ← s.wrappedNode anchor
    let x ← s.wrappedNode node
    (s.forest.insertAfter a x).mapError .forest
  | .prependChild parent child => do
    let p ← s.wrappedNode parent
    let x ← s.wrappedNode child
    (s.forest.prependChild p x).mapError .forest
  | .appendChild parent child => do
    let p ← s.wrappedNode parent
    let x ← s.wrappedNode child
    (s.forest.appendChild p x).mapError .forest

/-- Carries out a mutation. -/
def apply (s : Store) (m : Mutation) : Except WorkspaceError (Transition × Store) := do
  let forest ← s.edit m
  let (transition, ownership) := m.settle (← s.wrapper m.moved).ownership
  return (transition,
    { s with forest, heap := s.heap.update m.moved ({ · with ownership }) })

end Store

end MarkdownForest
