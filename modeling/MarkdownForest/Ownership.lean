/-
# MarkdownForest.Ownership -- roots and attached nodes

A node is a root, or it is attached to a parent.  `attach` and `detach` move the
state and tell whether that changed anything; both are idempotent.
-/

namespace MarkdownForest

set_option autoImplicit false

inductive Ownership where
  | root | attached
  deriving DecidableEq, Repr, Inhabited

/-- What a move of the state did. -/
inductive Transition where
  | changed (before after : Ownership)
  | unchanged
  deriving DecidableEq, Repr

namespace Ownership

def name : Ownership → String
  | root => "root"
  | attached => "attached"

def ofName? (name : String) : Option Ownership :=
  [root, attached].find? fun s => s.name == name

theorem ofName?_name (s : Ownership) : ofName? s.name = some s := by
  cases s <;> decide

/-- What moving to `after` does. -/
def transition (before after : Ownership) : Transition :=
  if before = after then .unchanged else .changed before after

/-- Moves to attached. -/
def attach (s : Ownership) : Transition × Ownership :=
  (s.transition attached, attached)

/-- Moves to root. -/
def detach (s : Ownership) : Transition × Ownership :=
  (s.transition root, root)

@[simp] theorem transition_self (s : Ownership) : s.transition s = .unchanged := by
  simp [transition]

end Ownership

end MarkdownForest
