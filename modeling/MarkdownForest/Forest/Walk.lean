/-
# MarkdownForest.Forest.Walk -- walking over a node and what is below it

A walk enters a node, walks over its children in order, and leaves the node.
Nodes of leaf kinds are entered and not left.  Right after entering a node the
walk can skip to leaving it; then also a leaf is left.

A walk keeps what is still to do, so it never goes outside the node it began at
(`Walk.events` lists all that it meets).
-/
import MarkdownForest.Forest.Basic

namespace MarkdownForest

set_option autoImplicit false

/-- What a walk meets. -/
inductive WalkEvent where
  | enter (node : NodeId)
  | exit (node : NodeId)
  deriving DecidableEq, Repr

/-- What a walk has still to do. -/
inductive WalkStep where
  | visit (branch : Branch)
  | leave (node : NodeId)

/-- A walk, as what it has still to do. -/
structure Walk where
  todo : List WalkStep := []

namespace Walk

/-- The walk over a node; it meets nothing if the node is not live. -/
def start (f : Forest) (x : NodeId) : Walk :=
  match f.branch? x with
  | some b => ⟨[.visit b]⟩
  | none => {}

/-- Whether a node has a leaf kind. -/
def isLeaf (f : Forest) (x : NodeId) : Bool :=
  match f.nodes.get? x with
  | some n => n.content.kind.isLeaf
  | none => true

def next? (f : Forest) : Walk → Option (WalkEvent × Walk)
  | ⟨[]⟩ => none
  | ⟨.leave x :: rest⟩ => some (.exit x, ⟨rest⟩)
  | ⟨.visit (.node x bs) :: rest⟩ =>
    if isLeaf f x then some (.enter x, ⟨rest⟩)
    else some (.enter x, ⟨bs.map .visit ++ .leave x :: rest⟩)

def isLeaving (x : NodeId) : WalkStep → Bool
  | .leave y => y == x
  | .visit _ => false

/-- Skips to leaving a node just entered. -/
def skipToExit (x : NodeId) (w : Walk) : Walk :=
  if w.todo.any (isLeaving x) then ⟨w.todo.dropWhile fun s => !isLeaving x s⟩
  else ⟨.leave x :: w.todo⟩

/-! ## All events -/

/-- A bound on the number of events of what is still to do. -/
def weightOf : List WalkStep → Nat
  | [] => 0
  | .visit b :: rest => 2 * b.size + weightOf rest
  | .leave _ :: rest => 1 + weightOf rest

/-- A bound on the number of events. -/
def weight (w : Walk) : Nat :=
  weightOf w.todo

theorem weightOf_append (s t : List WalkStep) : weightOf (s ++ t) = weightOf s + weightOf t := by
  induction s with
  | nil => simp [weightOf]
  | cons a s ih => cases a <;> simp [weightOf, ih, Nat.add_assoc]

theorem weightOf_map_visit (bs : List Branch) :
    weightOf (bs.map WalkStep.visit) = 2 * Branch.sizeList bs := by
  induction bs with
  | nil => rfl
  | cons b bs ih =>
    simp only [List.map_cons, weightOf, Branch.sizeList, ih]
    omega

theorem weight_next {f : Forest} {w v : Walk} {e : WalkEvent} (h : w.next? f = some (e, v)) :
    v.weight < w.weight := by
  unfold next? at h
  split at h
  · simp at h
  · simp only [Option.some.injEq, Prod.mk.injEq] at h
    obtain ⟨-, rfl⟩ := h
    simp only [weight, weightOf]
    omega
  · split at h <;> simp only [Option.some.injEq, Prod.mk.injEq] at h <;> obtain ⟨-, rfl⟩ := h
    · simp only [weight, weightOf, Branch.size]
      omega
    · simp only [weight, weightOf, weightOf_append, weightOf_map_visit, Branch.size]
      omega

theorem weightOf_dropWhile_le (p : WalkStep → Bool) (l : List WalkStep) :
    weightOf (l.dropWhile p) ≤ weightOf l := by
  induction l with
  | nil => simp
  | cons s l ih =>
    simp only [List.dropWhile_cons]
    split
    · cases s <;> simp only [weightOf] <;> omega
    · exact Nat.le_refl _

theorem weight_skipToExit_next {f : Forest} {w v : Walk} {x : NodeId}
    (h : w.next? f = some (.enter x, v)) : (v.skipToExit x).weight < w.weight := by
  unfold skipToExit
  by_cases hany : v.todo.any (isLeaving x)
  · rw [if_pos hany]
    exact Nat.lt_of_le_of_lt (weightOf_dropWhile_le _ _) (weight_next h)
  · rw [if_neg hany]
    unfold next? at h
    split at h
    · simp at h
    · simp at h
    · rename_i y bs rest
      have := Branch.size_pos (.node y bs)
      split at h <;> simp only [Option.some.injEq, Prod.mk.injEq, WalkEvent.enter.injEq] at h <;>
        obtain ⟨rfl, rfl⟩ := h
      · simp only [weight, weightOf]
        omega
      · simp [isLeaving] at hany

/-- All that a walk meets, if it skips from every node of `skip` to leaving it. -/
def events (f : Forest) (skip : NodeId → Bool) (w : Walk) : List WalkEvent :=
  match _h : w.next? f with
  | none => []
  | some (.exit x, v) => .exit x :: events f skip v
  | some (.enter x, v) => .enter x :: events f skip (if skip x then v.skipToExit x else v)
termination_by w.weight
decreasing_by
  · exact weight_next _h
  · split
    · exact weight_skipToExit_next _h
    · exact weight_next _h

end Walk

namespace Forest

/-- All that the walk over a node meets. -/
def walk (f : Forest) (skip : NodeId → Bool) (x : NodeId) : List WalkEvent :=
  (Walk.start f x).events f skip

end Forest

end MarkdownForest
