/-
# MarkdownForest.Forest.Branch -- nodes with those below them

A branch is a node with the branches below it.  A branch carries ids only; what
the nodes hold is kept in the forest.

* `Branch.ids` has each node before those below it;
* `Branch.freeOrder` is the order in which the nodes of a branch are freed.

Each function has a companion for lists of branches.
-/
import MarkdownForest.Forest.Node

namespace MarkdownForest

set_option autoImplicit false

inductive Branch where
  | node (id : NodeId) (children : List Branch)
  deriving Repr, Inhabited

namespace Branch

def id : Branch → NodeId
  | node i _ => i

def children : Branch → List Branch
  | node _ bs => bs

/-! ## Reading -/

mutual
/-- The nodes of a branch, each before those below it. -/
def ids : Branch → List NodeId
  | node i bs => i :: idsList bs

def idsList : List Branch → List NodeId
  | [] => []
  | b :: bs => b.ids ++ idsList bs
end

mutual
/-- The number of nodes. -/
def size : Branch → Nat
  | node _ bs => 1 + sizeList bs

def sizeList : List Branch → Nat
  | [] => 0
  | b :: bs => b.size + sizeList bs
end

mutual
/-- The nodes in the order in which they are freed: each before those below it, and the children
of a node from the last to the first. -/
def freeOrder : Branch → List NodeId
  | node i bs => i :: freeOrderList bs

def freeOrderList : List Branch → List NodeId
  | [] => []
  | b :: bs => freeOrderList bs ++ b.freeOrder
end

/-! ## Sizes -/

mutual
theorem length_ids : (b : Branch) → b.ids.length = b.size
  | node _ bs => by simp [ids, size, length_idsList bs, Nat.add_comm]

theorem length_idsList : (bs : List Branch) → (idsList bs).length = sizeList bs
  | [] => rfl
  | b :: bs => by simp [idsList, sizeList, length_ids b, length_idsList bs]
end

mutual
theorem freeOrder_perm : (b : Branch) → b.freeOrder.Perm b.ids
  | node i bs => (freeOrderList_perm bs).cons i

theorem freeOrderList_perm : (bs : List Branch) → (freeOrderList bs).Perm (idsList bs)
  | [] => .nil
  | b :: bs =>
    ((freeOrderList_perm bs).append b.freeOrder_perm).trans List.perm_append_comm
end

theorem size_pos (b : Branch) : 0 < b.size := by
  cases b; simp only [size]; omega

end Branch

end MarkdownForest
