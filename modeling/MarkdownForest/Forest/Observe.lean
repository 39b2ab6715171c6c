/-
# MarkdownForest.Forest.Observe -- nodes of a forest as trees and as CommonMark

A node is observed as the tree of what it and the nodes below it show
(`Content.visible`), without ids.  Its CommonMark is that of the tree, written
as if the node's next sibling followed.
-/
import MarkdownForest.CommonMark.Writer
import MarkdownForest.Forest.Basic

namespace MarkdownForest.Forest

set_option autoImplicit false

/-- The content of a live node. -/
def contentAt (f : Forest) (x : NodeId) : Content :=
  ((f.nodes.get? x).map (·.content)).getD .document

mutual
/-- The tree that a branch shows. -/
def treeOf (f : Forest) : Branch → Tree
  | .node x bs => .node (f.contentAt x).visible (treesOf f bs)

def treesOf (f : Forest) : List Branch → List Tree
  | [] => []
  | b :: bs => treeOf f b :: treesOf f bs
end

/-- The tree that a live node shows. -/
def tree? (f : Forest) (x : NodeId) : Option Tree :=
  (f.branch? x).map (treeOf f)

def snapshot (f : Forest) (x : NodeId) : Except ForestError Tree :=
  match f.tree? x with
  | some t => .ok t
  | none => .error (.stale x)

/-- A node as CommonMark. -/
def commonMark (f : Forest) (x : NodeId) : Except ForestError String := do
  let next := (← f.next x).bind f.tree?
  return CommonMark.writeBefore next (← f.snapshot x)

end MarkdownForest.Forest
