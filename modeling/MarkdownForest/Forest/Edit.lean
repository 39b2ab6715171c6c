/-
# MarkdownForest.Forest.Edit -- making, moving and freeing nodes

A node is put under a parent, or beside an anchor that has a parent.  An edit is
checked in full before anything changes:

* both nodes are live, and they differ;
* the node moved is not above the place it goes to (`EditError.cycle`);
* the parent may contain it (`Kind.canContain`).

A move takes the node out of its row of siblings (`Forest.detach`) and then puts
it between two neighbours of the row it goes to (`Forest.attach`).  The
neighbours are read in between, since taking the node out may have changed them.
What is below the node comes along.

A link that led to a node that is not live would make an edit fail halfway.
-/
import MarkdownForest.Forest.Basic

namespace MarkdownForest.Forest

set_option autoImplicit false

/-- Makes a node, as a root. -/
def newNode (f : Forest) (content : Content) : NodeId × Forest :=
  let (x, nodes) := f.nodes.alloc { content }
  (x, { f with nodes, allocated := f.allocated + 1 })

/-! ## Checks -/

/-- Checks that `child` may become a child of `parent`. -/
def checkChild (f : Forest) (parent child : NodeId) : Except ForestError Unit := do
  let parentKind ← f.kind parent
  let childKind ← f.kind child
  if parent = child then throw (.edit .sameNode)
  if child ∈ f.ancestors parent then throw (.edit .cycle)
  if !parentKind.canContain childKind then throw (.edit (.cannotContain parentKind childKind))

/-- Checks that `node` may become a sibling of `anchor`, and finds the parent. -/
def checkSibling (f : Forest) (anchor node : NodeId) : Except ForestError NodeId := do
  let _ ← f.node node
  match ← f.parent anchor with
  | none => throw (.edit .detached)
  | some parent =>
    if anchor = node then throw (.edit .sameNode)
    f.checkChild parent node
    return parent

/-! ## Moves -/

/-- Takes a node out of its row of siblings and makes it a root; a root stays as it is. -/
def detach (f : Forest) (x : NodeId) : Except ForestError Forest := do
  let n ← f.node x
  let f ← f.updateAt n.previous ({ · with next := n.next })
  let f ← f.updateAt n.next ({ · with previous := n.previous })
  let f ← f.updateAt n.parent fun p =>
    { p with
      firstChild := if p.firstChild = some x then n.next else p.firstChild
      lastChild := if p.lastChild = some x then n.previous else p.lastChild }
  f.update x ({ · with parent := none, previous := none, next := none, ownership := .root })

/-- Puts a root between two neighbours in the row below `parent`; no neighbour is the end of the
row. -/
def attach (f : Forest) (parent : NodeId) (previous next : Option NodeId) (x : NodeId) :
    Except ForestError Forest := do
  let f ← f.update x ({ · with parent := some parent, previous, next, ownership := .attached })
  let f ← match previous with
    | some y => f.update y ({ · with next := some x })
    | none => f.update parent ({ · with firstChild := some x })
  match next with
  | some y => f.update y ({ · with previous := some x })
  | none => f.update parent ({ · with lastChild := some x })

def appendChild (f : Forest) (parent child : NodeId) : Except ForestError Forest := do
  f.checkChild parent child
  let f ← f.detach child
  f.attach parent (← f.lastChild parent) none child

def prependChild (f : Forest) (parent child : NodeId) : Except ForestError Forest := do
  f.checkChild parent child
  let f ← f.detach child
  f.attach parent none (← f.firstChild parent) child

def insertBefore (f : Forest) (anchor node : NodeId) : Except ForestError Forest := do
  let parent ← f.checkSibling anchor node
  let f ← f.detach node
  f.attach parent (← f.previous anchor) (some anchor) node

def insertAfter (f : Forest) (anchor node : NodeId) : Except ForestError Forest := do
  let parent ← f.checkSibling anchor node
  let f ← f.detach node
  f.attach parent (some anchor) (← f.next anchor) node

/-- Makes a node a root; a root stays as it is. -/
def unlink (f : Forest) (x : NodeId) : Except ForestError Forest :=
  f.detach x

/-! ## Freeing -/

/-- The forest without a node; links that lead to it stay. -/
def without (f : Forest) (x : NodeId) : Forest :=
  { f with nodes := f.nodes.erase x }

/-- Frees the nodes on a stack and what is below them, and counts them.  The children of a node
freed go on the stack, the last one on top. -/
def release (f : Forest) (stack : List NodeId) : Nat × Forest :=
  match stack with
  | [] => (0, f)
  | x :: stack =>
    match _h : f.nodes.get? x with
    | none => f.release stack
    | some n =>
      let g := f.without x
      let (count, h) := g.release ((g.onward n.firstChild).reverse ++ stack)
      (count + 1, h)
termination_by (f.nodes.size, stack.length)
decreasing_by
  · exact Prod.Lex.right _ (by simp)
  · have := Arena.size_erase (Arena.contains_iff.mpr ⟨n, _h⟩)
    exact Prod.Lex.left _ _ (by simp only [without]; omega)

/-- Frees a live node and what is below it, and counts them. -/
def freeSubtree (f : Forest) (x : NodeId) : Except ForestError (Nat × Forest) := do
  let f ← f.detach x
  let (count, f) := f.release [x]
  return (count, { f with freed := f.freed + count })

/-- Frees a node and what is below it, and counts them; a node that is not live frees nothing. -/
def erase (f : Forest) (x : NodeId) : Nat × Forest :=
  match f.freeSubtree x with
  | .ok freed => freed
  | .error _ => (0, f)

end MarkdownForest.Forest
