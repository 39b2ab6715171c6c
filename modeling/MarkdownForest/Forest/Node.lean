/-
# MarkdownForest.Forest.Node -- the records of nodes

The record of a node holds its content, whether it is a root, and five links:
to its parent, to its first and last child, and to the siblings next to it.  The
other children of a node are found from the first one by going from sibling to
sibling.

Nothing in a record keeps its links from contradicting those of other records.
That they never do is an invariant of the edits (`MarkdownForest.Forest.Edit`).
-/
import MarkdownForest.Arena
import MarkdownForest.Content
import MarkdownForest.Ownership

namespace MarkdownForest

set_option autoImplicit false

/-- The key of a node in a forest. -/
abbrev NodeId := Key Content

structure Node where
  content : Content
  ownership : Ownership := .root
  parent : Option NodeId := none
  firstChild : Option NodeId := none
  lastChild : Option NodeId := none
  next : Option NodeId := none
  previous : Option NodeId := none
  deriving DecidableEq, Repr, Inhabited

end MarkdownForest
