/-
# MarkdownForest.Forest.Plant -- documents read into a forest

A tree is planted by making its nodes, each before those below it, and appending
each to its parent once all below it is in place.  A source is read by planting
what was made of it; if the reading failed, all of that is freed again, so that
no node stays (`Forest.read`).
-/
import MarkdownForest.Document
import MarkdownForest.Forest.Edit

namespace MarkdownForest.Forest

set_option autoImplicit false

/-- Appends a child; one that the parent may not contain stays a root. -/
def place (f : Forest) (parent child : NodeId) : Forest :=
  match f.appendChild parent child with
  | .ok g => g
  | .error _ => f

mutual
/-- Makes a tree, its root a root of the forest. -/
def plant (f : Forest) : Tree → NodeId × Forest
  | .node c ts =>
    let (x, f) := f.newNode c
    (x, plantBelow f x ts)

/-- Makes trees and appends them to the children of a node. -/
def plantBelow (f : Forest) (x : NodeId) : List Tree → Forest
  | [] => f
  | t :: ts =>
    let (y, f) := f.plant t
    plantBelow (f.place x y) x ts
end

/-- Reads a source into the forest.  The forest changes also when the reading fails: the nodes made
until then have come and gone. -/
def read (f : Forest) (o : ParseOptions) (source : String) : Except ParseError NodeId × Forest :=
  let parsed := readSource o source.toList
  let (x, g) := f.plant parsed.documentMade
  match parsed.error? with
  | none => (.ok x, g)
  | some e => (.error e, (g.erase x).2)

end MarkdownForest.Forest
