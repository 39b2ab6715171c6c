/-
# MarkdownForest.Forest.Html -- nodes of a forest as HTML

A node is rendered along a walk: what it meets is added to a page one event at a
time.  Images are written whole on entering, so the walk skips what is below
them; their description is read off a walk of its own.

Whether a paragraph is bare is looked up in the forest, so it may depend on a
list above the node rendered.
-/
import MarkdownForest.Forest.Observe
import MarkdownForest.Forest.Walk
import MarkdownForest.Html.Render

namespace MarkdownForest.Forest

set_option autoImplicit false

open Html

/-- Whether a node is a paragraph directly in an item of a tight list. -/
def isBare (f : Forest) (x : NodeId) : Bool :=
  f.contentAt x == .paragraph &&
    match (f.parent? x).bind f.parent? with
    | some list => isTightList (f.contentAt list)
    | none => false

/-- The text that a walk event adds to a description. -/
def plainEvent (f : Forest) : WalkEvent → List Char
  | .enter x => plainContent (f.contentAt x)
  | .exit _ => []

/-- The text of a node and what is below it, without markup. -/
def description (f : Forest) (x : NodeId) : List Char :=
  (f.walk (fun _ => false) x).flatMap f.plainEvent

def isImage (f : Forest) (x : NodeId) : Bool :=
  (f.contentAt x).kind == .image

/-- What a walk event adds to a page. -/
def renderEvent (f : Forest) (o : RenderOptions) (p : Page) : WalkEvent → Page
  | .enter x =>
    let alt := if f.isImage x then f.description x else []
    p.enter o (f.isBare x) alt (f.contentAt x)
  | .exit x => p.leave (f.isBare x) (f.contentAt x)

/-- A node as HTML. -/
def html (f : Forest) (o : RenderOptions) (x : NodeId) : Except ForestError String := do
  let _ ← f.content x
  let page := (f.walk f.isImage x).foldl (f.renderEvent o) {}
  return String.ofList page.text

end MarkdownForest.Forest
