/-
# MarkdownForest.Html.Render -- trees as HTML

A tree is rendered by recursion: enter the node, render its children, leave the
node.  The children of leaves and of images are not rendered.

Whether a paragraph is bare depends on the list two levels above it, which may
lie outside the tree rendered; `Place` carries what is known of the two levels.
-/
import MarkdownForest.Html.Page

namespace MarkdownForest.Html

set_option autoImplicit false

/-! ## Descriptions -/

mutual
/-- The text below a node without its markup, the node's own text included. -/
def plainText : Tree → List Char
  | .node c children => plainContent c ++ (if c.kind.isLeaf then [] else plainTexts children)

def plainTexts : List Tree → List Char
  | [] => []
  | t :: more => plainText t ++ plainTexts more
end

/-! ## Rendering -/

/-- Whether the node above, and the one above that, is a tight list. -/
structure Place where
  parentTight : Bool := false
  grandparentTight : Bool := false
  deriving DecidableEq, Repr

def isTightList : Content → Bool
  | .list _ _ tight => tight
  | _ => false

/-- The place of the children of a node at `q`. -/
def Place.below (q : Place) (c : Content) : Place :=
  ⟨isTightList c, q.parentTight⟩

mutual
/-- Adds a tree to a page. -/
def renderOnto (o : RenderOptions) (q : Place) (p : Page) : Tree → Page
  | .node c children =>
    let bare := q.grandparentTight
    match c.kind with
    | .image => p.enter o bare (plainTexts children) c
    | k =>
      if k.isLeaf then p.enter o bare [] c
      else (renderAllOnto o (q.below c) (p.enter o bare [] c) children).leave bare c

def renderAllOnto (o : RenderOptions) (q : Place) (p : Page) : List Tree → Page
  | [] => p
  | t :: more => renderAllOnto o q (renderOnto o q p t) more
end

/-- A tree at a place as HTML. -/
def renderAt (o : RenderOptions) (q : Place) (t : Tree) : String :=
  String.ofList (renderOnto o q {} t).text

/-- A tree as HTML. -/
def render (o : RenderOptions) (t : Tree) : String :=
  renderAt o {} t

end MarkdownForest.Html
