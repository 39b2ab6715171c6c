/-
# MarkdownForest.Inline.Build -- inlines as trees

Inlines become trees node for node.  With smart punctuation on, the literal of
every text node is made typographic on its own; code, raw HTML and targets are
left as they are.
-/
import MarkdownForest.Inline.Scan
import MarkdownForest.Text.Smart
import MarkdownForest.Tree

namespace MarkdownForest

set_option autoImplicit false

open Text

namespace Inline

mutual
/-- An inline as a tree. -/
def toTree (smart : Bool) : Inline → Tree
  | text s => .leaf (.text (String.ofList (if smart then smarten s else s)))
  | code s => .leaf (.code (String.ofList s))
  | html raw => .leaf (.inlineHtml (String.ofList raw))
  | softBreak => .leaf .softbreak
  | lineBreak => .leaf .linebreak
  | emph children => .node .emph (toTrees smart children)
  | strong children => .node .strong (toTrees smart children)
  | link url title children =>
    .node (.link (String.ofList url) (String.ofList title)) (toTrees smart children)
  | image url title children =>
    .node (.image (String.ofList url) (String.ofList title)) (toTrees smart children)

def toTrees (smart : Bool) : List Inline → List Tree
  | [] => []
  | i :: more => i.toTree smart :: toTrees smart more
end

theorem toTrees_eq_map (smart : Bool) (is : List Inline) :
    toTrees smart is = is.map (toTree smart) := by
  induction is with
  | nil => simp [toTrees]
  | cons i is ih => simp [toTrees, ih]

theorem kind_toTree_isInline (smart : Bool) (i : Inline) : (i.toTree smart).kind.isInline := by
  cases i <;> simp [toTree, Tree.leaf, Tree.kind, Tree.content, Content.kind, Kind.isInline,
    Kind.isBlock]

end Inline

/-- The inline trees of a text. -/
def inlineTrees (smart : Bool) (source : List Char) : List Tree :=
  Inline.toTrees smart (parseInlines source)

end MarkdownForest
