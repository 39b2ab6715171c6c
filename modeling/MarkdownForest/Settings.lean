/-
# MarkdownForest.Settings -- the settings of a workspace and of a project

A workspace has settings for reading, for rendering and for collecting.  A
project has those, and says where its sources are, where its output goes, and
what that is.
-/
import MarkdownForest.Block.Build
import MarkdownForest.Html.Page

namespace MarkdownForest

set_option autoImplicit false

structure Settings where
  parse : ParseOptions := {}
  render : Html.RenderOptions := {}
  /-- The number of new wrappers at which a collection is due. -/
  gcThreshold : Nat := 1024
  deriving DecidableEq, Repr, Inhabited

structure Project where
  sourceDir : String := "src"
  outputDir : String := "dist"
  target : String := "html"
  settings : Settings := {}
  deriving DecidableEq, Repr, Inhabited

end MarkdownForest
