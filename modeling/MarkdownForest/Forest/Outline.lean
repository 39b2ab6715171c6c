/-
# MarkdownForest.Forest.Outline -- nodes of a forest, one on a line

The outline of a node has a line for it and for each node below it, in the order
of a walk.  A line is indented by two spaces for each level, and shows the kind
and the content; strings are quoted, so a line never breaks.
-/
import MarkdownForest.Forest.Observe
import MarkdownForest.Forest.Walk
import MarkdownForest.Text.Quoted

namespace MarkdownForest.Forest

set_option autoImplicit false

open Text

/-- A string in quotes. -/
def quotedText (s : String) : String :=
  String.ofList (quoted s.toList)

/-- What a line shows after the kind. -/
def details : Content → String
  | .text literal | .code literal | .html literal | .inlineHtml literal => " " ++ quotedText literal
  | .codeBlock info literal => " info=" ++ quotedText info ++ " " ++ quotedText literal
  | .header level => " level=" ++ toString level
  | .list type start tight =>
    " " ++ type.symbol ++ (if type = .ordered then " start=" ++ toString start else "") ++
      " tight=" ++ (if tight then "true" else "false")
  | .link url title | .image url title =>
    " url=" ++ quotedText url ++ (if title.isEmpty then "" else " title=" ++ quotedText title)
  | _ => ""

/-- The line of a node `depth` levels down, without its end. -/
def outlineLine (depth : Nat) (c : Content) : String :=
  String.ofList (List.replicate (2 * depth) ' ') ++ c.kind.symbol ++ details c

/-- The lines of walk events, from a depth on. -/
def outlineLines (f : Forest) (depth : Nat) : List WalkEvent → List String
  | [] => []
  | .enter x :: events =>
    let c := f.contentAt x
    outlineLine depth c :: outlineLines f (if c.kind.isLeaf then depth else depth + 1) events
  | .exit _ :: events => outlineLines f (depth - 1) events

/-- The outline of a node. -/
def outline (f : Forest) (x : NodeId) : Except ForestError String := do
  let _ ← f.content x
  let lines := outlineLines f 0 (f.walk (fun _ => false) x)
  return String.join (lines.map (· ++ "\n"))

end MarkdownForest.Forest
