/-
# MarkdownForest.Command.ShowTree -- showing the tree of a source

The tree is shown as an outline or in JSON.  On request the document is let go,
and what the collection then does is shown too.
-/
import MarkdownForest.Command.Project
import MarkdownForest.Command.Request
import MarkdownForest.Forest.Outline
import MarkdownForest.Tree.Json

namespace MarkdownForest.Command

set_option autoImplicit false

variable {m : Type → Type} [Monad m] [Machine m]

/-- Turns a failure in a workspace into a failure of the command. -/
def inWorkspace {α : Type} (result : Except WorkspaceError α) : ExceptT CommandError m α :=
  ExceptT.mk (pure (result.mapError .workspace))

/-- The lines on a collection after a tree of `size` nodes was let go. -/
def statsText (size : Nat) (s : CollectStats) : String :=
  "\nGC\n" ++
  "  nodes:     " ++ toString size ++ "\n" ++
  "  marked:    " ++ toString s.marked ++ "\n" ++
  "  swept:     " ++ toString s.swept ++ "\n" ++
  "  finalized: " ++ toString s.finalized ++ "\n" ++
  "  freed:     " ++ toString s.freedNodes ++ "\n"

def showTree (here : String) (r : TreeRequest) : ExceptT CommandError m Unit := do
  let print (text : String) : ExceptT CommandError m Unit := Machine.print (m := m) text
  let project ← loadProject here
  let path := Path.join here r.file
  let bytes ← orFail (m := m) (Machine.readFile path)
  let (result, ws) := readDocument { settings := project.settings } (Path.fileName path) bytes
  let w ← ExceptT.mk (pure result)
  let ws ← inWorkspace (ws.root w)
  let x ← inWorkspace (ws.nodeOf w)
  if r.json then
    let t ← inWorkspace ((ws.forest.snapshot x).mapError .forest)
    print (t.toJson.pretty ++ "\n")
  else
    print (← inWorkspace ((ws.forest.outline x).mapError .forest))
  if r.stats then
    let size ← inWorkspace ((ws.forest.subtreeSize x).mapError .forest)
    let ws ← inWorkspace (ws.unroot w)
    match ws.collect with
    | .ok (stats, _) => print (statsText size stats)
    | .error _ => pure ()

end MarkdownForest.Command
