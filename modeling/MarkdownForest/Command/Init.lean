/-
# MarkdownForest.Command.Init -- beginning a project

A project begins with a settings file, a folder for sources, and an example in
it.  A folder or an example that is there is kept, and so is a settings file
unless it may be overwritten.
-/
import MarkdownForest.Command.Project
import MarkdownForest.Command.Request

namespace MarkdownForest.Command

set_option autoImplicit false

variable {m : Type → Type} [Monad m] [Machine m]

/-- The example that a project begins with. -/
def exampleDocument : String :=
  "# Welcome

This is an *example* document rendered by **mdtree**.

- Edit the files under this directory
- Run `mdtree compile`

```sh
mdtree tree example.md
```
"

/-- The targets that a project can begin with. -/
def initTargets : List String := ["html", "markdown"]

def initProject (here : String) (r : InitRequest) : ExceptT CommandError m Unit := do
  let print (text : String) : ExceptT CommandError m Unit := Machine.print (m := m) text
  if !initTargets.contains r.target then throw (.unknownTarget r.target)
  let projectPath := Path.join here projectFile
  if (← Machine.exists? (m := m) projectPath) && !r.force then
    print ("⚠️ " ++ projectFile ++ " already exists\n")
    print "Use --force to overwrite\n"
  else
    print "📝 Initializing mdtree project...\n"
    let sourceDir := Path.join here r.sourceDir
    if !(← Machine.exists? (m := m) sourceDir) then
      orFail (m := m) (Machine.makeFolders sourceDir)
      print ("  ✓ Created " ++ r.sourceDir ++ "/\n")
    let examplePath := Path.join sourceDir "example.md"
    if !(← Machine.exists? (m := m) examplePath) then
      orFail (m := m) (Machine.writeFile examplePath exampleDocument)
      print "  ✓ Created example.md\n"
    let project : Project := { sourceDir := r.sourceDir, target := r.target }
    orFail (m := m) (Machine.writeFile projectPath project.toJson.pretty)
    print ("  ✓ Created " ++ projectFile ++ "\n\n")
    print "✅ Project initialized!\n\n"
    print "Next steps:\n"
    print ("  1. Edit " ++ r.sourceDir ++ "/example.md\n")
    print "  2. Run: mdtree compile\n"
    print ("  3. Check output in " ++ project.outputDir ++ "/\n")

end MarkdownForest.Command
