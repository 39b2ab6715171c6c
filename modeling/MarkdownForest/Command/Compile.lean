/-
# MarkdownForest.Command.Compile -- compiling the sources of a project

The sources are found first, and then compiled one after the other in one
workspace.  A source that fails is reported, and the others go on.
-/
import MarkdownForest.Command.Project
import MarkdownForest.Command.Request

namespace MarkdownForest.Command

set_option autoImplicit false

variable {m : Type → Type} [Monad m] [Machine m]

/-- A source that was found. -/
structure Source where
  path : String
  /-- The path seen from where the search began. -/
  shown : String
  deriving DecidableEq, Repr

/-- The sources in what was found at a path. -/
def sourcesIn (path : String) : FileTree Unit → List Source
  | .file _ =>
    let name := Path.fileName path
    if Path.isSource name then [⟨path, name⟩] else []
  | t =>
    (t.files.filter fun names => Path.isSource (names.getLastD "")).map fun names =>
      ⟨names.foldl Path.join path, "/".intercalate names⟩

/-- How sources are compiled. -/
structure CompilePlan where
  target : Target
  stdout : Bool
  outputDir : String

/-- What became of the sources so far. -/
structure CompileTally where
  workspace : Workspace
  succeeded : Nat := 0
  failed : Nat := 0

/-- Brings out what a source was compiled to, and tells where it went. -/
def deliver (plan : CompilePlan) (s : Source) (output : String) :
    ExceptT CommandError m String := do
  if plan.stdout then
    Machine.print (m := m) (output ++ "\n")
    return "stdout"
  else
    let path := Path.withEnd (Path.join plan.outputDir s.shown) plan.target.fileEnd
    match Path.parent? path with
    | some folder => orFail (m := m) (Machine.makeFolders folder)
    | none => pure ()
    orFail (m := m) (Machine.writeFile path output)
    return path

/-- Compiles a source and brings it out. -/
def compileOne (plan : CompilePlan) (ws : Workspace) (s : Source) :
    m (Except CommandError String × Workspace) := do
  match ← Machine.readFile (m := m) s.path with
  | .error e => return (.error (.file e), ws)
  | .ok bytes =>
    match compileSource ws plan.target (Path.fileName s.path) bytes with
    | (.error e, ws) => return (.error e, ws)
    | (.ok output, ws) => return (← (deliver plan s output).run, ws)

/-- Compiles one more source. -/
def compileNext (plan : CompilePlan) (t : CompileTally) (s : Source) : m CompileTally := do
  let (result, ws) ← compileOne plan t.workspace s
  let t := { t with workspace := tidy ws }
  match result with
  | .ok place =>
    Machine.print ("  ✓ " ++ s.shown ++ " → " ++ place ++ "\n")
    return { t with succeeded := t.succeeded + 1 }
  | .error e =>
    Machine.printError ("  ✗ " ++ s.shown ++ " - " ++ e.message ++ "\n")
    return { t with failed := t.failed + 1 }

/-- Compiles sources one after the other, and clears the workspace. -/
def compileAll (plan : CompilePlan) (settings : Settings) (sources : List Source) :
    m CompileTally := do
  let t ← sources.foldlM (compileNext plan) { workspace := { settings } }
  return { t with workspace := clear t.workspace }

/-- The last line on what became of the sources. -/
def CompileTally.summary (t : CompileTally) : String :=
  if t.failed = 0 then "✅ Compiled " ++ toString t.succeeded ++ " files successfully\n"
  else "⚠️ Compiled " ++ toString t.succeeded ++ " files, " ++ toString t.failed ++ " errors\n"

/-- The settings of a project with those that a request adds. -/
def compileSettings (project : Project) (r : CompileRequest) : Settings :=
  let s := project.settings
  { s with
    parse := { s.parse with smart := s.parse.smart || r.smart }
    render := { s.render with safe := s.render.safe || r.safe } }

def compileProject (here : String) (r : CompileRequest) : ExceptT CommandError m Unit := do
  let print (text : String) : ExceptT CommandError m Unit := Machine.print (m := m) text
  let project ← loadProject here
  let targetName := r.target.getD project.target
  match Target.ofName? targetName with
  | none => throw (.unknownTarget targetName)
  | some target =>
    let path := Path.join here (r.path.getD project.sourceDir)
    if !(← Machine.exists? (m := m) path) then throw (.missingSource path)
    print "🔨 Compiling markdown files...\n"
    match sourcesIn path (← Machine.survey (m := m) path) with
    | [] => print "⚠️  No .md files found\n"
    | sources =>
      print ("Found " ++ toString sources.length ++ " files\n")
      let plan : CompilePlan := {
        target
        stdout := r.stdout
        outputDir := Path.join here (r.outputDir.getD project.outputDir) }
      let tally ← (compileAll plan (compileSettings project r) sources : m CompileTally)
      print ("\n" ++ tally.summary)

end MarkdownForest.Command
