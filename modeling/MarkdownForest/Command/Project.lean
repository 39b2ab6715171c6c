/-
# MarkdownForest.Command.Project -- the settings file of a project

The file lies in the folder where a command runs.  If there is none, the
settings are the default ones.
-/
import MarkdownForest.Command.Document
import MarkdownForest.Settings.Json

namespace MarkdownForest.Command

set_option autoImplicit false

variable {m : Type → Type} [Monad m] [Machine m]

/-- Turns a failed use of a file into a failure of the command. -/
def orFail {α : Type} (act : m (Except FileError α)) : ExceptT CommandError m α :=
  ExceptT.mk (Except.mapError .file <$> act)

/-- The name of the settings file. -/
def projectFile : String := "mdtree.config.json"

/-- The project that the bytes of a settings file describe. -/
def projectOfBytes (bytes : List UInt8) : Except CommandError Project := do
  match Text.decode bytes with
  | .error _ => throw (.file .notText)
  | .ok text =>
    match (Json.parse? text).bind Project.ofJson? with
    | some project => return project
    | none => throw .unreadableSettings

/-- The project of the folder `here`. -/
def loadProject (here : String) : ExceptT CommandError m Project := do
  let path := Path.join here projectFile
  if ← Machine.exists? (m := m) path then
    projectOfBytes (← orFail (m := m) (Machine.readFile path))
  else return {}

end MarkdownForest.Command
