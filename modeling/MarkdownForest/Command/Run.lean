/-
# MarkdownForest.Command.Run -- running a command line

A command line that cannot be read ends with code 2, a command that fails with
code 1, and any other with code 0.
-/
import MarkdownForest.Command.Compile
import MarkdownForest.Command.Init
import MarkdownForest.Command.ShowTree

namespace MarkdownForest.Command

set_option autoImplicit false

variable {m : Type → Type} [Monad m] [Machine m]

/-- Carries out a request in the folder `here`. -/
def perform (here : String) : Request → ExceptT CommandError m Unit
  | .init r => initProject here r
  | .compile r => compileProject here r
  | .tree r => showTree here r

/-- Runs a command line in the folder `here`, and gives its exit code. -/
def run (here : String) (arguments : List String) : m Nat := do
  match Request.ofArguments? arguments with
  | none =>
    Machine.printError "Usage: mdtree <init|compile|tree> [OPTIONS] [PATH]\n"
    return 2
  | some request =>
    match ← (perform here request : ExceptT CommandError m Unit).run with
    | .ok () => return 0
    | .error e =>
      Machine.printError ("\nError: " ++ e.message ++ "\n\n")
      return 1

end MarkdownForest.Command
