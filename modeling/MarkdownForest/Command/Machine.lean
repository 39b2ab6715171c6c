/-
# MarkdownForest.Command.Machine -- what commands can do

A machine reads and writes files, makes and surveys folders, and prints.  The
commands run on any machine (`Machine`): on the real one, and on one in memory
(`MarkdownForest.Command.Session`).
-/
import MarkdownForest.Command.FileTree
import MarkdownForest.Command.Path

namespace MarkdownForest.Command

set_option autoImplicit false

/-- Why a file could not be used. -/
inductive FileError where
  | notFound
  | alreadyExists
  | notFolder
  | isFolder
  | notText
  | other (message : String)
  deriving DecidableEq, Repr

def FileError.message : FileError → String
  | notFound => "No such file or directory (os error 2)"
  | alreadyExists => "File exists (os error 17)"
  | notFolder => "Not a directory (os error 20)"
  | isFolder => "Is a directory (os error 21)"
  | notText => "stream did not contain valid UTF-8"
  | other message => message

class Machine (m : Type → Type) where
  readFile : String → m (Except FileError (List UInt8))
  writeFile : String → String → m (Except FileError Unit)
  /-- Makes one folder, in one that is there. -/
  makeFolder : String → m (Except FileError Unit)
  /-- Whether something is at a path, and whether it is a folder. -/
  isFolder? : String → m (Option Bool)
  /-- What is at a path, without the contents of files. -/
  survey : String → m (FileTree Unit)
  print : String → m Unit
  printError : String → m Unit

namespace Machine

variable {m : Type → Type} [Monad m] [Machine m]

def exists? (path : String) : m Bool :=
  return (← isFolder? path).isSome

def isFolder (path : String) : m Bool :=
  return (← isFolder? path) = some true

/-- Makes a folder and those above it, in at most `steps` steps. -/
def makeFoldersIn : Nat → String → m (Except FileError Unit)
  | 0, _ => return .error .notFound
  | steps + 1, path => do
    if path.isEmpty then return .ok ()
    match ← makeFolder path with
    | .ok () => return .ok ()
    | .error .notFound =>
      match Path.parent? path with
      | none => return .error .notFound
      | some above =>
        match ← makeFoldersIn steps above with
        | .error e => return .error e
        | .ok () =>
          match ← makeFolder path with
          | .ok () => return .ok ()
          | .error e => return if ← isFolder path then .ok () else .error e
    | .error e => return if ← isFolder path then .ok () else .error e

/-- Makes a folder and those above it; one that is there is fine. -/
def makeFolders (path : String) : m (Except FileError Unit) :=
  makeFoldersIn (path.length + 1) path

end Machine

end MarkdownForest.Command
