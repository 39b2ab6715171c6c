/-
# MarkdownForest.Main -- the command on the real machine

The files are those of the machine, and the command runs in the folder it was
started in.
-/
import MarkdownForest.Command.Run

namespace MarkdownForest.Main

set_option autoImplicit false

open Command

/-- The cause of a failed use of a file. -/
def fileError : IO.Error → FileError
  | .noFileOrDirectory .. | .noSuchThing .. => .notFound
  | .alreadyExists .. => .alreadyExists
  | .inappropriateType _ code _ => if code = 20 then .notFolder else .isFolder
  | e => .other (toString e)

def attempt {α : Type} (act : IO α) : IO (Except FileError α) := do
  try
    return .ok (← act)
  catch e => return .error (fileError e)

/-- What is at a path.  Folders nest as deep as they do on the machine. -/
partial def surveyAt (path : String) : IO (FileTree Unit) := do
  let there ← IO.FS.realPath path
  if ← there.isDir then
    let mut entries := []
    for e in ← there.readDir do
      entries := entries ++ [(e.fileName, ← surveyAt (Path.join path e.fileName))]
    return .folder entries
  else return .file ()

def folderAt? (path : String) : IO (Option Bool) := do
  match ← attempt (IO.FS.realPath path) with
  | .ok there => if ← there.pathExists then return some (← there.isDir) else return none
  | .error _ => return none

instance : Machine IO where
  readFile path := attempt do return (← IO.FS.readBinFile path).toList
  writeFile path text := attempt (IO.FS.writeFile path text)
  makeFolder path := attempt (IO.FS.createDir path)
  isFolder? := folderAt?
  survey := surveyAt
  print text := IO.print text
  printError text := IO.eprint text

/-- Runs a command line where the program was started. -/
def start (arguments : List String) : IO UInt32 := do
  let here ← IO.currentDir
  return (← run here.toString arguments).toUInt32

end MarkdownForest.Main

def main (arguments : List String) : IO UInt32 :=
  MarkdownForest.Main.start arguments
