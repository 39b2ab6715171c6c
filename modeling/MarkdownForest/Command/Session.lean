/-
# MarkdownForest.Command.Session -- a machine in memory

A session keeps the files as a tree, and what was printed.

A path is followed part by part from the root of the tree.  An empty part or a
single dot stays in a folder, and two dots go back to the folder above; nothing
but a folder can be left in this way.
-/
import MarkdownForest.Command.Machine

namespace MarkdownForest.Command

set_option autoImplicit false

/-- Files with their bytes. -/
abbrev Disk := FileTree (List UInt8)

namespace Disk

/-- The location that one part of a path leads to. -/
def follow (d : Disk) (location : List String) (part : String) :
    Except FileError (List String) :=
  match d.get? location with
  | some (.folder entries) =>
    if part = "" ∨ part = "." then .ok location
    else if part = ".." then .ok location.dropLast
    else if (entries.lookup part).isSome then .ok (location ++ [part])
    else .error .notFound
  | _ => .error .notFolder

/-- The location that the parts of a path lead to. -/
def locate (d : Disk) (parts : List String) : Except FileError (List String) :=
  parts.foldlM d.follow []

/-- What is at a path. -/
def find? (d : Disk) (path : String) : Option Disk :=
  match d.locate (Path.parts path) with
  | .ok location => d.get? location
  | .error _ => none

def read (d : Disk) (path : String) : Except FileError (List UInt8) := do
  match d.get? (← d.locate (Path.parts path)) with
  | some (.file bytes) => return bytes
  | _ => throw .isFolder

/-- The location of the folder above the last part of a path. -/
def above (d : Disk) (parts : List String) : Except FileError (List String) := do
  let location ← d.locate parts.dropLast
  match d.get? location with
  | some (.folder _) => return location
  | _ => throw .notFolder

/-- Whether a part of a path is no name. -/
def isStep (part : String) : Bool :=
  part == "" || part == "." || part == ".."

def write (d : Disk) (path : String) (bytes : List UInt8) : Except FileError Disk := do
  let parts := Path.parts path
  let location ← d.above parts
  let name := parts.getLastD ""
  if isStep name then throw .isFolder
  match d.get? (location ++ [name]) with
  | some (.folder _) => throw .isFolder
  | _ => return FileTree.put (.file bytes) (location ++ [name]) d

/-- Makes one folder. -/
def makeFolder (d : Disk) (path : String) : Except FileError Disk := do
  let parts := ((Path.parts path).reverse.dropWhile (· == "")).reverse
  let location ← d.above parts
  let name := parts.getLastD ""
  if isStep name || (d.get? (location ++ [name])).isSome then throw .alreadyExists
  return FileTree.put (.folder []) (location ++ [name]) d

end Disk

structure Session where
  disk : Disk := .folder []
  /-- What was printed. -/
  output : String := ""
  /-- What was printed on errors. -/
  errors : String := ""

namespace Session

/-- Changes the disk, or leaves it as it is. -/
def change (edit : Disk → Except FileError Disk) : StateM Session (Except FileError Unit) := do
  let s ← get
  match edit s.disk with
  | .ok disk =>
    set { s with disk }
    return .ok ()
  | .error e => return .error e

instance : Machine (StateM Session) where
  readFile path := return (← get).disk.read path
  writeFile path text := change fun d => d.write path text.toUTF8.toList
  makeFolder path := change fun d => d.makeFolder path
  isFolder? path := return ((← get).disk.find? path).map (·.isFolder)
  survey path := do
    match (← get).disk.find? path with
    | some t => return t.map fun _ => ()
    | none => return .folder []
  print text := modify fun s => { s with output := s.output ++ text }
  printError text := modify fun s => { s with errors := s.errors ++ text }

end Session

end MarkdownForest.Command
