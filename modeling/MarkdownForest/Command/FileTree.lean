/-
# MarkdownForest.Command.FileTree -- folders and files

A file tree is a file with its content, or a folder of named entries.  A
location is the list of names that leads to an entry from the root.

`FileTree.files` lists the files as they are visited: a folder's entries in the
order of their names, and what is in a folder before the entry after it.
-/

namespace MarkdownForest.Command

set_option autoImplicit false

inductive FileTree (α : Type) where
  | file (content : α)
  | folder (entries : List (String × FileTree α))
  deriving Inhabited

namespace FileTree

variable {α β : Type}

def isFolder : FileTree α → Bool
  | folder _ => true
  | file _ => false

/-- The entry of a name. -/
def entry? (name : String) : FileTree α → Option (FileTree α)
  | folder entries => entries.lookup name
  | file _ => none

/-- What is at a location. -/
def get? (t : FileTree α) : List String → Option (FileTree α)
  | [] => some t
  | name :: names => (t.entry? name).bind (·.get? names)

/-- Puts something at a location, in place of what was there. -/
def put (new : FileTree α) : List String → FileTree α → FileTree α
  | [], _ => new
  | name :: names, t =>
    let entries := match t with
      | folder entries => entries
      | file _ => []
    match entries.lookup name with
    | some old =>
      folder (entries.map fun e => if e.1 = name then (name, put new names old) else e)
    | none => folder (entries ++ [(name, put new names (folder []))])

mutual
/-- The tree with its contents changed. -/
def map (f : α → β) : FileTree α → FileTree β
  | file c => file (f c)
  | folder entries => folder (mapEntries f entries)

def mapEntries (f : α → β) : List (String × FileTree α) → List (String × FileTree β)
  | [] => []
  | (name, t) :: entries => (name, t.map f) :: mapEntries f entries
end

mutual
/-- The tree with the entries of each folder in the order of their names. -/
def sort : FileTree α → FileTree α
  | file c => file c
  | folder entries => folder ((sortEntries entries).mergeSort fun a b => decide (a.1 ≤ b.1))

def sortEntries : List (String × FileTree α) → List (String × FileTree α)
  | [] => []
  | (name, t) :: entries => (name, t.sort) :: sortEntries entries
end

mutual
/-- The locations of the files, in the order of the entries. -/
def locations : FileTree α → List (List String)
  | file _ => [[]]
  | folder entries => entryLocations entries

def entryLocations : List (String × FileTree α) → List (List String)
  | [] => []
  | (name, t) :: entries => t.locations.map (name :: ·) ++ entryLocations entries
end

/-- The locations of the files as they are visited. -/
def files (t : FileTree α) : List (List String) :=
  t.sort.locations

end FileTree

end MarkdownForest.Command
