/-
# MarkdownForest.Command.Path -- paths as texts

A path is names between slashes.  Paths are put together and taken apart as
texts, without a look at the files; an absolute path stands for itself wherever
it is put.
-/

namespace MarkdownForest.Command.Path

set_option autoImplicit false

/-- The parts of a text between slashes. -/
def split : List Char → List (List Char)
  | [] => [[]]
  | c :: s =>
    if c = '/' then [] :: split s
    else
      match split s with
      | part :: parts => (c :: part) :: parts
      | [] => [[c]]

/-- The parts of a path, empty ones included. -/
def parts (path : String) : List String :=
  (split path.toList).map String.ofList

def isAbsolute (path : String) : Bool :=
  path.toList.head? = some '/'

/-- A path seen from a base. -/
def join (base path : String) : String :=
  if isAbsolute path || base.isEmpty then path
  else if base.toList.getLast? = some '/' then base ++ path
  else base ++ "/" ++ path

/-- A reversed path without the slashes, and the dots for the same folder, at its end. -/
def dropTail : List Char → List Char
  | '/' :: s => dropTail s
  | '.' :: '/' :: s => dropTail s
  | s => s

/-- The path without its last name; the root has none. -/
def parent? (path : String) : Option String :=
  match dropTail path.toList.reverse with
  | [] => none
  | reversed =>
    match dropTail (reversed.dropWhile (· != '/')) with
    | [] => some (if isAbsolute path then "/" else "")
    | above => some (String.ofList above.reverse)

/-- The last name of a path. -/
def fileName (path : String) : String :=
  (parts path).getLastD ""

/-- The end of the name of a source. -/
def sourceEnd : List Char := ['.', 'm', 'd']

/-- Whether a name is that of a source; something has to stand before the end. -/
def isSource (name : String) : Bool :=
  sourceEnd.isSuffixOf name.toList && sourceEnd.length < name.toList.length

/-- The path of a source with another end. -/
def withEnd (path : String) (newEnd : String) : String :=
  String.ofList (path.toList.take (path.toList.length - sourceEnd.length)) ++ "." ++ newEnd

end MarkdownForest.Command.Path
