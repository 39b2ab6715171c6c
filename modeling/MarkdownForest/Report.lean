/-
# MarkdownForest.Report -- errors shown in the source

A report names the error, the file, and the line and column, and shows the line
with a mark under the place and a note beside the mark.  It is written with the
colour escapes of a terminal, each drawn character in its own.

The place counts characters from the beginning of the source.  The line is shown
without the white space at its end; tabs are spread to the next stop, and other
white space is drawn as a space.
-/
import MarkdownForest.Document
import MarkdownForest.Text.Width

namespace MarkdownForest.Report

set_option autoImplicit false

open Text

/-! ## Lines -/

/-- The characters that end a line. -/
def endsLine (c : Char) : Bool :=
  within [(0x0A, 0x0D), (0x85, 0x85), (0x2028, 0x2029)] c.toNat

/-- The lines of a source, each with what ends it. -/
def sourceLines : List Char → List (List Char)
  | [] => []
  | '\r' :: '\n' :: s => ['\r', '\n'] :: sourceLines s
  | c :: s =>
    if endsLine c then [c] :: sourceLines s
    else
      match sourceLines s with
      | line :: lines => (c :: line) :: lines
      | [] => [[c]]

/-- A place in a source. -/
structure Place where
  /-- The number of the line, from 0. -/
  line : Nat
  /-- The number of characters before the place in its line. -/
  column : Nat
  /-- The whole line. -/
  text : List Char

/-- The place of the character `offset` in lines from number `line` on.  The end of the source
belongs to the last line. -/
def locate? (offset line : Nat) : List (List Char) → Option Place
  | [] => none
  | [text] => if offset ≤ text.length then some ⟨line, offset, text⟩ else none
  | text :: more =>
    if offset < text.length then some ⟨line, offset, text⟩
    else locate? (offset - text.length) (line + 1) more

/-- The place of the character `offset` in a source. -/
def place? (source : List Char) (offset : Nat) : Option Place :=
  match sourceLines source with
  | [] => locate? offset 0 [[]]
  | lines => locate? offset 0 lines

/-! ## Drawing -/

/-- Text in a colour. -/
def colored (color : String) (s : String) : String :=
  "\x1b[" ++ color ++ "m" ++ s ++ "\x1b[0m"

def red : String := "31"

/-- The colour of the frame. -/
def frame : String := "38;5;246"

/-- The colour of the frame beside the mark. -/
def paleFrame : String := "38;5;240"

/-- The colour of the source around the mark. -/
def plain : String := "38;5;249"

def spaces (n : Nat) : String :=
  String.ofList (List.replicate n ' ')

/-- The number of times a text stands in a row. -/
def times (n : Nat) (s : String) : String :=
  String.join (List.replicate n s)

/-- The distance of tab stops. -/
def tabStop : Nat := 4

/-- The number of columns that a character takes when `column` characters are before it. -/
def cellWidth (column : Nat) (c : Char) : Nat :=
  if c = '\t' then tabStop - column % tabStop
  else if isSpace c then 1
  else columns c

/-- A character of the line as it is drawn. -/
def drawCell (marked column : Nat) (c : Char) : String :=
  let color := if column = marked then red else plain
  if isSpace c then times (cellWidth column c) (colored color " ")
  else colored color (String.ofList [c])

/-- A row under the line: blank up to the mark, then the mark, then two more cells.  A cell is as
wide as the character above it. -/
def markRow (shown : List Char) (marked : Nat) (mark after : String) : String :=
  let width (column : Nat) : Nat := (shown[column]?.map (cellWidth column)).getD 1
  let before := (List.range marked).map fun column => spaces (width column)
  let markCell := match width marked with
    | 0 => ""
    | w + 1 => colored red mark ++ times w (colored red "─")
  String.join before ++ markCell ++
    times (width (marked + 1)) after ++ times (width (marked + 2)) after

/-- The lines that show a place. -/
def placeLines (file note : String) (p : Place) : List String :=
  let number := toString (p.line + 1)
  let margin := spaces (number.length + 2)
  let pale := " " ++ colored paleFrame (spaces (number.length + 1) ++ "│") ++ " "
  let line := trimEnd p.text
  [margin ++ colored frame "╭" ++ colored frame "─" ++ colored frame "[" ++
      file ++ ":" ++ number ++ ":" ++ toString (p.column + 1) ++ colored frame "]",
    margin ++ colored frame "│",
    " " ++ colored frame (number ++ " │") ++ " " ++
      String.join (line.zipIdx.map fun (c, column) => drawCell p.column column c),
    pale ++ markRow line p.column "┬" " ",
    pale ++ markRow line p.column "╰" (colored red "─") ++ " " ++ note,
    colored frame (times (number.length + 2) "─" ++ "╯")]

/-- The report on an error in a source. -/
def render (file : String) (source : List Char) (e : ParseError) : String :=
  let offset := min e.position (utf8Length source - 1)
  let shown := match place? source offset with
    | some p => placeLines file e.note p
    | none => []
  String.join (((colored red "Error:" ++ " " ++ e.message) :: shown).map (· ++ "\n"))

end MarkdownForest.Report
