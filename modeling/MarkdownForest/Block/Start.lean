/-
# MarkdownForest.Block.Start -- how a line opens a block

Each block is recognised by the first of its lines, after up to three spaces:
fences, headers, underlines, rules, raw HTML and list markers.  The functions
here look at one line only; which of them is asked first is fixed in
`MarkdownForest.Block.Layout`.

`startsBlock` gathers the openings that end a paragraph.  A list ends one only
when its first item has text on the line and, if numbered, starts at one.
-/
import MarkdownForest.Kind
import MarkdownForest.Line
import MarkdownForest.Text.Punctuation

namespace MarkdownForest

set_option autoImplicit false

open Text

/-- The length of the run of `c` at the start of a text. -/
def runLength (c : Char) (s : List Char) : Nat :=
  (s.takeWhile (· == c)).length

/-! ## Fences -/

/-- An open code fence: its character, its length, and the info string. -/
structure Fence where
  mark : Char
  length : Nat
  info : List Char
  deriving DecidableEq, Repr

namespace Fence

/-- The fence of `mark` that opens a text: three marks or more, and no mark again in the info
string of a backtick fence. -/
def ofMark? (mark : Char) (s : List Char) : Option Fence :=
  let length := runLength mark s
  let info := trim (s.drop length)
  if length < 3 || (mark == '\x60' && info.contains mark) then none
  else some ⟨mark, length, info⟩

/-- The fence that opens a text. -/
def open? (s : List Char) : Option Fence :=
  match s with
  | '\x60' :: _ => ofMark? '\x60' s
  | '~' :: _ => ofMark? '~' s
  | _ => none

/-- Whether a line closes the fence. -/
def closedBy (f : Fence) (l : Line) : Bool :=
  let length := runLength f.mark l.rest
  decide (l.indent < 4) && decide (f.length ≤ length) && isBlank (l.rest.drop length)

end Fence

/-! ## Headers and rules -/

/-- Header text without the closing run of number signs.  The run goes only when a space stands
before it or nothing does. -/
def dropClosing (content : List Char) : List Char :=
  let bare := dropEndWhile (· == '#') content
  if bare.isEmpty then []
  else if bare.getLast? = some ' ' then trimEnd bare
  else content

/-- The level and text of a header that starts with number signs. -/
def header? (s : List Char) : Option (Nat × List Char) :=
  let level := runLength '#' s
  let after := s.drop level
  if level = 0 || 6 < level then none
  else if after.isEmpty || after.head? = some ' ' then some (level, dropClosing (trim after))
  else none

/-- The level of the header that an underline makes of the paragraph above it. -/
def underline? (l : Line) : Option Nat :=
  let s := trimEnd l.rest
  if 4 ≤ l.indent || s.isEmpty then none
  else if s.all (· == '=') then some 1
  else if s.all (· == '-') then some 2
  else none

/-- A thematic break: three or more of one mark, with only blanks between. -/
def isRule (s : List Char) : Bool :=
  let marks := s.filter fun c => c != ' ' && c != '\t'
  decide (3 ≤ marks.length) &&
    (marks.all (· == '*') || marks.all (· == '-') || marks.all (· == '_'))

/-! ## Raw HTML -/

/-- The tags that open raw HTML wherever they stand. -/
def blockTags : List String :=
  ["address", "article", "aside", "blockquote", "body", "details", "dialog", "div", "dl",
    "fieldset", "figcaption", "figure", "footer", "form", "h1", "h2", "h3", "h4", "h5", "h6",
    "header", "hr", "li", "main", "nav", "ol", "p", "pre", "script", "section", "style",
    "summary", "table", "tbody", "td", "tfoot", "th", "thead", "tr", "ul"]

/-- Whether a tag name may end before `s`. -/
def endsTagName : List Char → Bool
  | [] | ' ' :: _ | '\t' :: _ | '>' :: _ | '/' :: '>' :: _ => true
  | _ => false

/-- Whether the tag that follows the first angle bracket opens raw HTML: a block tag does, and any
other when the line ends with the only further bracket. -/
def opensTag (afterBracket : List Char) : Bool :=
  let s := match afterBracket with
    | '/' :: s => s
    | s => s
  let isNameChar := fun c : Char => c.isAlphanum || c == '-'
  let line := trimEnd afterBracket
  (s.head?.any Char.isAlpha) && endsTagName (s.dropWhile isNameChar) &&
    (blockTags.contains (String.ofList (toAsciiLower (s.takeWhile isNameChar))) ||
      (line.getLast? = some '>' && !line.contains '<'))

/-- Declarations, comments, instructions, block tags, and any tag alone on its line. -/
def opensHtml : List Char → Bool
  | '<' :: '!' :: _ | '<' :: '?' :: _ => true
  | '<' :: s => opensTag s
  | _ => false

/-! ## List markers -/

/-- The marker of a list item.  `width` is the column at which the item's own lines begin; `empty`
says that nothing follows the marker on its line. -/
structure Marker where
  type : ListType
  delimiter : Char
  start : Nat
  width : Nat
  empty : Bool
  deriving DecidableEq, Repr

namespace Marker

/-- The number that decimal digits write. -/
def ofDigits (s : List Char) : Nat :=
  s.foldl (fun n c => n * 10 + (c.toNat - '0'.toNat)) 0

/-- Type, delimiter, start and length of the marker at the start of a text. -/
def head? (s : List Char) : Option (ListType × Char × Nat × Nat) :=
  match s with
  | [] => none
  | c :: _ =>
    if c = '-' ∨ c = '+' ∨ c = '*' then some (.bullet, c, 1, 1)
    else
      let digits := s.takeWhile Char.isDigit
      match s.drop digits.length with
      | d :: _ =>
        if digits.isEmpty || 9 < digits.length then none
        else if d = '.' ∨ d = ')' then some (.ordered, d, ofDigits digits, digits.length + 1)
        else none
      | [] => none

/-- The marker that a line starts with. -/
def read? (l : Line) : Option Marker :=
  if 4 ≤ l.indent then none
  else
    match head? l.rest with
    | none => none
    | some (type, delimiter, start, length) =>
      let after := l.rest.drop length
      let spaces := runLength ' ' after
      let empty := isBlank after
      let markerEnd := l.indent + length
      if after.isEmpty || after.head? = some ' ' then
        some {
          type, delimiter, start, empty
          width := if empty || 4 < spaces then markerEnd + 1 else markerEnd + spaces }
      else none

/-- Whether the second marker goes on with the list of the first. -/
def sameList (m n : Marker) : Bool :=
  m.type == n.type && m.delimiter == n.delimiter

end Marker

/-! ## Openings that end a paragraph -/

/-- Whether a line opens a block that ends the paragraph above it. -/
def startsBlock (l : Line) : Bool :=
  decide (l.indent < 4) &&
    ((Fence.open? l.rest).isSome || (header? l.rest).isSome || l.rest.head? = some '>' ||
      isRule l.rest ||
      (Marker.read? l).any fun m => !m.empty && (m.type == .bullet || m.start == 1))

end MarkdownForest
