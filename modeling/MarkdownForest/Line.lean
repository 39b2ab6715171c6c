/-
# MarkdownForest.Line -- the lines of a source and where they came from

A source is cut at line feeds, and a carriage return before the cut goes with
it.  Tabs in the leading blanks become spaces up to the next multiple of four
columns; other tabs stay.

A line carries the byte offset at which its text began in the source.  Taking a
beginning off a line moves the offset by as many bytes as characters, since only
ASCII is ever taken off; an expanded tab counts as its spaces.
-/
import MarkdownForest.Text.Space
import MarkdownForest.Text.Utf8

namespace MarkdownForest

set_option autoImplicit false

open Text

structure Line where
  text : List Char
  offset : Nat
  deriving DecidableEq, Repr, Inhabited

namespace Line

/-- The number of leading spaces. -/
def indent (l : Line) : Nat :=
  (l.text.takeWhile (· == ' ')).length

/-- The text after the leading spaces. -/
def rest (l : Line) : List Char :=
  l.text.dropWhile (· == ' ')

def isBlank (l : Line) : Bool :=
  Text.isBlank l.text

/-- The line from its `n`-th character on. -/
def tail (l : Line) (n : Nat) : Line :=
  ⟨l.text.drop n, l.offset + min n l.text.length⟩

/-- The line without up to `n` leading spaces. -/
def strip (l : Line) (n : Nat) : Line :=
  l.tail (min l.indent n)

/-- An empty line in place of `l`. -/
def emptied (l : Line) : Line :=
  ⟨[], l.offset⟩

theorem length_tail (l : Line) (n : Nat) : (l.tail n).text.length = l.text.length - n := by
  simp [tail]

theorem length_strip_le (l : Line) (n : Nat) : (l.strip n).text.length ≤ l.text.length := by
  simp [strip, length_tail]

theorem indent_append_rest (l : Line) : List.replicate l.indent ' ' ++ l.rest = l.text := by
  obtain ⟨s, _⟩ := l
  simp only [indent, rest]
  induction s with
  | nil => rfl
  | cons c s ih =>
    by_cases h : c = ' '
    · subst h
      simpa [List.replicate_succ] using ih
    · simp [h]

/-! ## Weight -/

/-- The size of a run of lines: every line counts its characters and one more. -/
def weight : List Line → Nat
  | [] => 0
  | l :: ls => l.text.length + 1 + weight ls

@[simp] theorem weight_nil : weight [] = 0 := rfl

@[simp] theorem weight_cons (l : Line) (ls : List Line) :
    weight (l :: ls) = l.text.length + 1 + weight ls := rfl

@[simp] theorem weight_append (ks ls : List Line) : weight (ks ++ ls) = weight ks + weight ls := by
  induction ks with
  | nil => simp
  | cons k ks ih => simp [ih, Nat.add_assoc]

/-! ## Cutting a source -/

/-- Leading tabs made into spaces, from the given column on. -/
def expandTabs (column : Nat) : List Char → List Char
  | '\t' :: s =>
    List.replicate (4 - column % 4) ' ' ++ expandTabs (column + (4 - column % 4)) s
  | ' ' :: s => ' ' :: expandTabs (column + 1) s
  | s => s

/-- The text without one carriage return at its end. -/
def dropCarriageReturn (s : List Char) : List Char :=
  if s.getLast? = some '\r' then s.dropLast else s

/-- The lines of the given texts, the first of which begins at `offset`. -/
def number (offset : Nat) : List (List Char) → List Line
  | [] => []
  | raw :: more =>
    ⟨expandTabs 0 (dropCarriageReturn raw), offset⟩ :: number (offset + utf8Length raw + 1) more

/-- The lines of a source. -/
def ofSource (source : List Char) : List Line :=
  number 0 (source.splitOn '\n')

end Line

end MarkdownForest
