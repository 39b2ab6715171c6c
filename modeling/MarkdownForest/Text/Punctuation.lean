/-
# MarkdownForest.Text.Punctuation -- the character classes of inline markup

ASCII punctuation is what a backslash may escape.  Emphasis asks for the wider
class `isPunctuation`: ASCII punctuation, and every character beyond ASCII that
is neither alphanumeric nor white space (symbols, controls, private use).  What
is neither punctuation nor white space is a word character.
-/
import MarkdownForest.Text.Alphanumeric

namespace MarkdownForest.Text

set_option autoImplicit false

/-- The graphic characters of ASCII other than letters and digits. -/
def isAsciiPunctuation (c : Char) : Bool :=
  within [(0x21, 0x2F), (0x3A, 0x40), (0x5B, 0x60), (0x7B, 0x7E)] c.toNat

/-- The general category Cc. -/
def isControl (c : Char) : Bool :=
  within [(0x00, 0x1F), (0x7F, 0x9F)] c.toNat

/-- Punctuation as the flanking rules of emphasis see it. -/
def isPunctuation (c : Char) : Bool :=
  isAsciiPunctuation c || (0x80 ≤ c.toNat && !isAlphanumeric c && !isSpace c)

/-- A character that emphasis treats as part of a word. -/
def isWord (c : Char) : Bool :=
  !isSpace c && !isPunctuation c

theorem isWord_iff (c : Char) : isWord c = true ↔ isSpace c = false ∧ isPunctuation c = false := by
  simp [isWord]

/-- The ASCII lower case of a text. -/
def toAsciiLower (s : List Char) : List Char :=
  s.map Char.toLower

end MarkdownForest.Text
