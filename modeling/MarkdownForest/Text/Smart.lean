/-
# MarkdownForest.Text.Smart -- typographic punctuation

`smarten` puts curly quotes for straight ones, an ellipsis for three dots, and
dashes for hyphens: a run of hyphens becomes em dashes, three hyphens each, and
what is left over an en dash (two) or a hyphen (one).  A quote opens at the
start of the text and after white space, an opening bracket or a hyphen; the
character before it is the one of the plain text.

`straighten` puts the straight forms back.
-/
import MarkdownForest.Text.Space

namespace MarkdownForest.Text

set_option autoImplicit false

def leftDoubleQuote : Char := '\u201C'
def rightDoubleQuote : Char := '\u201D'
def leftSingleQuote : Char := '\u2018'
def rightSingleQuote : Char := '\u2019'
def ellipsis : Char := '\u2026'
def enDash : Char := '\u2013'
def emDash : Char := '\u2014'

/-- Whether a quote after `before` opens. -/
def opensQuote : Option Char → Bool
  | none => true
  | some c => isSpace c || c == '(' || c == '[' || c == '\x7b' || c == '-'

/-- Typographic punctuation for a text that follows the character `before`. -/
def smartenAfter (before : Option Char) : List Char → List Char
  | [] => []
  | '.' :: '.' :: '.' :: s => ellipsis :: smartenAfter (some '.') s
  | '-' :: '-' :: '-' :: s => emDash :: smartenAfter (some '-') s
  | '-' :: '-' :: s => enDash :: smartenAfter (some '-') s
  | c :: s =>
    (if c = '\x22' then (if opensQuote before then leftDoubleQuote else rightDoubleQuote)
      else if c = '\x27' then (if opensQuote before then leftSingleQuote else rightSingleQuote)
      else c) :: smartenAfter (some c) s

/-- Typographic punctuation. -/
def smarten (s : List Char) : List Char :=
  smartenAfter none s

/-- The plain form of one typographic character. -/
def straightenChar (c : Char) : List Char :=
  if c = leftDoubleQuote ∨ c = rightDoubleQuote then ['\x22']
  else if c = leftSingleQuote ∨ c = rightSingleQuote then ['\x27']
  else if c = ellipsis then ['.', '.', '.']
  else if c = enDash then ['-', '-']
  else if c = emDash then ['-', '-', '-']
  else [c]

/-- Plain punctuation for typographic. -/
def straighten (s : List Char) : List Char :=
  s.flatMap straightenChar

example : smarten "\x22Hi\x22 -- it\x27s... a---b".toList =
    "\u201CHi\u201D \u2013 it\u2019s\u2026 a\u2014b".toList := by decide

end MarkdownForest.Text
