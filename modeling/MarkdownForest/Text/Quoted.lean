/-
# MarkdownForest.Text.Quoted -- text between quotes, for diagnostics

A quoted text stands between double quotes on one line.  Tab, carriage return,
line feed, NUL, the double quote and the backslash have a backslash form; every
other hidden character is written by its number in hexadecimal, between braces.
In the path of a file the single quote has a backslash form too.
-/
import MarkdownForest.Text.Printable

namespace MarkdownForest.Text

set_option autoImplicit false

/-- The digits of `n` in lower-case hexadecimal, without leading zeros. -/
def hexDigits (n : Nat) : List Char :=
  Nat.toDigits 16 n

/-- One character of a quoted text. -/
def quoteChar (c : Char) : List Char :=
  if c = '\x00' then ['\\', '0']
  else if c = '\t' then ['\\', 't']
  else if c = '\r' then ['\\', 'r']
  else if c = '\n' then ['\\', 'n']
  else if c = '\x22' then ['\\', '\x22']
  else if c = '\\' then ['\\', '\\']
  else if isPrintable c then [c]
  else ['\\', 'u', '\x7b'] ++ hexDigits c.toNat ++ ['\x7d']

/-- A text between double quotes. -/
def quoted (s : List Char) : List Char :=
  '\x22' :: s.flatMap quoteChar ++ ['\x22']

/-- The path of a file between double quotes. -/
def quotedPath (s : List Char) : List Char :=
  '\x22' :: (s.flatMap fun c => if c = '\x27' then ['\\', c] else quoteChar c) ++ ['\x22']

end MarkdownForest.Text
