/-
# MarkdownForest.Json.Printer -- JSON in lines

A value is written over several lines, each level indented by two spaces.  An
array or object without contents stays on its line.  In strings only quotes,
backslashes and control characters below the space are escaped.
-/
import MarkdownForest.Json.Basic

namespace MarkdownForest.Json

set_option autoImplicit false

def hexDigit (n : Nat) : Char :=
  if n < 10 then Char.ofNat ('0'.toNat + n) else Char.ofNat ('a'.toNat + (n - 10))

/-- A character as it stands in a string. -/
def escapeChar (c : Char) : List Char :=
  match c with
  | '\x22' => ['\\', '\x22']
  | '\\' => ['\\', '\\']
  | '\x08' => ['\\', 'b']
  | '\x0c' => ['\\', 'f']
  | '\n' => ['\\', 'n']
  | '\r' => ['\\', 'r']
  | '\t' => ['\\', 't']
  | c =>
    if c.toNat < 0x20 then ['\\', 'u', '0', '0', hexDigit (c.toNat / 16), hexDigit (c.toNat % 16)]
    else [c]

def stringText (s : String) : List Char :=
  '\x22' :: s.toList.flatMap escapeChar ++ ['\x22']

/-- What stands for a string that denotes no text. -/
def replacement : String := "\ufffd"

/-- The beginning of a line at a level. -/
def indent (level : Nat) : List Char :=
  '\n' :: List.replicate (2 * level) ' '

mutual
/-- A value that begins on a line at a level. -/
def text (level : Nat) : Json → List Char
  | .null => "null".toList
  | .bool b => if b then "true".toList else "false".toList
  | .number literal => literal
  | .string s => stringText (s.getD replacement)
  | .array [] => ['[', ']']
  | .array (item :: items) =>
    '[' :: indent (level + 1) ++ text (level + 1) item ++ itemsText (level + 1) items ++
      indent level ++ [']']
  | .object [] => ['\x7b', '\x7d']
  | .object ((key, value) :: entries) =>
    '\x7b' :: indent (level + 1) ++ stringText (key.getD replacement) ++ [':', ' '] ++
      text (level + 1) value ++ entriesText (level + 1) entries ++ indent level ++ ['\x7d']

/-- The items after the first. -/
def itemsText (level : Nat) : List Json → List Char
  | [] => []
  | item :: items => ',' :: indent level ++ text level item ++ itemsText level items

/-- The entries after the first. -/
def entriesText (level : Nat) : List (Option String × Json) → List Char
  | [] => []
  | (key, value) :: entries =>
    ',' :: indent level ++ stringText (key.getD replacement) ++ [':', ' '] ++
      text level value ++ entriesText level entries
end

/-- A value as a text, without a line end. -/
def pretty (v : Json) : String :=
  String.ofList (text 0 v)

end MarkdownForest.Json
