/-
# MarkdownForest.CommonMark.Escape -- writing text so that it reads back as itself

Text is written with a backslash before every character that could begin inline
markup, and, at the start of a line, before what could open a block
(`escapeText`).  A code span or block gets a fence longer than any run of its
mark inside.  A destination is written bare when it can be read back bare, else
in angle brackets.

Contents of a quote get `> ` before each line (`quoteLines`); contents of an item
hang under its marker (`hang`).  Empty lines get no trailing space.
-/
import MarkdownForest.Block.Start
import MarkdownForest.Text.Punctuation

namespace MarkdownForest.CommonMark

set_option autoImplicit false

open Text

/-! ## Text -/

/-- The characters escaped wherever they stand. -/
def isSpecial (c : Char) : Bool :=
  c == '\\' || c == '\x60' || c == '*' || c == '_' || c == '[' || c == ']' || c == '<'

/-- Text inside a line: special characters are escaped, and an exclamation mark at the end, which
could join a bracket after it. -/
def escapeInline : List Char → List Char
  | [] => []
  | c :: s =>
    let escaped := isSpecial c || (c == '!' && s.isEmpty)
    if escaped then '\\' :: c :: escapeInline s else c :: escapeInline s

/-- Whether a character at the start of a line could open a block or underline a header. -/
def opensLine (c : Char) : Bool :=
  c == '#' || c == '>' || c == '-' || c == '+' || c == '=' || c == '~'

/-- Text at the start of a line: the delimiter after a number is escaped, or else a first character
that could open a block. -/
def escapeLineStart (s : List Char) : List Char :=
  let digits := s.takeWhile Char.isDigit
  let after := s.dropWhile Char.isDigit
  if !digits.isEmpty && (after.head? = some '.' || after.head? = some ')') then
    digits ++ '\\' :: escapeInline after
  else if s.head?.any opensLine then '\\' :: escapeInline s
  else escapeInline s

/-- Text as it is written at or after the start of a line. -/
def escapeText (lineStart : Bool) (s : List Char) : List Char :=
  if lineStart then escapeLineStart s else escapeInline s

/-! ## Code -/

/-- The length of the longest run of `c`, given the length of the run before. -/
def longestRunAfter (c : Char) (current : Nat) : List Char → Nat
  | [] => current
  | d :: s => if d = c then longestRunAfter c (current + 1) s else max current (longestRunAfter c 0 s)

/-- The length of the longest run of `c`. -/
def longestRun (c : Char) (s : List Char) : Nat :=
  longestRunAfter c 0 s

/-- A code span.  It is padded with spaces when it begins or ends with a backtick, or when reading
would take a space from either end. -/
def codeSpan (s : List Char) : List Char :=
  let fence := List.replicate (longestRun '\x60' s + 1) '\x60'
  let padded := s.head? = some '\x60' || s.getLast? = some '\x60' ||
    (s.head? = some ' ' && s.getLast? = some ' ' && !isBlank s)
  let space := if padded then [' '] else []
  fence ++ space ++ s ++ space ++ fence

/-- A code block between fences: tildes when a backtick stands in the info string. -/
def codeBlock (info literal : List Char) : List Char :=
  let mark := if info.contains '\x60' then '~' else '\x60'
  let fence := List.replicate (max 3 (longestRun mark literal + 1)) mark
  let gap := if info.head? = some mark then [' '] else []
  let ended := literal.isEmpty || literal.getLast? = some '\n'
  fence ++ gap ++ info ++ '\n' :: literal ++ (if ended then [] else ['\n']) ++ fence

/-! ## Targets -/

/-- Every parenthesis is closed, and none before it is opened.  The count has no bound; a signed
count of 32 bits is the same while fewer than 2^31 parentheses are open. -/
def balancedFrom (depth : Nat) : List Char → Bool
  | [] => depth == 0
  | '(' :: s => balancedFrom (depth + 1) s
  | ')' :: s =>
    match depth with
    | 0 => false
    | d + 1 => balancedFrom d s
  | _ :: s => balancedFrom depth s

/-- A backslash before every character that satisfies `p`. -/
def escapeWhere (p : Char → Bool) (s : List Char) : List Char :=
  s.flatMap fun c => if p c then ['\\', c] else [c]

/-- Whether a destination must stand in angle brackets. -/
def needsAngle (url title : List Char) : Bool :=
  (url.isEmpty && !title.isEmpty) ||
    url.any (fun c => c == ' ' || isControl c || c == '<' || c == '>') || !balancedFrom 0 url

/-- Destination and title of a link, in parentheses. -/
def destination (url title : List Char) : List Char :=
  let target :=
    if needsAngle url title then
      '<' :: escapeWhere (fun c => c == '<' || c == '>' || c == '\\') url ++ ['>']
    else escapeWhere (· == '\\') url
  let quotedTitle :=
    if title.isEmpty then []
    else [' ', '\x22'] ++ escapeWhere (fun c => c == '\x22' || c == '\\') title ++ ['\x22']
  '(' :: target ++ quotedTitle ++ [')']

/-- Splits a text at the first `c`. -/
def splitAt? (c : Char) (s : List Char) : Option (List Char × List Char) :=
  match s.dropWhile (· != c) with
  | [] => none
  | _ :: after => some (s.takeWhile (· != c), after)

/-- A scheme of two or more characters, a colon, and no blank or angle bracket after it. -/
def isUri (url : List Char) : Bool :=
  match splitAt? ':' url with
  | none => false
  | some (scheme, rest) =>
    scheme.head?.any Char.isAlpha && decide (2 ≤ scheme.length) &&
      (scheme.drop 1).all (fun c => c.isAlphanum || c == '+' || c == '.' || c == '-') &&
      !rest.any fun c => c == ' ' || c == '<' || c == '>' || c == '\n'

/-- The characters of the local part of a mail address. -/
def isMailChar (c : Char) : Bool :=
  c.isAlphanum || ".!#$%&\x27*+/=?^_\x7b|\x7d~-".toList.contains c

/-- A local part, an at sign, and labels with dots between them. -/
def isEmail (address : List Char) : Bool :=
  match splitAt? '@' address with
  | none => false
  | some (mailbox, domain) =>
    !mailbox.isEmpty && mailbox.all isMailChar &&
      (domain.splitOn '.').all fun label =>
        !label.isEmpty && label.all fun c => c.isAlphanum || c == '-'

/-- A link in angle brackets, when its text is its own destination. -/
def autolink? (url text : List Char) : Option (List Char) :=
  if text == url && isUri url then some ('<' :: url ++ ['>'])
  else if url == "mailto:".toList ++ text && isEmail text then some ('<' :: text ++ ['>'])
  else none

/-! ## Lines -/

/-- The contents of a quote. -/
def quoteLines (s : List Char) : List Char :=
  List.intercalate ['\n'] ((s.splitOn '\n').map fun line =>
    if line.isEmpty then ['>'] else '>' :: ' ' :: line)

/-- Contents after a marker, the further lines under the first. -/
def hang (marker s : List Char) : List Char :=
  if s.isEmpty then trimEnd marker
  else
    let pad := List.replicate marker.length ' '
    match s.splitOn '\n' with
    | [] => marker
    | first :: more =>
      List.intercalate ['\n'] ((marker ++ first) ::
        more.map fun line => if line.isEmpty then [] else pad ++ line)

end MarkdownForest.CommonMark
