/-
# MarkdownForest.Json.Reader -- JSON texts

`Json.parse?` reads the value that a text writes, by the strict grammar: four
blanks, no comments, no trailing commas, no control characters in strings, no
leading zeros, and nothing after the value but blanks.

The readers take what they read off the front of the text.  Values nest, so they
are read with a bound on the steps; `Json.parse?` gives enough of them.
-/
import MarkdownForest.Json.Basic

namespace MarkdownForest.Json

set_option autoImplicit false

def isBlank (c : Char) : Bool :=
  c == ' ' || c == '\t' || c == '\n' || c == '\r'

def skipBlanks (s : List Char) : List Char :=
  s.dropWhile isBlank

/-! ## Strings -/

def hexDigit? (c : Char) : Option Nat :=
  if '0' ≤ c ∧ c ≤ '9' then some (c.toNat - '0'.toNat)
  else if 'a' ≤ c ∧ c ≤ 'f' then some (c.toNat - 'a'.toNat + 10)
  else if 'A' ≤ c ∧ c ≤ 'F' then some (c.toNat - 'A'.toNat + 10)
  else none

/-- The number that four hexadecimal digits write. -/
def hex4? (a b c d : Char) : Option Nat := do
  return 4096 * (← hexDigit? a) + 256 * (← hexDigit? b) + 16 * (← hexDigit? c) + (← hexDigit? d)

/-- What a letter after a backslash stands for. -/
def shortEscape? : Char → Option Char
  | '\x22' => some '\x22'
  | '\\' => some '\\'
  | '/' => some '/'
  | 'b' => some '\x08'
  | 'f' => some '\x0c'
  | 'n' => some '\n'
  | 'r' => some '\r'
  | 't' => some '\t'
  | _ => none

/-- The codes of a string after its opening quote, and what follows the closing one.  A code is that
of a character, or a surrogate. -/
def codes? : List Char → Option (List Nat × List Char)
  | '\x22' :: s => some ([], s)
  | '\\' :: 'u' :: a :: b :: c :: d :: s => do
    let n ← hex4? a b c d
    let (codes, rest) ← codes? s
    return (n :: codes, rest)
  | '\\' :: e :: s => do
    let c ← shortEscape? e
    let (codes, rest) ← codes? s
    return (c.toNat :: codes, rest)
  | c :: s =>
    if c.toNat < 0x20 || c == '\\' then none
    else do
      let (codes, rest) ← codes? s
      return (c.toNat :: codes, rest)
  | [] => none

def isHighSurrogate (n : Nat) : Bool :=
  0xd800 ≤ n && n < 0xdc00

def isLowSurrogate (n : Nat) : Bool :=
  0xdc00 ≤ n && n < 0xe000

/-- The text of codes: a high surrogate and the low one after it make a character, and none stands
alone. -/
def textOfCodes? : List Nat → Option (List Char)
  | [] => some []
  | high :: codes =>
    if isHighSurrogate high then
      match codes with
      | low :: codes =>
        if isLowSurrogate low then
          (textOfCodes? codes).map
            (Char.ofNat (0x10000 + 0x400 * (high - 0xd800) + (low - 0xdc00)) :: ·)
        else none
      | [] => none
    else if isLowSurrogate high then none
    else (textOfCodes? codes).map (Char.ofNat high :: ·)

/-- A string after its opening quote. -/
def readString? (s : List Char) : Option (Option String × List Char) := do
  let (codes, rest) ← codes? s
  return ((textOfCodes? codes).map String.ofList, rest)

/-! ## Numbers -/

/-- One digit or more. -/
def digits? (s : List Char) : Option (List Char × List Char) :=
  match s.takeWhile (·.isDigit) with
  | [] => none
  | digits => some (digits, s.dropWhile (·.isDigit))

/-- The part of a number before a point: a zero, or digits that do not begin with one. -/
def integer? : List Char → Option (List Char × List Char)
  | '0' :: s => some (['0'], s)
  | s => digits? s

/-- The point of a number and the digits after it, if there is a point. -/
def fraction? : List Char → Option (List Char × List Char)
  | '.' :: s => (digits? s).map fun (digits, rest) => ('.' :: digits, rest)
  | s => some ([], s)

/-- The exponent of a number, if there is one. -/
def exponent? : List Char → Option (List Char × List Char)
  | [] => some ([], [])
  | c :: s =>
    if c == 'e' || c == 'E' then
      match s with
      | '+' :: s => (digits? s).map fun (digits, rest) => (c :: '+' :: digits, rest)
      | '-' :: s => (digits? s).map fun (digits, rest) => (c :: '-' :: digits, rest)
      | s => (digits? s).map fun (digits, rest) => (c :: digits, rest)
    else some ([], c :: s)

/-- A number, as it is written. -/
def number? (s : List Char) : Option (List Char × List Char) := do
  let (sign, s) := match s with
    | '-' :: s => (['-'], s)
    | s => ([], s)
  let (whole, s) ← integer? s
  let (fraction, s) ← fraction? s
  let (exponent, s) ← exponent? s
  return (sign ++ whole ++ fraction ++ exponent, s)

/-! ## Values -/

/-- The words that are values. -/
def keyword? (s : List Char) : Option (Json × List Char) :=
  match s with
  | 'n' :: 'u' :: 'l' :: 'l' :: s => some (.null, s)
  | 't' :: 'r' :: 'u' :: 'e' :: s => some (.bool true, s)
  | 'f' :: 'a' :: 'l' :: 's' :: 'e' :: s => some (.bool false, s)
  | _ => none

mutual
/-- A value. -/
def value? : Nat → List Char → Option (Json × List Char)
  | 0, _ => none
  | steps + 1, s =>
    match skipBlanks s with
    | '\x22' :: s => (readString? s).map fun (text, rest) => (.string text, rest)
    | '[' :: s =>
      match skipBlanks s with
      | ']' :: s => some (.array [], s)
      | s => (items? steps s).map fun (items, rest) => (.array items, rest)
    | '\x7b' :: s =>
      match skipBlanks s with
      | '\x7d' :: s => some (.object [], s)
      | s => (entries? steps s).map fun (entries, rest) => (.object entries, rest)
    | c :: s =>
      if c == '-' || c.isDigit then
        (number? (c :: s)).map fun (literal, rest) => (.number literal, rest)
      else keyword? (c :: s)
    | [] => none

/-- One item or more, and the end of an array. -/
def items? : Nat → List Char → Option (List Json × List Char)
  | 0, _ => none
  | steps + 1, s => do
    let (item, s) ← value? steps s
    match skipBlanks s with
    | ',' :: s =>
      let (items, s) ← items? steps s
      return (item :: items, s)
    | ']' :: s => return ([item], s)
    | _ => none

/-- One entry or more, and the end of an object. -/
def entries? : Nat → List Char → Option (List (Option String × Json) × List Char)
  | 0, _ => none
  | steps + 1, s =>
    match skipBlanks s with
    | '\x22' :: s => do
      let (key, s) ← readString? s
      match skipBlanks s with
      | ':' :: s =>
        let (value, s) ← value? steps s
        match skipBlanks s with
        | ',' :: s =>
          let (entries, s) ← entries? steps s
          return ((key, value) :: entries, s)
        | '\x7d' :: s => return ([(key, value)], s)
        | _ => none
      | _ => none
    | _ => none
end

/-- The value that a text writes. -/
def parse? (s : List Char) : Option Json := do
  let (value, rest) ← value? (2 * s.length + 1) s
  if (skipBlanks rest).isEmpty then return value else none

end MarkdownForest.Json
