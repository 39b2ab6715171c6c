/-
# MarkdownForest.Json.Basic -- JSON values

A value keeps what a text can say: numbers as they are written, and the entries
of an object in order, also when a key comes twice.  A string whose escapes
denote no text (a surrogate without its partner) is `none`.
-/

namespace MarkdownForest

set_option autoImplicit false

inductive Json where
  | null
  | bool (value : Bool)
  | number (literal : List Char)
  | string (text : Option String)
  | array (items : List Json)
  | object (entries : List (Option String × Json))
  deriving Repr, Inhabited

namespace Json

def ofString (s : String) : Json :=
  .string (some s)

def ofNat (n : Nat) : Json :=
  .number (toString n).toList

/-- An object without repeated keys. -/
def ofFields (fields : List (String × Json)) : Json :=
  .object (fields.map fun (k, v) => (some k, v))

/-! ## Reading values -/

def bool? : Json → Option Bool
  | .bool b => some b
  | _ => none

def string? : Json → Option String
  | .string s => s
  | _ => none

/-- An unsigned 64-bit number, written without sign, fraction and exponent. -/
def word? : Json → Option Nat
  | .number literal =>
    if literal.all (·.isDigit) then
      let n := literal.foldl (fun n c => 10 * n + (c.toNat - '0'.toNat)) 0
      if n < UInt64.size then some n else none
    else none
  | _ => none

/-- The values of the fields of a record, for each name in turn; a missing one is `none`.

A record is an object, where unknown fields are passed over and known ones stand once, or an array
of its fields in order, from which the last ones may be missing. -/
def record? (names : List String) : Json → Option (List (Option Json))
  | .object entries =>
    if entries.all (·.1.isSome) then
      names.mapM fun name =>
        match entries.filter (·.1 == some name) with
        | [] => some none
        | [(_, v)] => some (some v)
        | _ => none
    else none
  | .array items =>
    if items.length ≤ names.length then
      some (names.zipIdx.map fun (_, i) => items[i]?)
    else none
  | _ => none

/-- The value of a field, or what stands for it if it is missing. -/
def field? {α : Type} (read : Json → Option α) (default : α) : Option Json → Option α
  | none => some default
  | some v => read v

/-- The name of a variant: a string, or an object that has the name as its key, and null. -/
def variant? : Json → Option String
  | .string s => s
  | .object [(name, .null)] => name
  | _ => none

end Json

end MarkdownForest
