/-
# MarkdownForest.Html.Escape -- text and addresses in HTML

Text, also inside a double-quoted attribute, has its markup characters written
as entities.  An address keeps what may stand in one, percent signs included, so
escapes in it stay; other bytes are percent-encoded, and ampersands and
apostrophes are entities.

Safe rendering drops addresses with a scheme that can run code or read files
(`isUnsafeUrl`); of data addresses it keeps four image types.
-/
import MarkdownForest.Text.Punctuation

namespace MarkdownForest.Html

set_option autoImplicit false

open Text

/-! ## Text -/

def escapeChar (c : Char) : List Char :=
  if c = '&' then "&amp;".toList
  else if c = '<' then "&lt;".toList
  else if c = '>' then "&gt;".toList
  else if c = '\x22' then "&quot;".toList
  else [c]

/-- Text with its markup characters as entities. -/
def escapeText (s : List Char) : List Char :=
  s.flatMap escapeChar

/-! ## Addresses -/

/-- The characters that stand for themselves in an address. -/
def isAddressChar (c : Char) : Bool :=
  c.isAlphanum || "-_.~!#$%()*+,/:;=?@".toList.contains c

/-- An upper-case hexadecimal digit. -/
def hexDigit (n : Nat) : Char :=
  if n < 10 then Char.ofNat ('0'.toNat + n) else Char.ofNat ('A'.toNat + (n - 10))

/-- A byte as a percent sign and two digits. -/
def percentByte (b : UInt8) : List Char :=
  ['%', hexDigit (b.toNat / 16), hexDigit (b.toNat % 16)]

theorem mem_percentByte {b : UInt8} {c : Char} (h : c ∈ percentByte b) :
    c = '%' ∨ ∃ n < 16, c = hexDigit n := by
  rw [percentByte, List.mem_cons, List.mem_cons, List.mem_singleton] at h
  have small := b.toNat_lt
  rcases h with rfl | rfl | rfl
  · exact .inl rfl
  · exact .inr ⟨b.toNat / 16, by omega, rfl⟩
  · exact .inr ⟨b.toNat % 16, by omega, rfl⟩

def escapeAddressChar (c : Char) : List Char :=
  if c = '&' then "&amp;".toList
  else if c = '\x27' then "&#x27;".toList
  else if isAddressChar c then [c]
  else (String.utf8EncodeChar c).flatMap percentByte

/-- An address as the value of an attribute. -/
def escapeAddress (url : List Char) : List Char :=
  url.flatMap escapeAddressChar

/-! ## Unsafe addresses -/

/-- The schemes that safe rendering drops. -/
def unsafeSchemes : List String :=
  ["javascript:", "vbscript:", "file:"]

/-- The media types that safe rendering keeps of data addresses. -/
def safeMediaTypes : List String :=
  ["image/png", "image/gif", "image/jpeg", "image/webp"]

/-- Whether a text begins with one of the strings. -/
def startsWithAny (starts : List String) (s : List Char) : Bool :=
  starts.any fun start => start.toList.isPrefixOf s

/-- Whether an address, its leading white space and the case of its letters apart, has an unsafe
scheme, or is a data address of a type that is not safe. -/
def isUnsafeUrl (url : List Char) : Bool :=
  let s := toAsciiLower (trimStart url)
  startsWithAny unsafeSchemes s ||
    (startsWithAny ["data:"] s && !startsWithAny safeMediaTypes (s.drop "data:".length))

end MarkdownForest.Html
