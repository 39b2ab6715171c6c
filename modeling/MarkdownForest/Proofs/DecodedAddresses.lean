/-
# MarkdownForest.Proofs.DecodedAddresses -- addresses with their entities decoded

The value of an attribute is text with entities, which a reader of the page
decodes, once, before it takes the value for an address.  The names that it
knows are a parameter (`EntityNames`): of them only that of the ampersand matters.

* `decodeEntities names s`: the text that a value stands for;
* `keptChar c`: what a character of an address is then, itself or its bytes;
* `decodeEntities_escapeAddress`: what was written is decoded to that.
-/
import MarkdownForest.Html.Escape
import MarkdownForest.Json.Reader

namespace MarkdownForest.Html

set_option autoImplicit false

/-! ## Entities -/

/-- What the names of entities stand for. -/
structure EntityNames where
  expansion : List Char → Option (List Char)
  amp : expansion "amp".toList = some ['&']

/-- The names that every text with entities may use. -/
def basicNames : EntityNames where
  expansion name :=
    [("amp", '&'), ("lt", '<'), ("gt", '>'), ("quot", '\x22'), ("apos", '\x27')].lookup
      (String.ofList name) |>.map fun c => [c]
  amp := by decide

/-- The character of a code point, or the replacement character if it has none. -/
def charOfCode (n : Nat) : Char :=
  if n ≠ 0 ∧ n.isValidChar then Char.ofNat n else '\uFFFD'

/-- The number that digits of a base write, if there are any. -/
def codeOf? (base : Nat) (digits : List Char) : Option Nat :=
  if digits.isEmpty then none
  else digits.foldlM (fun n c => do
    let d ← Json.hexDigit? c
    if d < base then some (base * n + d) else none) 0

/-- What an entity stands for, between its ampersand and its semicolon. -/
def entity? (names : EntityNames) : List Char → Option (List Char)
  | '#' :: 'x' :: digits | '#' :: 'X' :: digits =>
    (codeOf? 16 digits).map fun n => [charOfCode n]
  | '#' :: digits => (codeOf? 10 digits).map fun n => [charOfCode n]
  | name => names.expansion name

/-- Decodes the entities of a text, once.  Behind an ampersand, what has been read since it is
pending, until a semicolon shows whether it was an entity. -/
def decodeFrom (names : EntityNames) : Option (List Char) → List Char → List Char
  | none, [] => []
  | some pending, [] => '&' :: pending
  | none, c :: s => if c = '&' then decodeFrom names (some []) s else c :: decodeFrom names none s
  | some pending, c :: s =>
    if c = ';' then
      (entity? names pending).getD ('&' :: pending ++ [';']) ++ decodeFrom names none s
    else if c = '&' then '&' :: pending ++ decodeFrom names (some []) s
    else decodeFrom names (some (pending ++ [c])) s

def decodeEntities (names : EntityNames) (s : List Char) : List Char :=
  decodeFrom names none s

example : decodeEntities basicNames "a&lt;&#x27;&amp;amp; &no; &".toList =
    "a<\x27&amp; &no; &".toList := by
  decide

section Decoding

variable {names : EntityNames} {s t : List Char}

/-- Text without ampersands stands for itself. -/
theorem decodeEntities_append (plain : '&' ∉ s) :
    decodeEntities names (s ++ t) = s ++ decodeEntities names t := by
  induction s with
  | nil => rfl
  | cons c s ih =>
    rw [List.mem_cons, not_or] at plain
    rw [List.cons_append, decodeEntities, decodeFrom, if_neg (Ne.symm plain.1)]
    exact congrArg (c :: ·) (ih plain.2)

theorem decodeEntities_amp :
    decodeEntities names ("&amp;".toList ++ t) = '&' :: decodeEntities names t := by
  have amp : entity? names ['a', 'm', 'p'] = some ['&'] := names.amp
  simp [decodeEntities, decodeFrom, amp]

theorem decodeEntities_apostrophe :
    decodeEntities names ("&#x27;".toList ++ t) = '\x27' :: decodeEntities names t := by
  have apostrophe : entity? names ['#', 'x', '2', '7'] = some ['\x27'] := rfl
  simp [decodeEntities, decodeFrom, apostrophe]

end Decoding

/-! ## Addresses -/

/-- Whether a character is still itself in the address that was written. -/
def isKept (c : Char) : Bool :=
  c == '&' || c == '\x27' || isAddressChar c

/-- What a character of an address is in the address that was written. -/
def keptChar (c : Char) : List Char :=
  if isKept c then [c] else (String.utf8EncodeChar c).flatMap percentByte

def keptAddress (url : List Char) : List Char :=
  url.flatMap keptChar

theorem amp_not_mem_percentByte (b : UInt8) : '&' ∉ percentByte b := by
  have digit : ∀ n < 16, '&' ≠ hexDigit n := by decide
  intro bad
  rcases mem_percentByte bad with e | ⟨n, hn, e⟩
  · cases e
  · exact digit n hn e

/-- A character that was written is decoded to what is kept of it. -/
theorem decodeEntities_escapeAddressChar (names : EntityNames) (c : Char) (t : List Char) :
    decodeEntities names (escapeAddressChar c ++ t) = keptChar c ++ decodeEntities names t := by
  unfold escapeAddressChar
  by_cases amp : c = '&'
  · rw [if_pos amp, amp]
    exact decodeEntities_amp
  by_cases apostrophe : c = '\x27'
  · rw [if_neg amp, if_pos apostrophe, apostrophe]
    exact decodeEntities_apostrophe
  rw [if_neg amp, if_neg apostrophe]
  by_cases address : isAddressChar c
  · have kept : isKept c := by simp [isKept, address]
    rw [if_pos address, keptChar, if_pos kept]
    exact decodeEntities_append (by simpa using Ne.symm amp)
  · have other : ¬ isKept c := by simp [isKept, amp, apostrophe, address]
    rw [if_neg address, keptChar, if_neg other]
    refine decodeEntities_append fun bad => ?_
    obtain ⟨b, -, bad⟩ := List.mem_flatMap.mp bad
    exact amp_not_mem_percentByte b bad

/-- **An address that was written is decoded to what is kept of it.** -/
theorem decodeEntities_escapeAddress (names : EntityNames) (url : List Char) :
    decodeEntities names (escapeAddress url) = keptAddress url := by
  induction url with
  | nil => rfl
  | cons c url ih =>
    rw [escapeAddress, List.flatMap_cons, decodeEntities_escapeAddressChar, keptAddress,
      List.flatMap_cons]
    exact congrArg (keptChar c ++ ·) ih

end MarkdownForest.Html
