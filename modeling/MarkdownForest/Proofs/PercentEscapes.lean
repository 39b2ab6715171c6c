/-
# MarkdownForest.Proofs.PercentEscapes -- writing keeps what an address stands for

Who follows an address takes a percent sign with two hexadecimal digits behind it
for a byte.  Writing passes all percent signs through, also those that stand for
themselves, and puts escapes of its own for other bytes, which begin with a
percent sign too.  No percent sign gets digits behind it that way: a byte that is
written as an escape was no digit, and the sign that its escape begins with is
none.

* `percentUnits s`: the escapes of `s` and the bytes between them;
* `utf8Bytes_keptAddress`: what is kept of an address, byte by byte;
* `percentUnits_flatMap_keptByte`: so the units stay, one for one.

`percentDecode_escapeAddress` is the statement on what a reader of the page, who
decodes its entities first, gets for an address.
-/
import MarkdownForest.Proofs.DecodedAddresses
import MarkdownForest.Text.Alphanumeric
import Mathlib.Data.List.Basic

namespace MarkdownForest

set_option autoImplicit false

namespace Text

/-- The bytes of the UTF-8 form of a text. -/
def utf8Bytes (s : List Char) : List UInt8 :=
  s.flatMap String.utf8EncodeChar

theorem utf8EncodeChar_ascii {c : Char} (ascii : c.toNat < 0x80) :
    String.utf8EncodeChar c = [UInt8.ofNat c.toNat] := by
  have low : c.val.toNat ≤ 0x7f := Nat.le_of_lt_succ ascii
  rw [String.utf8EncodeChar]
  exact if_pos low

/-- The bytes of other characters are none of those of ASCII. -/
theorem le_of_mem_utf8EncodeChar {c : Char} (other : ¬ c.toNat < 0x80) {b : UInt8}
    (h : b ∈ String.utf8EncodeChar c) : 0x80 ≤ b.toNat := by
  have high : ¬ c.val.toNat ≤ 0x7f := fun low => other (Nat.lt_succ_of_le low)
  have continuation : ∀ n, 0x80 ≤ (UInt8.ofNat (n % 0x40 + 0x80)).toNat := by
    intro n
    rw [UInt8.toNat_ofNat']
    omega
  rw [String.utf8EncodeChar, if_neg high] at h
  split at h <;> try split at h
  all_goals
    simp only [List.mem_cons, List.not_mem_nil, or_false] at h
    rcases h with rfl | h
    · rw [UInt8.toNat_ofNat']
      omega
  · exact h ▸ continuation _
  · rcases h with rfl | rfl <;> exact continuation _
  · rcases h with rfl | rfl | rfl <;> exact continuation _

end Text

namespace Html

open Text

/-! ## Percent-encoded bytes -/

/-- The value of a byte that is a hexadecimal digit. -/
def hexValue? (b : UInt8) : Option Nat :=
  Json.hexDigit? (Char.ofNat b.toNat)

/-- Whether a byte is a hexadecimal digit. -/
def isHexByte (b : UInt8) : Bool :=
  (hexValue? b).isSome

/-- What stands at one place of a percent-encoded byte string: a byte that stands for itself, or a
percent sign with two digits. -/
inductive PercentUnit where
  | byte (b : UInt8)
  | escape (high low : UInt8)
  deriving DecidableEq, Repr

/-- The units of a byte string, in order. -/
def percentUnits : List UInt8 → List PercentUnit
  | 0x25 :: high :: low :: s =>
    if isHexByte high && isHexByte low then .escape high low :: percentUnits s
    else .byte 0x25 :: percentUnits (high :: low :: s)
  | b :: s => .byte b :: percentUnits s
  | [] => []

/-- The byte that a unit stands for. -/
def PercentUnit.value : PercentUnit → UInt8
  | .byte b => b
  | .escape high low =>
    UInt8.ofNat (16 * (hexValue? high).getD 0 + (hexValue? low).getD 0)

/-- The bytes that a percent-encoded byte string stands for. -/
def percentDecode (s : List UInt8) : List UInt8 :=
  (percentUnits s).map PercentUnit.value

example : percentDecode (utf8Bytes "100%25 %4%4a%%zé".toList) =
    utf8Bytes "100% %4J%%zé".toList := by
  decide

/-- Whether a byte string begins with the two digits of an escape. -/
def startsDigits : List UInt8 → Bool
  | high :: low :: _ => isHexByte high && isHexByte low
  | _ => false

theorem percentUnits_escape {high low : UInt8} {s : List UInt8} (hh : isHexByte high)
    (hl : isHexByte low) :
    percentUnits (0x25 :: high :: low :: s) = .escape high low :: percentUnits s := by
  rw [percentUnits, hh, hl]
  rfl

/-- A byte that begins no escape stands for itself. -/
theorem percentUnits_byte {b : UInt8} {s : List UInt8} (h : b = 0x25 → startsDigits s = false) :
    percentUnits (b :: s) = .byte b :: percentUnits s := by
  rw [percentUnits.eq_def]
  split
  · rename_i high low t e
    obtain ⟨rfl, rfl⟩ := List.cons.inj e
    have none : (isHexByte high && isHexByte low) = false := h rfl
    rw [none, if_neg Bool.false_ne_true]
  · rename_i e
    obtain ⟨rfl, rfl⟩ := List.cons.inj e
    rfl
  · rename_i e
    cases e

/-! ## Bytes that are written -/

/-- Whether a byte is still itself in the address that was written. -/
def isKeptByte (b : UInt8) : Bool :=
  isKept (Char.ofNat b.toNat)

/-- A digit of an escape that was written. -/
def digitByte (n : Nat) : UInt8 :=
  UInt8.ofNat (hexDigit n).toNat

/-- A byte as a percent sign and two digits. -/
def escapedByte (b : UInt8) : List UInt8 :=
  [0x25, digitByte (b.toNat / 16), digitByte (b.toNat % 16)]

/-- What a byte of an address is in the address that was written. -/
def keptByte (b : UInt8) : List UInt8 :=
  if isKeptByte b then [b] else escapedByte b

/-- What a unit of an address is in the address that was written: escapes are left as they are. -/
def PercentUnit.written : PercentUnit → PercentUnit
  | .byte b =>
    if isKeptByte b then .byte b
    else .escape (digitByte (b.toNat / 16)) (digitByte (b.toNat % 16))
  | u => u

section Digits

variable {b : UInt8} {n : Nat}

theorem forall_bytes {p : UInt8 → Prop} (all : ∀ n < 256, p (UInt8.ofNat n)) (b : UInt8) :
    p b := by
  have here := all b.toNat b.toNat_lt
  rwa [UInt8.ofNat_toNat] at here

theorem hexValue?_digitByte : ∀ n < 16, hexValue? (digitByte n) = some n := by
  decide

theorem isHexByte_digitByte (h : n < 16) : isHexByte (digitByte n) := by
  rw [isHexByte, hexValue?_digitByte n h]
  rfl

/-- Digits are kept, and so are percent signs. -/
theorem isKeptByte_of_isHexByte : isHexByte b → isKeptByte b :=
  forall_bytes (p := fun b => isHexByte b → isKeptByte b) (by decide +kernel) b

theorem isKeptByte_percent : isKeptByte 0x25 := by
  decide

/-- Only bytes of ASCII are kept. -/
theorem ascii_of_isKeptByte : isKeptByte b → b.toNat < 0x80 :=
  forall_bytes (p := fun b => isKeptByte b → b.toNat < 0x80) (by decide +kernel) b

theorem value_written (u : PercentUnit) : u.written.value = u.value := by
  cases u with
  | escape high low => rfl
  | byte b =>
    rw [PercentUnit.written]
    split
    · rfl
    · have small := b.toNat_lt
      have high : hexValue? (digitByte (b.toNat / 16)) = _ := hexValue?_digitByte _ (by omega)
      have low : hexValue? (digitByte (b.toNat % 16)) = _ := hexValue?_digitByte _ (by omega)
      have whole : 16 * (b.toNat / 16) + b.toNat % 16 = b.toNat := Nat.div_add_mod _ _
      simp [PercentUnit.value, high, low, whole]

end Digits

/-! ## Units that are written -/

section Units

variable {b : UInt8} {s : List UInt8}

theorem keptByte_kept (h : isKeptByte b) : keptByte b = [b] :=
  if_pos h

theorem keptByte_other (h : ¬ isKeptByte b) : keptByte b = escapedByte b :=
  if_neg h

theorem isHexByte_other (h : ¬ isKeptByte b) : isHexByte b = false :=
  Bool.eq_false_iff.mpr fun digit => h (isKeptByte_of_isHexByte digit)

/-- **Behind a percent sign two digits stand after writing where they stood before.** -/
theorem startsDigits_flatMap_keptByte (s : List UInt8) :
    startsDigits (s.flatMap keptByte) = startsDigits s := by
  have sign : isHexByte 0x25 = false := by decide
  cases s with
  | nil => rfl
  | cons b s =>
    rw [List.flatMap_cons]
    by_cases hb : isKeptByte b
    · rw [keptByte_kept hb]
      cases s with
      | nil => rfl
      | cons c s =>
        rw [List.flatMap_cons]
        by_cases hc : isKeptByte c
        · rw [keptByte_kept hc]
          rfl
        · rw [keptByte_other hc]
          calc (isHexByte b && isHexByte 0x25)
              = false := by rw [sign, Bool.and_false]
            _ = (isHexByte b && isHexByte c) := by rw [isHexByte_other hc, Bool.and_false]
    · rw [keptByte_other hb]
      have none : startsDigits (b :: s) = false := by
        cases s with
        | nil => rfl
        | cons c s => rw [startsDigits, isHexByte_other hb, Bool.false_and]
      rw [none, escapedByte, List.cons_append, List.cons_append, startsDigits, sign,
        Bool.false_and]

/-- A byte that begins no escape begins none after writing either. -/
theorem percentUnits_keptByte (h : b = 0x25 → startsDigits s = false) :
    percentUnits (keptByte b ++ s.flatMap keptByte) =
      (PercentUnit.byte b).written :: percentUnits (s.flatMap keptByte) := by
  rw [PercentUnit.written]
  by_cases hb : isKeptByte b
  · rw [keptByte_kept hb, if_pos hb]
    exact percentUnits_byte fun sign => (startsDigits_flatMap_keptByte s).trans (h sign)
  · have small := b.toNat_lt
    rw [keptByte_other hb, if_neg hb]
    exact percentUnits_escape (isHexByte_digitByte (by omega)) (isHexByte_digitByte (by omega))

/-- **Writing leaves escapes as they are, and forms none but those of the bytes it escapes.** -/
theorem percentUnits_flatMap_keptByte (s : List UInt8) :
    percentUnits (s.flatMap keptByte) = (percentUnits s).map PercentUnit.written := by
  fun_induction percentUnits s with
  | case1 high low s both ih =>
    obtain ⟨hh, hl⟩ := (Bool.and_eq_true _ _).mp both
    rw [List.flatMap_cons, List.flatMap_cons, List.flatMap_cons, keptByte_kept isKeptByte_percent,
      keptByte_kept (isKeptByte_of_isHexByte hh), keptByte_kept (isKeptByte_of_isHexByte hl),
      List.map_cons, ← ih]
    exact percentUnits_escape hh hl
  | case2 high low s other ih =>
    rw [List.map_cons, ← ih]
    exact percentUnits_keptByte fun _ => Bool.eq_false_iff.mpr other
  | case3 b s other ih =>
    rw [List.map_cons, ← ih]
    refine percentUnits_keptByte fun sign => ?_
    match s, other with
    | [], _ => rfl
    | [_], _ => rfl
    | high :: low :: s, other => exact (other high low s sign rfl).elim
  | case4 => rfl

end Units

/-! ## Addresses -/

theorem utf8Bytes_percentByte (b : UInt8) : utf8Bytes (percentByte b) = escapedByte b := by
  have digit : ∀ n < 16, String.utf8EncodeChar (hexDigit n) = [digitByte n] := by decide
  have small := b.toNat_lt
  have high := digit (b.toNat / 16) (by omega)
  have low := digit (b.toNat % 16) (by omega)
  have sign : String.utf8EncodeChar '%' = [0x25] := by decide
  simp [utf8Bytes, percentByte, escapedByte, high, low, sign]

/-- Only characters of ASCII are kept. -/
theorem ascii_of_isKept {c : Char} (h : isKept c) : c.toNat < 0x80 := by
  have marks : "-_.~!#$%()*+,/:;=?@".toList.all (·.toNat < 0x80) := by decide
  simp only [isKept, isAddressChar, Bool.or_eq_true, beq_iff_eq] at h
  rcases h with (rfl | rfl) | alphanum | mark
  · decide
  · decide
  · exact ascii_of_isAlphanum alphanum
  · exact of_decide_eq_true (List.all_eq_true.mp marks c (List.contains_iff_mem.mp mark))

theorem utf8Bytes_keptChar (c : Char) :
    utf8Bytes (keptChar c) = (String.utf8EncodeChar c).flatMap keptByte := by
  have escaped : ∀ bytes : List UInt8, (∀ b ∈ bytes, ¬ isKeptByte b) →
      utf8Bytes (bytes.flatMap percentByte) = bytes.flatMap keptByte := by
    intro bytes other
    rw [utf8Bytes, List.flatMap_assoc]
    refine List.flatMap_congr fun b hb => ?_
    rw [keptByte_other (other b hb)]
    exact utf8Bytes_percentByte b
  by_cases ascii : c.toNat < 0x80
  · have same : isKeptByte (UInt8.ofNat c.toNat) = isKept c := by
      have byte : (UInt8.ofNat c.toNat).toNat = c.toNat := by
        rw [UInt8.toNat_ofNat']
        omega
      rw [isKeptByte, byte, Char.ofNat_toNat]
    rw [keptChar, utf8EncodeChar_ascii ascii]
    by_cases kept : isKept c
    · rw [if_pos kept, List.flatMap_singleton, keptByte_kept (same.trans kept), utf8Bytes,
        List.flatMap_singleton, utf8EncodeChar_ascii ascii]
    · rw [if_neg kept]
      refine escaped _ fun b hb => ?_
      rw [List.mem_singleton.mp hb, same]
      exact kept
  · rw [keptChar, if_neg fun kept => ascii (ascii_of_isKept kept)]
    refine escaped _ fun b hb kept => ?_
    exact Nat.not_lt.mpr (le_of_mem_utf8EncodeChar ascii hb) (ascii_of_isKeptByte kept)

/-- What is kept of an address is settled byte by byte. -/
theorem utf8Bytes_keptAddress (url : List Char) :
    utf8Bytes (keptAddress url) = (utf8Bytes url).flatMap keptByte := by
  rw [utf8Bytes, keptAddress, List.flatMap_assoc, utf8Bytes, List.flatMap_assoc]
  exact List.flatMap_congr fun c _ => utf8Bytes_keptChar c

/-- **An address that was written stands for the bytes that it stood for.**  A reader of the page
who decodes the entities of the value, whichever names they know, and then the percent signs gets
the bytes that decoding the percent signs of the address gives.  Unit for unit it is the address:
its escapes are there, digit for digit, its other percent signs stand for themselves, and the only
escapes that are new are those of bytes that are written so. -/
theorem percentDecode_escapeAddress (names : EntityNames) (url : List Char) :
    let address := utf8Bytes (decodeEntities names (escapeAddress url))
    percentDecode address = percentDecode (utf8Bytes url) ∧
      percentUnits address = (percentUnits (utf8Bytes url)).map PercentUnit.written := by
  intro address
  have units : percentUnits address =
      (percentUnits (utf8Bytes url)).map PercentUnit.written := by
    rw [← percentUnits_flatMap_keptByte, ← utf8Bytes_keptAddress, ← decodeEntities_escapeAddress]
  refine ⟨?_, units⟩
  rw [percentDecode, units, List.map_map, percentDecode]
  exact List.map_congr_left fun u _ => value_written u

/-- A stray sign before an escape that is new, and one that only looks like two. -/
example : percentUnits (utf8Bytes (decodeEntities basicNames (escapeAddress "%4é%&%41".toList))) =
    [.byte 0x25, .byte 0x34, .escape 0x43 0x33, .escape 0x41 0x39, .byte 0x25, .byte 0x26,
      .escape 0x34 0x31] := by
  decide

end Html

end MarkdownForest
