/-
# MarkdownForest.Text.Utf8 -- UTF-8 lengths and decoding

Positions in a source are counted in UTF-8 bytes (`utf8Length`).

Bytes are read in units (`units`): a character, or a malformed stretch.  A
malformed stretch is the longest beginning of a well-formed character that is
not one, and at least one byte.  Strict decoding (`decode`) fails with the
number of bytes before the first malformed stretch; lenient decoding
(`decodeLossy`) puts U+FFFD for each of them.
-/

namespace MarkdownForest.Text

set_option autoImplicit false

/-! ## Lengths -/

/-- The number of bytes that the UTF-8 form of a text has. -/
def utf8Length : List Char → Nat
  | [] => 0
  | c :: s => c.utf8Size + utf8Length s

theorem utf8Length_append (s t : List Char) : utf8Length (s ++ t) = utf8Length s + utf8Length t := by
  induction s with
  | nil => simp [utf8Length]
  | cons c s ih => simp [utf8Length, ih, Nat.add_assoc]

theorem length_le_utf8Length (s : List Char) : s.length ≤ utf8Length s := by
  induction s with
  | nil => simp
  | cons c s ih =>
    have := c.utf8Size_pos
    simp only [List.length_cons, utf8Length]
    omega

/-- The length is the number of bytes that a string is stored in. -/
theorem utf8Length_toList (s : String) : utf8Length s.toList = s.utf8ByteSize := by
  have encoded : ∀ t : List Char, utf8Length t = t.utf8Encode.size := by
    intro t
    induction t with
    | nil => rfl
    | cons c t ih => simp [utf8Length, ih, List.utf8Encode]
  rw [encoded, ← String.size_toByteArray, ← String.toByteArray_ofList, String.ofList_toList]

/-! ## Units -/

/-- What stands at one place of a byte string. -/
inductive Utf8Unit where
  | char (c : Char) (width : Nat)
  | malformed (width : Nat)
  deriving DecidableEq, Repr

/-- The lead of a character: how many bytes follow, the bits it carries, and the
range in which the second byte must lie. -/
structure Utf8Lead where
  following : Nat
  bits : Nat
  low : Nat
  high : Nat

/-- The lead that a byte is, if it can start a character. -/
def Utf8Lead.ofByte? (b : Nat) : Option Utf8Lead :=
  if b < 0x80 then some ⟨0, b, 0x80, 0xBF⟩
  else if b < 0xC2 then none
  else if b < 0xE0 then some ⟨1, b - 0xC0, 0x80, 0xBF⟩
  else if b = 0xE0 then some ⟨2, 0, 0xA0, 0xBF⟩
  else if b = 0xED then some ⟨2, 0x0D, 0x80, 0x9F⟩
  else if b < 0xF0 then some ⟨2, b - 0xE0, 0x80, 0xBF⟩
  else if b = 0xF0 then some ⟨3, 0, 0x90, 0xBF⟩
  else if b < 0xF4 then some ⟨3, b - 0xF0, 0x80, 0xBF⟩
  else if b = 0xF4 then some ⟨3, 4, 0x80, 0x8F⟩
  else none

/-- Reads `following` more bytes of a character of which `width` bytes are read. -/
def followUnit (following low high bits width : Nat) (bytes : List UInt8) : Utf8Unit × List UInt8 :=
  match following, bytes with
  | 0, rest => (.char (Char.ofNat bits) width, rest)
  | _ + 1, [] => (.malformed width, [])
  | n + 1, b :: rest =>
    if low ≤ b.toNat ∧ b.toNat ≤ high then
      followUnit n 0x80 0xBF (bits * 64 + b.toNat % 64) (width + 1) rest
    else (.malformed width, b :: rest)

theorem length_followUnit_le (n low high bits width : Nat) (bytes : List UInt8) :
    (followUnit n low high bits width bytes).2.length ≤ bytes.length := by
  induction bytes generalizing n low high bits width with
  | nil => cases n <;> simp [followUnit]
  | cons b rest ih =>
    cases n with
    | zero => simp [followUnit]
    | succ n =>
      simp only [followUnit]
      split
      · exact Nat.le_trans (ih ..) (Nat.le_succ _)
      · simp

/-- Reads the unit that starts with the byte `b`. -/
def readUnit (b : UInt8) (rest : List UInt8) : Utf8Unit × List UInt8 :=
  match Utf8Lead.ofByte? b.toNat with
  | none => (.malformed 1, rest)
  | some lead => followUnit lead.following lead.low lead.high lead.bits 1 rest

theorem length_readUnit_le (b : UInt8) (rest : List UInt8) :
    (readUnit b rest).2.length ≤ rest.length := by
  unfold readUnit
  split
  · simp
  · exact length_followUnit_le ..

/-- The units of a byte string, in order. -/
def units (bytes : List UInt8) : List Utf8Unit :=
  match bytes with
  | [] => []
  | b :: rest => (readUnit b rest).1 :: units (readUnit b rest).2
termination_by bytes.length
decreasing_by
  have := length_readUnit_le b rest
  simp only [List.length_cons]
  omega

/-! ## Decoding -/

/-- The characters of a unit list, or the length of its well-formed beginning. -/
def decodeUnits (before : Nat) : List Utf8Unit → Except Nat (List Char)
  | [] => .ok []
  | .char c width :: more => (decodeUnits (before + width) more).map (c :: ·)
  | .malformed _ :: _ => .error before

/-- The text that `bytes` encode, or the number of bytes before the first malformed ones. -/
def decode (bytes : List UInt8) : Except Nat (List Char) :=
  decodeUnits 0 (units bytes)

/-- The text that `bytes` encode, with U+FFFD for each malformed stretch. -/
def decodeLossy (bytes : List UInt8) : List Char :=
  (units bytes).map fun
    | .char c _ => c
    | .malformed _ => Char.ofNat 0xFFFD

end MarkdownForest.Text
