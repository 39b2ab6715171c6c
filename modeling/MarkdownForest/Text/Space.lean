/-
# MarkdownForest.Text.Space -- white space, trimming and blank text

White space is the Unicode property White_Space: the ASCII blanks U+0009 to
U+000D and U+0020, NEL, the no-break space, and the separators of the General
Punctuation and CJK blocks.  U+200B and U+FEFF are not white space.

Trimming removes white space from the ends only; a text is blank when nothing
else is in it, which is when trimming leaves nothing (`isBlank_iff_trimStart`).
-/

namespace MarkdownForest.Text

set_option autoImplicit false

/-! ## Ranges of code points -/

/-- Whether `n` lies in one of the closed ranges. -/
def within (ranges : List (Nat × Nat)) (n : Nat) : Bool :=
  ranges.any fun r => r.1 ≤ n && n ≤ r.2

/-- The ranges of the property White_Space. -/
def spaceRanges : List (Nat × Nat) :=
  [(0x09, 0x0D), (0x20, 0x20), (0x85, 0x85), (0xA0, 0xA0), (0x1680, 0x1680), (0x2000, 0x200A),
    (0x2028, 0x2029), (0x202F, 0x202F), (0x205F, 0x205F), (0x3000, 0x3000)]

/-- The property White_Space. -/
def isSpace (c : Char) : Bool :=
  within spaceRanges c.toNat

/-! ## Trimming -/

/-- The list without the longest end of elements that satisfy `p`. -/
def dropEndWhile {α : Type} (p : α → Bool) (s : List α) : List α :=
  (s.reverse.dropWhile p).reverse

/-- The text without its leading white space. -/
def trimStart (s : List Char) : List Char :=
  s.dropWhile isSpace

/-- The text without its trailing white space. -/
def trimEnd (s : List Char) : List Char :=
  dropEndWhile isSpace s

/-- The text without white space at either end. -/
def trim (s : List Char) : List Char :=
  trimEnd (trimStart s)

/-- Nothing but white space. -/
def isBlank (s : List Char) : Bool :=
  s.all isSpace

theorem isBlank_iff_trimStart (s : List Char) : isBlank s = true ↔ trimStart s = [] := by
  induction s with
  | nil => simp [isBlank, trimStart]
  | cons c s ih =>
    simp only [isBlank, trimStart, List.all_cons, Bool.and_eq_true, List.dropWhile_cons] at ih ⊢
    by_cases hc : isSpace c <;> simp [hc, ih]

theorem isBlank_append (s t : List Char) : isBlank (s ++ t) = (isBlank s && isBlank t) := by
  simp [isBlank]

theorem length_dropEndWhile_le {α : Type} (p : α → Bool) (s : List α) :
    (dropEndWhile p s).length ≤ s.length := by
  simpa [dropEndWhile] using (List.dropWhile_sublist (l := s.reverse) p).length_le

theorem prefix_dropEndWhile {α : Type} (p : α → Bool) (s : List α) : dropEndWhile p s <+: s := by
  rw [← List.reverse_suffix, dropEndWhile, List.reverse_reverse]
  exact List.dropWhile_suffix p

end MarkdownForest.Text
