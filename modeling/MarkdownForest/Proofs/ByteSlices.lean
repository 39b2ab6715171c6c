/-
# MarkdownForest.Proofs.ByteSlices -- parts of a text between bytes

A text may be cut at a byte only where a character begins or the text ends
(`sliceFrom?_eq_some`, `sliceTo?_eq_some`, `slice?_eq_some`).  A cut anywhere else,
or past the end, fails.

Among characters of one byte any cut succeeds, and it is the cut by characters
(`sliceFrom?_narrow`).
-/
import MarkdownForest.Text.Utf8
import Mathlib.Data.List.TakeWhile

namespace MarkdownForest.Text

set_option autoImplicit false

/-- The text from the byte `i` on. -/
def sliceFrom? (i : Nat) (s : List Char) : Option (List Char) :=
  match i, s with
  | 0, s => some s
  | _ + 1, [] => none
  | i + 1, c :: s => if i + 1 < c.utf8Size then none else sliceFrom? (i + 1 - c.utf8Size) s

/-- The text before the byte `i`. -/
def sliceTo? (i : Nat) (s : List Char) : Option (List Char) :=
  match i, s with
  | 0, _ => some []
  | _ + 1, [] => none
  | i + 1, c :: s =>
    if i + 1 < c.utf8Size then none else (sliceTo? (i + 1 - c.utf8Size) s).map (c :: ·)

/-- The text from the byte `i` to before the byte `j`. -/
def slice? (i j : Nat) (s : List Char) : Option (List Char) :=
  if j < i then none else (sliceFrom? i s).bind (sliceTo? (j - i))

section Slices

variable {i j : Nat} {s t : List Char}

theorem sliceFrom?_cons (c : Char) (i : Nat) (s : List Char) :
    sliceFrom? (c.utf8Size + i) (c :: s) = sliceFrom? i s := by
  have := c.utf8Size_pos
  rw [show c.utf8Size + i = c.utf8Size + i - 1 + 1 by omega, sliceFrom?, if_neg (by omega)]
  congr 1
  omega

theorem sliceTo?_cons (c : Char) (i : Nat) (s : List Char) :
    sliceTo? (c.utf8Size + i) (c :: s) = (sliceTo? i s).map (c :: ·) := by
  have := c.utf8Size_pos
  rw [show c.utf8Size + i = c.utf8Size + i - 1 + 1 by omega, sliceTo?, if_neg (by omega)]
  congr 2
  omega

theorem sliceFrom?_append (s t : List Char) : sliceFrom? (utf8Length s) (s ++ t) = some t := by
  induction s with
  | nil => simp [utf8Length, sliceFrom?]
  | cons c s ih => rw [utf8Length, List.cons_append, sliceFrom?_cons, ih]

theorem sliceTo?_append (s t : List Char) : sliceTo? (utf8Length s) (s ++ t) = some s := by
  induction s with
  | nil => simp [utf8Length, sliceTo?]
  | cons c s ih => rw [utf8Length, List.cons_append, sliceTo?_cons, ih, Option.map_some]

/-- What is cut off is a beginning of so many bytes. -/
theorem sliceFrom?_eq_some :
    sliceFrom? i s = some t ↔ ∃ before, s = before ++ t ∧ utf8Length before = i := by
  refine ⟨fun h => ?_, fun ⟨before, e, bytes⟩ => e ▸ bytes ▸ sliceFrom?_append before t⟩
  fun_induction sliceFrom? i s with
  | case1 s => exact ⟨[], by simpa using h, rfl⟩
  | case2 i => simp at h
  | case3 i c s short => simp at h
  | case4 i c s long ih =>
    obtain ⟨before, rfl, bytes⟩ := ih h
    exact ⟨c :: before, rfl, by rw [utf8Length]; omega⟩

/-- What is cut off is an end, and so many bytes are left. -/
theorem sliceTo?_eq_some :
    sliceTo? i s = some t ↔ ∃ after, s = t ++ after ∧ utf8Length t = i := by
  refine ⟨fun h => ?_, fun ⟨after, e, bytes⟩ => e ▸ bytes ▸ sliceTo?_append t after⟩
  fun_induction sliceTo? i s generalizing t with
  | case1 s =>
    obtain rfl := Option.some.inj h
    exact ⟨s, rfl, rfl⟩
  | case2 i => simp at h
  | case3 i c s short => simp at h
  | case4 i c s long ih =>
    obtain ⟨t, ht, rfl⟩ := Option.map_eq_some_iff.mp h
    obtain ⟨after, rfl, bytes⟩ := ih ht
    exact ⟨after, rfl, by rw [utf8Length]; omega⟩

theorem slice?_eq_some : slice? i j s = some t ↔
    ∃ before after, s = before ++ t ++ after ∧ utf8Length before = i ∧ i + utf8Length t = j := by
  unfold slice?
  split
  · simp only [reduceCtorEq, false_iff]
    rintro ⟨before, after, -, -, e⟩
    omega
  · simp only [Option.bind_eq_some_iff, sliceFrom?_eq_some, sliceTo?_eq_some]
    constructor
    · rintro ⟨u, ⟨before, rfl, hi⟩, after, rfl, hj⟩
      exact ⟨before, after, by simp, hi, by omega⟩
    · rintro ⟨before, after, rfl, hi, hj⟩
      exact ⟨t ++ after, ⟨before, by simp, hi⟩, after, rfl, by omega⟩

theorem slice?_append (before s after : List Char) :
    slice? (utf8Length before) (utf8Length before + utf8Length s) (before ++ s ++ after) = some s :=
  slice?_eq_some.mpr ⟨before, after, rfl, rfl, rfl⟩

/-- Behind the first characters of what begins at a byte begins the rest. -/
theorem sliceFrom?_add {u : List Char} (h : sliceFrom? i s = some (t ++ u)) :
    sliceFrom? (i + utf8Length t) s = some u := by
  obtain ⟨before, rfl, rfl⟩ := sliceFrom?_eq_some.mp h
  rw [← utf8Length_append, ← List.append_assoc]
  exact sliceFrom?_append (before ++ t) u

theorem sliceFrom?_next {c : Char} (h : sliceFrom? i s = some (c :: t)) :
    sliceFrom? (i + c.utf8Size) s = some t :=
  sliceFrom?_add (t := [c]) h

/-- A shorter rest of the text begins at a later byte. -/
theorem lt_of_sliceFrom? {u : List Char} (hi : sliceFrom? i s = some t)
    (hj : sliceFrom? j s = some u) (shorter : u.length < t.length) : i < j := by
  obtain ⟨before, rfl, rfl⟩ := sliceFrom?_eq_some.mp hi
  obtain ⟨longer, e, rfl⟩ := sliceFrom?_eq_some.mp hj
  rcases List.append_eq_append_iff.mp e with ⟨k, rfl, rfl⟩ | ⟨k, -, rfl⟩
  · rw [utf8Length_append]
    have := length_le_utf8Length k
    rw [List.length_append] at shorter
    omega
  · rw [List.length_append] at shorter
    omega

/-! ## Characters of one byte -/

/-- A text of characters of one byte each. -/
def Narrow (s : List Char) : Prop :=
  ∀ c ∈ s, c.utf8Size = 1

theorem Narrow.utf8Length_eq (h : Narrow s) : utf8Length s = s.length := by
  induction s with
  | nil => rfl
  | cons c s ih =>
    rw [utf8Length, h c (by simp), ih fun d hd => h d (by simp [hd]), List.length_cons,
      Nat.add_comm]

theorem Narrow.append (hs : Narrow s) (ht : Narrow t) : Narrow (s ++ t) := fun c hc =>
  (List.mem_append.mp hc).elim (hs c) (ht c)

theorem narrow_replicate {c : Char} (hc : c.utf8Size = 1) (n : Nat) :
    Narrow (List.replicate n c) := fun d hd => by
  rw [List.eq_of_mem_replicate hd, hc]

theorem narrow_singleton {c : Char} (hc : c.utf8Size = 1) : Narrow [c] :=
  narrow_replicate hc 1

/-- A class of characters below U+0080 is narrow. -/
theorem narrow_takeWhile {p : Char → Bool} (hp : ∀ c, p c → c.utf8Size = 1) (s : List Char) :
    Narrow (s.takeWhile p) := fun c hc => hp c (List.mem_takeWhile_imp hc)

/-- A run of one character, as long as it is. -/
theorem takeWhile_eq_replicate (c : Char) (s : List Char) :
    s.takeWhile (· == c) = List.replicate (s.takeWhile (· == c)).length c :=
  List.eq_replicate_of_mem fun d hd => by simpa using List.mem_takeWhile_imp hd

/-- A cut behind characters of one byte. -/
theorem sliceFrom?_narrow {n : Nat} (h : Narrow (s.take n)) (hn : n ≤ s.length) :
    sliceFrom? n s = some (s.drop n) := by
  refine sliceFrom?_eq_some.mpr ⟨s.take n, (List.take_append_drop n s).symm, ?_⟩
  rw [h.utf8Length_eq, List.length_take]
  omega

theorem sliceTo?_narrow {n : Nat} (h : Narrow (s.take n)) (hn : n ≤ s.length) :
    sliceTo? n s = some (s.take n) := by
  refine sliceTo?_eq_some.mpr ⟨s.drop n, (List.take_append_drop n s).symm, ?_⟩
  rw [h.utf8Length_eq, List.length_take]
  omega

end Slices

end MarkdownForest.Text
