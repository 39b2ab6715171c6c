/-
# MarkdownForest.Inline.Angle -- what an angle bracket begins

After a `<` stand an autolink (a scheme and an address, or a mail address), a
tag or comment, or nothing of the kind, and then the bracket is plain text.  A
deterministic automaton decides (`angleRows`).  It reads one character at a time
and never turns back to an earlier end it passed: where it cannot go on, its
state says what was found and how many of the characters read belong to what
follows.  So a bracket may swallow the characters after it, and a stretch that
is the beginning of a tag and no more is text.

`angleRun_append`: the lexeme and the rest make up the input.
`angleRun_ne_nil`: the lexeme is never empty.
-/
import MarkdownForest.Text.Space

namespace MarkdownForest

set_option autoImplicit false

open Text

/-- What an angle bracket turned out to begin. -/
inductive AngleEnd where
  | bracket | text | uri | email | tag
  deriving DecidableEq, Repr

/-- Where a character leads. -/
inductive AngleMove where
  | move (state : Nat)
  | accept (found : AngleEnd)
  deriving DecidableEq, Repr

/-- A state: what is found when the character read leads nowhere, how many characters before it
are given back, and the moves by ranges of characters. -/
structure AngleRow where
  found : AngleEnd
  back : Nat
  moves : List (List (Nat × Nat) × AngleMove)

/-- The states; the first is entered after the bracket. -/
def angleRows : Array AngleRow :=
  #[
    -- 0
    ⟨.bracket, 0, [
      ([(0x21, 0x21)], .move 1),
      ([(0x23, 0x27), (0x2A, 0x2B), (0x2D, 0x2E), (0x30, 0x39), (0x3D, 0x3D), (0x3F, 0x3F),
         (0x5E, 0x5F), (0x7B, 0x7E)], .move 2),
      ([(0x2F, 0x2F)], .move 3),
      ([(0x41, 0x5A), (0x61, 0x7A)], .move 4)]⟩,
    -- 1
    ⟨.text, 0, [
      ([(0x21, 0x21), (0x23, 0x27), (0x2A, 0x2B), (0x2E, 0x39), (0x3D, 0x3D), (0x3F, 0x3F),
         (0x41, 0x5A), (0x5E, 0x5F), (0x61, 0x7E)], .move 2),
      ([(0x2D, 0x2D)], .move 5),
      ([(0x40, 0x40)], .move 6)]⟩,
    -- 2
    ⟨.text, 0, [
      ([(0x21, 0x21), (0x23, 0x27), (0x2A, 0x2B), (0x2D, 0x39), (0x3D, 0x3D), (0x3F, 0x3F),
         (0x41, 0x5A), (0x5E, 0x5F), (0x61, 0x7E)], .move 2),
      ([(0x40, 0x40)], .move 6)]⟩,
    -- 3
    ⟨.bracket, 1, [
      ([(0x21, 0x21), (0x23, 0x27), (0x2A, 0x2B), (0x2D, 0x39), (0x3D, 0x3D), (0x3F, 0x3F),
         (0x5E, 0x5F), (0x7B, 0x7E)], .move 2),
      ([(0x40, 0x40)], .move 7),
      ([(0x41, 0x5A), (0x61, 0x7A)], .move 8)]⟩,
    -- 4
    ⟨.bracket, 1, [
      ([(0x0A, 0x0A), (0x20, 0x20)], .move 9),
      ([(0x21, 0x21), (0x23, 0x27), (0x2A, 0x2A), (0x3D, 0x3D), (0x3F, 0x3F), (0x5E, 0x5F),
         (0x7B, 0x7E)], .move 2),
      ([(0x2B, 0x2B), (0x2E, 0x2E)], .move 10),
      ([(0x2D, 0x2D), (0x30, 0x39), (0x41, 0x5A), (0x61, 0x7A)], .move 11),
      ([(0x2F, 0x2F)], .move 12),
      ([(0x3E, 0x3E)], .accept .tag),
      ([(0x40, 0x40)], .move 7)]⟩,
    -- 5
    ⟨.text, 0, [
      ([(0x21, 0x21), (0x23, 0x27), (0x2A, 0x2B), (0x2E, 0x39), (0x3D, 0x3D), (0x3F, 0x3F),
         (0x41, 0x5A), (0x5E, 0x5F), (0x61, 0x7E)], .move 2),
      ([(0x2D, 0x2D)], .move 13),
      ([(0x40, 0x40)], .move 6)]⟩,
    -- 6
    ⟨.text, 1, [
      ([(0x2D, 0x2D), (0x30, 0x39), (0x41, 0x5A), (0x61, 0x7A)], .move 14)]⟩,
    -- 7
    ⟨.bracket, 2, [
      ([(0x2D, 0x2D), (0x30, 0x39), (0x41, 0x5A), (0x61, 0x7A)], .move 14)]⟩,
    -- 8
    ⟨.bracket, 0, [
      ([(0x0A, 0x0A), (0x20, 0x20)], .move 15),
      ([(0x21, 0x21), (0x23, 0x27), (0x2A, 0x2B), (0x2E, 0x2F), (0x3D, 0x3D), (0x3F, 0x3F),
         (0x5E, 0x5F), (0x7B, 0x7E)], .move 2),
      ([(0x2D, 0x2D), (0x30, 0x39), (0x41, 0x5A), (0x61, 0x7A)], .move 8),
      ([(0x3E, 0x3E)], .accept .tag),
      ([(0x40, 0x40)], .move 16)]⟩,
    -- 9
    ⟨.bracket, 0, [
      ([(0x0A, 0x0A), (0x20, 0x20)], .move 9),
      ([(0x2F, 0x2F)], .move 17),
      ([(0x3A, 0x3A), (0x41, 0x5A), (0x5F, 0x5F), (0x61, 0x7A)], .move 18),
      ([(0x3E, 0x3E)], .accept .tag)]⟩,
    -- 10
    ⟨.bracket, 0, [
      ([(0x21, 0x21), (0x23, 0x27), (0x2A, 0x2A), (0x2F, 0x2F), (0x3D, 0x3D), (0x3F, 0x3F),
         (0x5E, 0x5F), (0x7B, 0x7E)], .move 2),
      ([(0x2B, 0x2B), (0x2D, 0x2E), (0x30, 0x39), (0x41, 0x5A), (0x61, 0x7A)], .move 10),
      ([(0x3A, 0x3A)], .move 19),
      ([(0x40, 0x40)], .move 16)]⟩,
    -- 11
    ⟨.bracket, 0, [
      ([(0x0A, 0x0A), (0x20, 0x20)], .move 9),
      ([(0x21, 0x21), (0x23, 0x27), (0x2A, 0x2A), (0x3D, 0x3D), (0x3F, 0x3F), (0x5E, 0x5F),
         (0x7B, 0x7E)], .move 2),
      ([(0x2B, 0x2B), (0x2E, 0x2E)], .move 10),
      ([(0x2D, 0x2D), (0x30, 0x39), (0x41, 0x5A), (0x61, 0x7A)], .move 11),
      ([(0x2F, 0x2F)], .move 20),
      ([(0x3A, 0x3A)], .move 19),
      ([(0x3E, 0x3E)], .accept .tag),
      ([(0x40, 0x40)], .move 16)]⟩,
    -- 12
    ⟨.bracket, 2, [
      ([(0x21, 0x21), (0x23, 0x27), (0x2A, 0x2B), (0x2D, 0x39), (0x3D, 0x3D), (0x3F, 0x3F),
         (0x41, 0x5A), (0x5E, 0x5F), (0x61, 0x7E)], .move 2),
      ([(0x3E, 0x3E)], .accept .tag),
      ([(0x40, 0x40)], .move 21)]⟩,
    -- 13
    ⟨.bracket, 0, [
      ([(0x00, 0x20), (0x22, 0x22), (0x28, 0x29), (0x2C, 0x2C), (0x3A, 0x3C), (0x3E, 0x3E),
         (0x5B, 0x5D), (0x60, 0x60), (0x7F, 0x10FFFF)], .move 22),
      ([(0x21, 0x21), (0x23, 0x27), (0x2A, 0x2B), (0x2E, 0x39), (0x3D, 0x3D), (0x3F, 0x3F),
         (0x41, 0x5A), (0x5E, 0x5F), (0x61, 0x7E)], .move 13),
      ([(0x2D, 0x2D)], .move 23),
      ([(0x40, 0x40)], .move 24)]⟩,
    -- 14
    ⟨.text, 0, [
      ([(0x2D, 0x2D), (0x30, 0x39), (0x41, 0x5A), (0x61, 0x7A)], .move 14),
      ([(0x2E, 0x2E)], .move 6),
      ([(0x3E, 0x3E)], .accept .email)]⟩,
    -- 15
    ⟨.text, 0, [
      ([(0x0A, 0x0A), (0x20, 0x20)], .move 15),
      ([(0x3E, 0x3E)], .accept .tag)]⟩,
    -- 16
    ⟨.bracket, 1, [
      ([(0x2D, 0x2D), (0x30, 0x39), (0x41, 0x5A), (0x61, 0x7A)], .move 14)]⟩,
    -- 17
    ⟨.bracket, 1, [
      ([(0x3E, 0x3E)], .accept .tag)]⟩,
    -- 18
    ⟨.text, 0, [
      ([(0x0A, 0x0A), (0x20, 0x20)], .move 25),
      ([(0x2D, 0x2E), (0x30, 0x3A), (0x41, 0x5A), (0x5F, 0x5F), (0x61, 0x7A)], .move 18),
      ([(0x2F, 0x2F)], .move 26),
      ([(0x3D, 0x3D)], .move 27),
      ([(0x3E, 0x3E)], .accept .tag)]⟩,
    -- 19
    ⟨.text, 0, [
      ([(0x00, 0x09), (0x0B, 0x1F), (0x21, 0x3B), (0x3D, 0x3D), (0x3F, 0x10FFFF)], .move 19),
      ([(0x3E, 0x3E)], .accept .uri)]⟩,
    -- 20
    ⟨.bracket, 1, [
      ([(0x21, 0x21), (0x23, 0x27), (0x2A, 0x2B), (0x2D, 0x39), (0x3D, 0x3D), (0x3F, 0x3F),
         (0x41, 0x5A), (0x5E, 0x5F), (0x61, 0x7E)], .move 2),
      ([(0x3E, 0x3E)], .accept .tag),
      ([(0x40, 0x40)], .move 7)]⟩,
    -- 21
    ⟨.bracket, 3, [
      ([(0x2D, 0x2D), (0x30, 0x39), (0x41, 0x5A), (0x61, 0x7A)], .move 14)]⟩,
    -- 22
    ⟨.text, 0, [
      ([(0x00, 0x2C), (0x2E, 0x10FFFF)], .move 22),
      ([(0x2D, 0x2D)], .move 28)]⟩,
    -- 23
    ⟨.bracket, 1, [
      ([(0x00, 0x20), (0x22, 0x22), (0x28, 0x29), (0x2C, 0x2C), (0x3A, 0x3C), (0x3E, 0x3E),
         (0x5B, 0x5D), (0x60, 0x60), (0x7F, 0x10FFFF)], .move 22),
      ([(0x21, 0x21), (0x23, 0x27), (0x2A, 0x2B), (0x2E, 0x39), (0x3D, 0x3D), (0x3F, 0x3F),
         (0x41, 0x5A), (0x5E, 0x5F), (0x61, 0x7E)], .move 13),
      ([(0x2D, 0x2D)], .move 12),
      ([(0x40, 0x40)], .move 29)]⟩,
    -- 24
    ⟨.bracket, 1, [
      ([(0x00, 0x2C), (0x2E, 0x2F), (0x3A, 0x40), (0x5B, 0x60), (0x7B, 0x10FFFF)], .move 22),
      ([(0x2D, 0x2D)], .move 30),
      ([(0x30, 0x39), (0x41, 0x5A), (0x61, 0x7A)], .move 31)]⟩,
    -- 25
    ⟨.text, 0, [
      ([(0x0A, 0x0A), (0x20, 0x20)], .move 25),
      ([(0x3D, 0x3D)], .move 27)]⟩,
    -- 26
    ⟨.text, 1, [
      ([(0x3E, 0x3E)], .accept .tag)]⟩,
    -- 27
    ⟨.text, 0, [
      ([(0x00, 0x09), (0x0B, 0x1F), (0x21, 0x21), (0x23, 0x26), (0x28, 0x3B), (0x3F, 0x5F),
         (0x61, 0x10FFFF)], .move 32),
      ([(0x0A, 0x0A), (0x20, 0x20)], .move 27),
      ([(0x22, 0x22)], .move 33),
      ([(0x27, 0x27)], .move 34)]⟩,
    -- 28
    ⟨.text, 1, [
      ([(0x00, 0x2C), (0x2E, 0x10FFFF)], .move 22),
      ([(0x2D, 0x2D)], .move 35)]⟩,
    -- 29
    ⟨.bracket, 2, [
      ([(0x00, 0x2C), (0x2E, 0x2F), (0x3A, 0x40), (0x5B, 0x60), (0x7B, 0x10FFFF)], .move 22),
      ([(0x2D, 0x2D)], .move 30),
      ([(0x30, 0x39), (0x41, 0x5A), (0x61, 0x7A)], .move 31)]⟩,
    -- 30
    ⟨.bracket, 0, [
      ([(0x00, 0x2C), (0x2F, 0x2F), (0x3A, 0x3D), (0x3F, 0x40), (0x5B, 0x60), (0x7B, 0x10FFFF)],
         .move 22),
      ([(0x2D, 0x2D)], .move 36),
      ([(0x2E, 0x2E)], .move 37),
      ([(0x30, 0x39), (0x41, 0x5A), (0x61, 0x7A)], .move 31),
      ([(0x3E, 0x3E)], .move 38)]⟩,
    -- 31
    ⟨.bracket, 0, [
      ([(0x00, 0x2C), (0x2F, 0x2F), (0x3A, 0x3D), (0x3F, 0x40), (0x5B, 0x60), (0x7B, 0x10FFFF)],
         .move 22),
      ([(0x2D, 0x2D)], .move 30),
      ([(0x2E, 0x2E)], .move 37),
      ([(0x30, 0x39), (0x41, 0x5A), (0x61, 0x7A)], .move 31),
      ([(0x3E, 0x3E)], .move 38)]⟩,
    -- 32
    ⟨.text, 0, [
      ([(0x00, 0x09), (0x0B, 0x1F), (0x21, 0x21), (0x23, 0x26), (0x28, 0x3B), (0x3F, 0x5F),
         (0x61, 0x10FFFF)], .move 32),
      ([(0x0A, 0x0A), (0x20, 0x20)], .move 39),
      ([(0x3E, 0x3E)], .accept .tag)]⟩,
    -- 33
    ⟨.text, 0, [
      ([(0x00, 0x21), (0x23, 0x10FFFF)], .move 33),
      ([(0x22, 0x22)], .move 40)]⟩,
    -- 34
    ⟨.text, 0, [
      ([(0x00, 0x26), (0x28, 0x10FFFF)], .move 34),
      ([(0x27, 0x27)], .move 40)]⟩,
    -- 35
    ⟨.text, 2, [
      ([(0x3E, 0x3E)], .accept .tag)]⟩,
    -- 36
    ⟨.bracket, 1, [
      ([(0x2D, 0x2D), (0x30, 0x39), (0x41, 0x5A), (0x61, 0x7A)], .move 14),
      ([(0x2E, 0x2E)], .move 7),
      ([(0x3E, 0x3E)], .accept .tag)]⟩,
    -- 37
    ⟨.bracket, 0, [
      ([(0x00, 0x2C), (0x2E, 0x2F), (0x3A, 0x40), (0x5B, 0x60), (0x7B, 0x10FFFF)], .move 22),
      ([(0x2D, 0x2D)], .move 30),
      ([(0x30, 0x39), (0x41, 0x5A), (0x61, 0x7A)], .move 31)]⟩,
    -- 38
    ⟨.email, 0, [
      ([(0x00, 0x2C), (0x2E, 0x10FFFF)], .move 22),
      ([(0x2D, 0x2D)], .move 41)]⟩,
    -- 39
    ⟨.text, 0, [
      ([(0x0A, 0x0A), (0x20, 0x20)], .move 39),
      ([(0x3A, 0x3A), (0x41, 0x5A), (0x5F, 0x5F), (0x61, 0x7A)], .move 18)]⟩,
    -- 40
    ⟨.text, 0, [
      ([(0x0A, 0x0A), (0x20, 0x20)], .move 39),
      ([(0x2F, 0x2F)], .move 26),
      ([(0x3E, 0x3E)], .accept .tag)]⟩,
    -- 41
    ⟨.bracket, 1, [
      ([(0x00, 0x2C), (0x2E, 0x10FFFF)], .move 22),
      ([(0x2D, 0x2D)], .move 42)]⟩,
    -- 42
    ⟨.bracket, 2, [
      ([(0x3E, 0x3E)], .accept .tag)]⟩]

/-- The state of a number. -/
def angleRow (state : Nat) : AngleRow :=
  angleRows.getD state ⟨.bracket, 0, []⟩

/-- The move on a character. -/
def AngleRow.move? (row : AngleRow) (c : Char) : Option AngleMove :=
  (row.moves.find? fun m => within m.1 c.toNat).map Prod.snd

/-- Runs the automaton; `taken` holds the characters read so far, the last one first.  The result
is what was found, its characters, the last one first, and the rest. -/
def angleRun (state : Nat) (taken : List Char) : List Char → AngleEnd × List Char × List Char
  | [] =>
    let row := angleRow state
    (row.found, taken.drop row.back, (taken.take row.back).reverse)
  | c :: s =>
    let row := angleRow state
    match row.move? c with
    | some (.move next) => angleRun next (c :: taken) s
    | some (.accept found) => (found, c :: taken, s)
    | none => (row.found, taken.drop row.back, (taken.take row.back).reverse ++ c :: s)

theorem angleRun_append (state : Nat) (taken s : List Char) :
    (angleRun state taken s).2.1.reverse ++ (angleRun state taken s).2.2 = taken.reverse ++ s := by
  induction s generalizing state taken with
  | nil =>
    simp only [angleRun, ← List.reverse_append, List.take_append_drop, List.append_nil]
  | cons c s ih =>
    simp only [angleRun]
    split
    · simpa using ih _ (c :: taken)
    · simp
    · rw [← List.append_assoc, ← List.reverse_append, List.take_append_drop]

/-! ## Lexemes are not empty -/

/-- The least number of characters read on the way to each state, the bracket included. -/
def angleDepths : List Nat :=
  [1, 2, 2, 2, 2, 3, 3, 3, 3, 3, 3, 3, 3, 4, 4, 4, 4, 4, 4, 4, 4, 4,
    5, 5, 5, 5, 5, 5, 6, 6, 6, 6, 6, 6, 6, 7, 7, 7, 7, 7, 7, 8, 9]

/-- The depth of a state. -/
def angleDepth (state : Nat) : Nat :=
  angleDepths.getD state 1

/-- Fewer characters are given back than were read, and no move skips a depth. -/
def AngleRow.KeepsDepth (state : Nat) (row : AngleRow) : Prop :=
  row.back < angleDepth state ∧ ∀ m ∈ row.moves, match m.2 with
    | .move next => angleDepth next ≤ angleDepth state + 1
    | .accept _ => True

instance (state : Nat) (row : AngleRow) : Decidable (row.KeepsDepth state) := by
  unfold AngleRow.KeepsDepth
  have : ∀ m : List (Nat × Nat) × AngleMove, Decidable (match m.2 with
      | .move next => angleDepth next ≤ angleDepth state + 1
      | .accept _ => True) := fun m => by split <;> infer_instance
  infer_instance

theorem angleRow_keepsDepth (state : Nat) : (angleRow state).KeepsDepth state := by
  by_cases h : state < angleRows.size
  · have all : ∀ i : Fin angleRows.size, (angleRow i).KeepsDepth i := by decide
    exact all ⟨state, h⟩
  · have hd : angleDepth state = 1 := by
      have : angleDepths.length ≤ state := Nat.le_of_not_lt h
      simp [angleDepth, List.getD_eq_getElem?_getD, List.getElem?_eq_none this]
    have hr : angleRow state = ⟨.bracket, 0, []⟩ := by
      simp [angleRow, Array.getD, h]
    simp [hr, AngleRow.KeepsDepth, hd]

theorem AngleRow.move?_mem {row : AngleRow} {c : Char} {m : AngleMove} (h : row.move? c = some m) :
    ∃ ranges, (ranges, m) ∈ row.moves := by
  obtain ⟨⟨ranges, n⟩, hf, rfl⟩ := Option.map_eq_some_iff.1 h
  exact ⟨ranges, List.mem_of_find?_eq_some hf⟩

theorem angleRun_ne_nil (state : Nat) (taken s : List Char) (h : angleDepth state ≤ taken.length) :
    (angleRun state taken s).2.1 ≠ [] := by
  induction s generalizing state taken with
  | nil =>
    have := (angleRow_keepsDepth state).1
    simp only [angleRun, ne_eq, List.drop_eq_nil_iff, Nat.not_le]
    omega
  | cons c s ih =>
    have hk := angleRow_keepsDepth state
    simp only [angleRun]
    split
    · next next hm =>
      obtain ⟨ranges, hr⟩ := AngleRow.move?_mem hm
      have := hk.2 _ hr
      exact ih next (c :: taken) (by simp only [List.length_cons]; omega)
    · simp
    · have := hk.1
      simp only [ne_eq, List.drop_eq_nil_iff, Nat.not_le]
      omega

end MarkdownForest
