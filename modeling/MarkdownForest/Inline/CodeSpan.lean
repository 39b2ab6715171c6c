/-
# MarkdownForest.Inline.CodeSpan -- the contents of code spans

A code span ends at the next run of exactly as many backticks as opened it
(`closeCode`).  Line feeds in it are spaces; and one space goes from each end
when both ends have one and the contents are not spaces only (`normalizeCode`).
-/
import MarkdownForest.Text.Space

namespace MarkdownForest

set_option autoImplicit false

/-- The text before the next run of exactly `count` backticks, and the text after that run. -/
def closeCode (count : Nat) (s : List Char) : Option (List Char × List Char) :=
  match s with
  | [] => none
  | c :: s =>
    if c = '\x60' then
      let run := s.takeWhile (· == '\x60')
      let rest := s.dropWhile (· == '\x60')
      if run.length + 1 = count then some ([], rest)
      else (closeCode count rest).map fun (inside, after) => (c :: run ++ inside, after)
    else (closeCode count s).map fun (inside, after) => (c :: inside, after)
termination_by s.length
decreasing_by
  · have := (List.dropWhile_sublist (l := s) (· == '\x60')).length_le
    simp only [List.length_cons]
    omega
  · simp

theorem length_closeCode_le {count : Nat} {s inside after : List Char}
    (h : closeCode count s = some (inside, after)) : after.length ≤ s.length := by
  induction hn : s.length using Nat.strongRecOn generalizing s inside with
  | ind n ih =>
    cases s with
    | nil => simp [closeCode] at h
    | cons c s =>
      have hd := (List.dropWhile_sublist (l := s) (· == '\x60')).length_le
      simp only [List.length_cons] at hn
      rw [closeCode] at h
      split at h
      · dsimp only at h
        split at h
        · cases h; omega
        · obtain ⟨⟨i, a⟩, hi, he⟩ := Option.map_eq_some_iff.1 h
          cases he
          have := ih _ (by omega) hi rfl
          omega
      · obtain ⟨⟨i, a⟩, hi, he⟩ := Option.map_eq_some_iff.1 h
        cases he
        have := ih _ (by omega) hi rfl
        omega

/-- The contents of a code span as they are shown. -/
def normalizeCode (raw : List Char) : List Char :=
  let s := raw.map fun c => if c = '\n' then ' ' else c
  if 2 ≤ s.length && s.head? = some ' ' && s.getLast? = some ' ' && s.any (· != ' ') then
    (s.drop 1).dropLast
  else s

end MarkdownForest
