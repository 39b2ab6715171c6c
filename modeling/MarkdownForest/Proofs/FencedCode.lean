/-
# MarkdownForest.Proofs.FencedCode -- code between fences

The fence around written code is longer than any run of its mark in the code, so
no line of the code closes it.  The mark is a tilde when a backtick stands in the
info string, and a space keeps the info string from lengthening the fence.

* `runLength_le_longestRun`: the run at the start of any end of a line of the code;
* `splitOn_codeBlock`: the lines of a written code block;
* `take_codeBlock`: they are one code block, with the info string and the code it
  was written from.
-/
import MarkdownForest.CommonMark.Escape
import MarkdownForest.Proofs.Scanning
import MarkdownForest.Proofs.TextLines

namespace MarkdownForest

set_option autoImplicit false

open Text CommonMark
open Line (Verbatim rest_of_first indent_of_first)

/-! ## Runs -/

section Runs

variable {c : Char} {r s t : List Char} {lines : List (List Char)}

theorem le_longestRunAfter (c : Char) (current : Nat) (s : List Char) :
    current + runLength c s ≤ longestRunAfter c current s := by
  induction s generalizing current with
  | nil => simp [runLength, longestRunAfter]
  | cons d s ih =>
    unfold longestRunAfter
    split
    · rename_i same
      have run : runLength c (d :: s) = runLength c s + 1 := by simp [runLength, same]
      have := ih (current + 1)
      omega
    · rename_i other
      have run : runLength c (d :: s) = 0 := by simp [runLength, other]
      rw [run]
      exact Nat.le_max_left _ _

theorem longestRunAfter_mono {m n : Nat} (h : m ≤ n) (s : List Char) :
    longestRunAfter c m s ≤ longestRunAfter c n s := by
  induction s generalizing m n with
  | nil => exact h
  | cons d s ih =>
    unfold longestRunAfter
    split
    · exact ih (Nat.succ_le_succ h)
    · omega

/-- A run in the end of a text is a run in the text. -/
theorem longestRun_le_append (current : Nat) (s : List Char) :
    longestRun c t ≤ longestRunAfter c current (s ++ t) := by
  induction s generalizing current with
  | nil => exact longestRunAfter_mono (Nat.zero_le _) t
  | cons d s ih =>
    rw [List.cons_append]
    unfold longestRunAfter
    split
    · exact ih _
    · exact (ih 0).trans (Nat.le_max_right _ _)

theorem longestRun_of_not_mem (h : c ∉ s) : longestRun c s = 0 := by
  induction s with
  | nil => rfl
  | cons d s ih =>
    obtain ⟨other, more⟩ := not_or.mp (fun e => h (List.mem_cons.mpr e))
    have rest : longestRunAfter c 0 s = 0 := ih more
    simp [longestRun, longestRunAfter, Ne.symm other, rest]

theorem runLength_append_le (c : Char) (s t : List Char) :
    runLength c s ≤ runLength c (s ++ t) := by
  unfold runLength
  rw [List.takeWhile_append]
  split
  · rename_i all
    rw [List.length_append]
    omega
  · exact le_refl _

theorem runLength_replicate (n : Nat) (h : s.head?.any (· == c) = false) :
    runLength c (List.replicate n c ++ s) = n := by
  rw [runLength, (span_append (by simp) h).1, List.length_replicate]

theorem endedLines_cons (s : List Char) (lines : List (List Char)) :
    endedLines (s :: lines) = s ++ '\n' :: endedLines lines := by
  simp [endedLines]

/-- A run at the start of an end of a line is no longer than the longest of the text. -/
theorem runLength_le_longestRun (c : Char) (hs : s ∈ lines) (end_ : r <:+ s) :
    runLength c r ≤ longestRun c (endedLines lines) := by
  obtain ⟨front, back, rfl⟩ := List.append_of_mem hs
  obtain ⟨k, rfl⟩ := end_
  have split : endedLines (front ++ (k ++ r) :: back) =
      (endedLines front ++ k) ++ (r ++ '\n' :: endedLines back) := by
    simp [endedLines]
  rw [split]
  calc runLength c r
      ≤ runLength c (r ++ '\n' :: endedLines back) := runLength_append_le c r _
    _ ≤ longestRun c (r ++ '\n' :: endedLines back) := by
        have := le_longestRunAfter c 0 (r ++ '\n' :: endedLines back)
        rwa [Nat.zero_add] at this
    _ ≤ _ := longestRun_le_append 0 _

end Runs

/-! ## The lines of a code block -/

section Code

variable {info : List Char} {lines : List (List Char)}

/-- The mark of the fences around code with an info string. -/
def codeMark (info : List Char) : Char :=
  if info.contains '\x60' then '~' else '\x60'

/-- The length of the fences. -/
def codeFence (info literal : List Char) : Nat :=
  max 3 (longestRun (codeMark info) literal + 1)

/-- What stands between the fence and the info string. -/
def codeGap (info : List Char) : List Char :=
  if info.head? = some (codeMark info) then [' '] else []

/-- The line that opens the block, and the one that closes it. -/
def codeOpening (info literal : List Char) : List Char :=
  List.replicate (codeFence info literal) (codeMark info) ++ (codeGap info ++ info)

def codeClosing (info literal : List Char) : List Char :=
  List.replicate (codeFence info literal) (codeMark info)

theorem codeMark_cases (info : List Char) :
    codeMark info = '~' ∨ codeMark info = '\x60' ∧ info.contains '\x60' = false := by
  unfold codeMark
  split
  · exact .inl rfl
  · rename_i h
    exact .inr ⟨rfl, Bool.eq_false_iff.mpr h⟩

theorem codeMark_ne {info : List Char} {c : Char} (tilde : c ≠ '~') (backtick : c ≠ '\x60') :
    c ≠ codeMark info := by
  rcases codeMark_cases info with h | ⟨h, -⟩
  · rwa [h]
  · rwa [h]

theorem exists_codeClosing (info literal : List Char) :
    ∃ t, codeClosing info literal = codeMark info :: t := by
  have long : 3 ≤ codeFence info literal := Nat.le_max_left _ _
  obtain ⟨n, hn⟩ := Nat.exists_eq_add_of_le' (show 1 ≤ codeFence info literal by omega)
  exact ⟨List.replicate n (codeMark info), by rw [codeClosing, hn, List.replicate_succ]⟩

theorem exists_codeOpening (info literal : List Char) :
    ∃ t, codeOpening info literal = codeMark info :: t := by
  obtain ⟨t, begins⟩ := exists_codeClosing info literal
  exact ⟨t ++ (codeGap info ++ info), by rw [codeOpening, ← codeClosing, begins, List.cons_append]⟩

/-- Lines in front of others are all ended. -/
theorem intercalate_append {rest : List (List Char)} (filled : rest ≠ [])
    (lines : List (List Char)) :
    List.intercalate ['\n'] (lines ++ rest) = endedLines lines ++ List.intercalate ['\n'] rest := by
  induction lines with
  | nil => rfl
  | cons s lines ih =>
    rw [List.cons_append, List.intercalate_cons_of_ne_nil (by simp [filled]), ih, endedLines_cons]
    simp

theorem intercalate_closed (lines : List (List Char)) (close : List Char) :
    List.intercalate ['\n'] (lines ++ [close]) = endedLines lines ++ close := by
  rw [intercalate_append (List.cons_ne_nil _ _), List.intercalate_singleton]

/-- The lines of ended lines are those, and an empty one behind the last line feed. -/
theorem splitOn_endedLines (h : ∀ s ∈ lines, '\n' ∉ s) :
    (endedLines lines).splitOn '\n' = lines ++ [[]] := by
  have joined : endedLines lines = List.intercalate ['\n'] (lines ++ [[]]) := by
    rw [intercalate_closed, List.append_nil]
  rw [joined, List.splitOn_intercalate]
  · intro s hs
    rcases List.mem_append.mp hs with hs | hs
    · exact h s hs
    · rw [List.mem_singleton.mp hs]
      exact List.not_mem_nil
  · simp

theorem codeBlock_eq (info : List Char) (lines : List (List Char)) :
    codeBlock info (endedLines lines) =
      List.intercalate ['\n']
        (codeOpening info (endedLines lines) ::
          (lines ++ [codeClosing info (endedLines lines)])) := by
  have ended : (endedLines lines).isEmpty || (endedLines lines).getLast? = some '\n' := by
    induction lines with
    | nil => rfl
    | cons s lines ih =>
      rw [endedLines_cons, List.getLast?_append, List.getLast?_cons]
      cases h : endedLines lines with
      | nil => simp
      | cons c t =>
        simp [h] at ih
        simp [ih]
  rw [List.intercalate_cons_of_ne_nil (by simp), intercalate_closed]
  simp [codeBlock, ended, codeOpening, codeClosing, codeFence, codeGap, codeMark]

theorem mem_codeOpening {c : Char} {literal : List Char} (h : c ∈ codeOpening info literal) :
    c = codeMark info ∨ c = ' ' ∨ c ∈ info := by
  rcases List.mem_append.mp h with h | h
  · exact .inl (List.eq_of_mem_replicate h)
  · rcases List.mem_append.mp h with h | h
    · unfold codeGap at h
      split at h
      · exact .inr (.inl (List.mem_singleton.mp h))
      · cases h
    · exact .inr (.inr h)

/-- The lines of a written code block. -/
theorem splitOn_codeBlock (line : '\n' ∉ info) (h : ∀ s ∈ lines, '\n' ∉ s) :
    (codeBlock info (endedLines lines)).splitOn '\n' =
      codeOpening info (endedLines lines) :: (lines ++ [codeClosing info (endedLines lines)]) := by
  have mark : '\n' ≠ codeMark info := codeMark_ne (by decide) (by decide)
  rw [codeBlock_eq, List.splitOn_intercalate]
  · intro s hs feed
    rcases List.mem_cons.mp hs with rfl | hs
    · rcases mem_codeOpening feed with e | e | e
      · exact mark e
      · exact absurd e (by decide)
      · exact line e
    · rcases List.mem_append.mp hs with hs | hs
      · exact h s hs feed
      · rw [List.mem_singleton.mp hs] at feed
        exact mark (List.eq_of_mem_replicate feed)
  · exact List.cons_ne_nil _ _

theorem codeMark_isNotBlank (info : List Char) : isSpace (codeMark info) = false := by
  rcases codeMark_cases info with h | ⟨h, -⟩ <;> rw [h] <;> decide

/-- A line that begins with the mark begins with no blank. -/
theorem noTab_of_codeMark (info t : List Char) :
    '\t' ∉ (codeMark info :: t).takeWhile fun c => c == ' ' || c == '\t' := by
  have space : codeMark info ≠ ' ' := ne_of_class (codeMark_isNotBlank info) (by decide)
  have tab : codeMark info ≠ '\t' := ne_of_class (codeMark_isNotBlank info) (by decide)
  simp [space, tab]

theorem getLast?_of_trim {s : List Char} (h : trim s = s) : s.getLast?.any isSpace = false := by
  rw [← h, trim, trimEnd, dropEndWhile, List.getLast?_reverse]
  have := List.head?_dropWhile_not isSpace (trimStart s).reverse
  cases hd : ((trimStart s).reverse.dropWhile isSpace).head? with
  | none => rfl
  | some c => simpa [hd] using this

theorem verbatim_codeOpening (line : '\n' ∉ info) (h : trim info = info) (literal : List Char) :
    Verbatim (codeOpening info literal) := by
  refine ⟨fun feed => ?_, ?_, fun last => ?_⟩
  · rcases mem_codeOpening feed with e | e | e
    · exact codeMark_ne (by decide) (by decide) e
    · exact absurd e (by decide)
    · exact line e
  · obtain ⟨t, begins⟩ := exists_codeOpening info literal
    rw [begins]
    exact noTab_of_codeMark info t
  · have trimmed := getLast?_of_trim h
    rcases mem_codeOpening (List.mem_of_getLast? last) with e | e | e
    · exact codeMark_ne (by decide) (by decide) e
    · exact absurd e (by decide)
    · rw [codeOpening, List.getLast?_append, List.getLast?_append,
        List.getLast?_eq_some_getLast (List.ne_nil_of_mem e)] at last
      rw [List.getLast?_eq_some_getLast (List.ne_nil_of_mem e)] at trimmed
      simp only [Option.some_or, Option.some.injEq] at last
      rw [last] at trimmed
      exact absurd trimmed (by decide)

theorem verbatim_codeClosing (info literal : List Char) : Verbatim (codeClosing info literal) := by
  refine ⟨fun feed => ?_, ?_, fun last => ?_⟩
  · exact codeMark_ne (by decide) (by decide) (List.eq_of_mem_replicate feed)
  · obtain ⟨t, begins⟩ := exists_codeClosing info literal
    rw [begins]
    exact noTab_of_codeMark info t
  · exact codeMark_ne (by decide) (by decide) (List.eq_of_mem_replicate (List.mem_of_getLast? last))

/-! ## Reading the block -/

theorem trim_codeGap (h : trim info = info) : trim (codeGap info ++ info) = info := by
  unfold codeGap
  split
  · have blank : isSpace ' ' := by decide
    simpa [trim, trimStart, blank] using h
  · exact h

/-- The opening line is read as a fence with the info string. -/
theorem open?_codeOpening (h : trim info = info) (literal : List Char) :
    Fence.open? (codeOpening info literal) =
      some ⟨codeMark info, codeFence info literal, info⟩ := by
  have apart : (codeGap info ++ info).head?.any (· == codeMark info) = false := by
    unfold codeGap
    split
    · rcases codeMark_cases info with h | ⟨h, -⟩ <;> simp [h]
    · rename_i other
      cases hd : info.head? with
      | none => simp [hd]
      | some c => simpa [hd] using other
  have length : runLength (codeMark info) (codeOpening info literal) = codeFence info literal :=
    runLength_replicate _ apart
  have after : (codeOpening info literal).drop (codeFence info literal) = codeGap info ++ info :=
    List.drop_left' List.length_replicate
  have long : 3 ≤ codeFence info literal := Nat.le_max_left _ _
  have ofMark : Fence.ofMark? (codeMark info) (codeOpening info literal) =
      some ⟨codeMark info, codeFence info literal, info⟩ := by
    unfold Fence.ofMark?
    dsimp only
    rw [length, after, trim_codeGap h]
    rcases codeMark_cases info with mark | ⟨mark, free⟩
    · simp [mark, Nat.not_lt.mpr long]
    · simpa [mark, Nat.not_lt.mpr long] using free
  obtain ⟨t, begins⟩ := exists_codeOpening info literal
  rw [begins] at ofMark ⊢
  rcases codeMark_cases info with mark | ⟨mark, -⟩
  · rw [mark] at ofMark ⊢
    exact ofMark
  · rw [mark] at ofMark ⊢
    exact ofMark

theorem not_closedBy {s : List Char} (hs : s ∈ lines) (offset : Nat) :
    Fence.closedBy ⟨codeMark info, codeFence info (endedLines lines), info⟩ ⟨s, offset⟩ =
      false := by
  have run : runLength (codeMark info) (⟨s, offset⟩ : Line).rest ≤
      longestRun (codeMark info) (endedLines lines) :=
    runLength_le_longestRun _ hs (List.dropWhile_suffix _)
  have short : ¬ codeFence info (endedLines lines) ≤
      runLength (codeMark info) (⟨s, offset⟩ : Line).rest := by
    unfold codeFence
    omega
  simp [Fence.closedBy, short]

theorem closedBy_codeClosing (info literal : List Char) (offset : Nat) :
    Fence.closedBy ⟨codeMark info, codeFence info literal, info⟩
      ⟨codeClosing info literal, offset⟩ := by
  have space : codeMark info ≠ ' ' := ne_of_class (codeMark_isNotBlank info) (by decide)
  have run : runLength (codeMark info) (codeClosing info literal) = codeFence info literal := by
    have := runLength_replicate (c := codeMark info) (s := []) (codeFence info literal) rfl
    rwa [List.append_nil] at this
  have nothing : (codeClosing info literal).drop (codeFence info literal) = [] := by
    simp [codeClosing]
  obtain ⟨t, begins⟩ := exists_codeClosing info literal
  rw [begins] at run nothing ⊢
  simp [Fence.closedBy, rest_of_first space, indent_of_first space, run, nothing, Text.isBlank]

/-- The lines of a written code block are that code block. -/
theorem take_codeBlock (h : trim info = info) {l close : Line} {ls : List Line}
    (opening : l.text = codeOpening info (endedLines lines)) (inside : ls.map Line.text = lines)
    (closing : close.text = codeClosing info (endedLines lines)) (rest : List Line) :
    Layout.take l (ls ++ close :: rest) = { layout := .code info (endedLines lines), rest } := by
  have space : codeMark info ≠ ' ' := ne_of_class (codeMark_isNotBlank info) (by decide)
  obtain ⟨t, begins⟩ := exists_codeOpening info (endedLines lines)
  obtain ⟨text, offset⟩ := l
  obtain rfl : text = codeMark info :: t := opening.trans begins
  have opens := open?_codeOpening h (endedLines lines)
  rw [begins] at opens
  let f : Fence := ⟨codeMark info, codeFence info (endedLines lines), info⟩
  have goesOn : ∀ k ∈ ls, !f.closedBy k := by
    intro k hk
    have mem : k.text ∈ lines := inside ▸ List.mem_map_of_mem hk
    simpa using not_closedBy mem k.offset
  have closed : f.closedBy close := by
    have := closedBy_codeClosing info (endedLines lines) close.offset
    rwa [← closing] at this
  obtain ⟨taken, left⟩ := span_append (s := close :: rest) goesOn (by simp [closed])
  have bare : ∀ k : Line, (k.strip 0).text = k.text := by simp [Line.strip, Line.tail]
  have texts : ls.map (fun k => (k.strip 0).text) = lines := by
    rw [← inside]
    exact List.map_congr_left fun k _ => bare k
  rw [Layout.take, indent_of_first space, if_neg (by decide), rest_of_first space, opens]
  dsimp only
  rw [Layout.takeFenced, taken, left, texts]
  rfl

end Code

end MarkdownForest
