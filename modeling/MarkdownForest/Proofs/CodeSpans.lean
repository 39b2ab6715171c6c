/-
# MarkdownForest.Proofs.CodeSpans -- what written code spans are read as

The fence around written code is longer than any run of backticks in it, and a
space keeps it from backticks at the ends.  So no run before the closing fence
closes the span (`closeCode_append`), and between the fences stands the code, with
a space at either end or as it is.

Reading takes a space from either end of code that has one there and is not spaces
only.  Writing adds one to either end of such code, but asks for more than white
space in it.  White space that is not spaces only falls between the two
(`LosesSpaces`): it is written as it is, and read back without its first and last
space.  All other code is read back as itself (`parseInlines_codeSpan`).
-/
import MarkdownForest.CommonMark.Writer
import MarkdownForest.Proofs.FencedCode

namespace MarkdownForest

set_option autoImplicit false

open Text CommonMark

/-! ## The closing fence -/

section Closing

variable {n : Nat} {r t : List Char}

theorem closeCode_other {c : Char} (other : c ≠ '\x60') (s : List Char) :
    closeCode n (c :: s) =
      (closeCode n s).map fun (inside, after) => (c :: inside, after) := by
  rw [closeCode, if_neg other]

/-- A run of another length is inside the code. -/
theorem closeCode_run {m : Nat} (positive : 0 < m) (other : m ≠ n)
    (hr : r.head?.any (· == '\x60') = false) :
    closeCode n (List.replicate m '\x60' ++ r) =
      (closeCode n r).map fun (inside, after) => (List.replicate m '\x60' ++ inside, after) := by
  obtain ⟨m, rfl⟩ := Nat.exists_eq_add_of_le' positive
  obtain ⟨taken, left⟩ := span_append (k := List.replicate m '\x60') (by simp) hr
  rw [List.replicate_succ, List.cons_append, closeCode, if_pos rfl]
  dsimp only
  rw [taken, left, List.length_replicate, if_neg other]

theorem closeCode_fence (positive : 0 < n) (hr : r.head?.any (· == '\x60') = false) :
    closeCode n (List.replicate n '\x60' ++ r) = some ([], r) := by
  obtain ⟨n, rfl⟩ := Nat.exists_eq_add_of_le' positive
  obtain ⟨taken, left⟩ := span_append (k := List.replicate n '\x60') (by simp) hr
  rw [List.replicate_succ, List.cons_append, closeCode, if_pos rfl]
  dsimp only
  rw [taken, left, List.length_replicate, if_pos rfl]

/-- A fence longer than all runs in the code closes it, if the code does not end with a backtick. -/
theorem closeCode_append (short : longestRun '\x60' t < n) (last : t.getLast? ≠ some '\x60')
    (hr : r.head?.any (· == '\x60') = false) :
    closeCode n (t ++ (List.replicate n '\x60' ++ r)) = some (t, r) := by
  induction hn : t.length using Nat.strongRecOn generalizing t with
  | ind _ ih =>
    obtain ⟨k, u, rfl, ticks, hu⟩ := exists_span (· == '\x60') t
    obtain ⟨m, rfl⟩ : ∃ m, k = List.replicate m '\x60' :=
      ⟨k.length, List.eq_replicate_iff.mpr ⟨rfl, fun c hc => by simpa using ticks c hc⟩⟩
    have inside : longestRun '\x60' u < n := (longestRun_le_append 0 _).trans_lt short
    cases u with
    | nil =>
      -- the code is a run of backticks, and it does not end with one
      have empty : m = 0 := by simpa [List.getLast?_replicate] using last
      subst empty
      exact closeCode_fence (Nat.zero_lt_of_lt short) hr
    | cons c u =>
      have other : c ≠ '\x60' := by simpa using hu
      have last_u : u.getLast? ≠ some '\x60' := by
        intro e
        rw [List.getLast?_append, List.getLast?_cons, e] at last
        exact last rfl
      have rest : closeCode n (c :: (u ++ (List.replicate n '\x60' ++ r))) = some (c :: u, r) := by
        have below : longestRun '\x60' u < n :=
          (longestRun_le_append 0 [c]).trans_lt inside
        have shorter : u.length < (List.replicate m '\x60' ++ c :: u).length := by simp; omega
        rw [closeCode_other other, ih _ (hn ▸ shorter) below last_u rfl]
        rfl
      by_cases empty : m = 0
      · subst empty
        exact rest
      · have run : m < n := by
          have := le_longestRunAfter '\x60' 0 (List.replicate m '\x60' ++ c :: u)
          rw [runLength_replicate m hu, Nat.zero_add] at this
          exact this.trans_lt short
        rw [List.append_assoc, closeCode_run (by omega) (by omega) (by simpa using other),
          List.cons_append, rest]
        rfl

end Closing

/-! ## Between the fences -/

section Inside

variable {s : List Char}

/-- White space that is not spaces only, with a space at either end. -/
def LosesSpaces (s : List Char) : Prop :=
  s.head? = some ' ' ∧ s.getLast? = some ' ' ∧ isBlank s ∧ ∃ c ∈ s, c ≠ ' '

instance (s : List Char) : Decidable (LosesSpaces s) :=
  decidable_of_iff
    (s.head? = some ' ' ∧ s.getLast? = some ' ' ∧ isBlank s ∧ s.any (fun c => c != ' '))
    (by simp [LosesSpaces])

/-- The code as which written code is read back. -/
def codeReading (s : List Char) : List Char :=
  if LosesSpaces s then (s.drop 1).dropLast else s

theorem codeReading_eq_self : codeReading s = s ↔ ¬ LosesSpaces s := by
  unfold codeReading
  split
  · rename_i loses
    refine iff_of_false (fun same => ?_) (not_not_intro loses)
    have := congrArg List.length same
    obtain ⟨c, t, rfl⟩ : ∃ c t, s = c :: t := List.exists_cons_of_ne_nil (by
      rintro rfl
      cases loses.1)
    simp only [List.drop_one, List.tail_cons, List.length_dropLast, List.length_cons] at this
    omega
  · rename_i keeps
    exact iff_of_true rfl keeps

/-- Whether a code is written with spaces around it. -/
def isPadded (s : List Char) : Bool :=
  s.head? = some '\x60' || s.getLast? = some '\x60' ||
    (s.head? = some ' ' && s.getLast? = some ' ' && !isBlank s)

/-- What stands between the fences. -/
def codeInside (s : List Char) : List Char :=
  if isPadded s then ' ' :: (s ++ [' ']) else s

theorem codeSpan_eq (s : List Char) :
    codeSpan s = List.replicate (longestRun '\x60' s + 1) '\x60' ++
      (codeInside s ++ List.replicate (longestRun '\x60' s + 1) '\x60') := by
  have spaces : codeInside s =
      (if isPadded s then [' '] else []) ++ s ++ (if isPadded s then [' '] else []) := by
    unfold codeInside
    split <;> simp
  rw [spaces, codeSpan]
  simp only [List.append_assoc]
  rfl

/-- A space behind a text makes no run longer. -/
theorem longestRunAfter_space (current : Nat) (s : List Char) :
    longestRunAfter '\x60' current (s ++ [' ']) = longestRunAfter '\x60' current s := by
  induction s generalizing current with
  | nil => simp [longestRunAfter]
  | cons c s ih =>
    rw [List.cons_append]
    unfold longestRunAfter
    rw [ih, ih]

theorem longestRun_codeInside (s : List Char) :
    longestRun '\x60' (codeInside s) = longestRun '\x60' s := by
  unfold codeInside
  split
  · have first : longestRun '\x60' (' ' :: (s ++ [' '])) = longestRun '\x60' (s ++ [' ']) := by
      simp [longestRun, longestRunAfter]
    rw [first]
    exact longestRunAfter_space 0 s
  · rfl

/-- No backtick touches a fence. -/
theorem ends_codeInside (filled : s ≠ []) :
    (∃ c t, codeInside s = c :: t ∧ c ≠ '\x60') ∧ (codeInside s).getLast? ≠ some '\x60' := by
  unfold codeInside
  split
  · refine ⟨⟨' ', s ++ [' '], rfl, by decide⟩, ?_⟩
    simp [List.getLast?_cons]
  · rename_i bare
    simp only [isPadded, Bool.or_eq_true, decide_eq_true_eq, not_or] at bare
    obtain ⟨c, t, rfl⟩ := List.exists_cons_of_ne_nil filled
    exact ⟨⟨c, t, rfl, fun tick => bare.1.1 (tick ▸ rfl)⟩, bare.1.2⟩

/-- Code that is padded holds something other than spaces. -/
theorem exists_ne_of_isPadded (padded : isPadded s) : ∃ c ∈ s, c ≠ ' ' := by
  simp only [isPadded, Bool.or_eq_true, Bool.and_eq_true, decide_eq_true_eq,
    Bool.not_eq_true', Text.isBlank, List.all_eq_false] at padded
  rcases padded with (first | last) | ⟨-, c, hc, full⟩
  · exact ⟨'\x60', List.mem_of_mem_head? first, by decide⟩
  · exact ⟨'\x60', List.mem_of_getLast? last, by decide⟩
  · exact ⟨c, hc, fun space => full (space ▸ by decide)⟩

/-- Code without line feeds loses a space at either end if something else is in it. -/
theorem normalizeCode_of_line (line : '\n' ∉ s) : normalizeCode s =
    if s.head? = some ' ' ∧ s.getLast? = some ' ' ∧ s.any (fun c => c != ' ') then
      (s.drop 1).dropLast
    else s := by
  have same : s.map (fun c => if c = '\n' then ' ' else c) = s := by
    refine (List.map_congr_left fun c hc => ?_).trans (List.map_id s)
    exact if_neg fun feed : c = '\n' => line (feed ▸ hc)
  -- one character that is the first and the last is a space, and then it is all there is
  have long : s.head? = some ' ' → s.any (fun c => c != ' ') → 2 ≤ s.length := by
    intro first full
    obtain ⟨c, hc, differs⟩ := List.any_eq_true.mp full
    have other : c ≠ ' ' := bne_iff_ne.mp differs
    cases s with
    | nil => cases first
    | cons d s =>
      obtain rfl := Option.some.inj first
      have := List.length_pos_of_mem ((List.mem_cons.mp hc).resolve_left other)
      rw [List.length_cons]
      omega
  unfold normalizeCode
  rw [same]
  refine if_congr ?_ rfl rfl
  simp only [Bool.and_eq_true, decide_eq_true_eq]
  constructor
  · rintro ⟨⟨⟨-, first⟩, last⟩, other⟩
    exact ⟨first, last, other⟩
  · rintro ⟨first, last, other⟩
    exact ⟨⟨⟨long first other, first⟩, last⟩, other⟩

theorem normalizeCode_codeInside (line : '\n' ∉ s) :
    normalizeCode (codeInside s) = codeReading s := by
  by_cases padded : isPadded s
  · have other := exists_ne_of_isPadded padded
    have keeps : ¬ LosesSpaces s := by
      rintro ⟨first, last, blank, -⟩
      simp [isPadded, first, last, blank] at padded
    have inside : codeInside s = ' ' :: (s ++ [' ']) := if_pos padded
    obtain ⟨c, hc, full⟩ := other
    rw [inside, normalizeCode_of_line (by simp [line]), if_pos, codeReading, if_neg keeps]
    · simp
    · refine ⟨rfl, by simp [List.getLast?_cons], List.any_eq_true.mpr ⟨c, ?_, bne_iff_ne.mpr full⟩⟩
      simp [hc]
  · have inside : codeInside s = s := if_neg padded
    rw [inside, normalizeCode_of_line line, codeReading]
    refine if_congr ⟨?_, ?_⟩ rfl rfl
    · rintro ⟨first, last, other⟩
      obtain ⟨c, hc, other⟩ := List.any_eq_true.mp other
      refine ⟨first, last, ?_, c, hc, bne_iff_ne.mp other⟩
      simpa [isPadded, first, last] using padded
    · rintro ⟨first, last, -, c, hc, other⟩
      exact ⟨first, last, List.any_eq_true.mpr ⟨c, hc, bne_iff_ne.mpr other⟩⟩

end Inside

/-! ## Whole spans -/

section Spans

variable {before : Option Char} {r s : List Char}

theorem lex_backticks (n : Nat) (hr : r.head?.any (· == '\x60') = false) :
    lex '\x60' (List.replicate n '\x60' ++ r) =
      ⟨.backticks (n + 1), List.replicate (n + 1) '\x60', r⟩ := by
  obtain ⟨taken, left⟩ := span_append (k := List.replicate n '\x60') (by simp) hr
  simp only [lex, Lexeme.run, taken, left, List.length_cons, List.length_replicate,
    List.replicate_succ]

/-- A written code span becomes one piece, in front of anything but a backtick. -/
theorem becomes_codeSpan (filled : s ≠ []) (line : '\n' ∉ s)
    (hr : r.head?.any (· == '\x60') = false) :
    Scan.Becomes before (codeSpan s) r [.inline (.code (codeReading s))] := by
  obtain ⟨⟨c, t, begins, other⟩, last⟩ := ends_codeInside filled
  have closed := closeCode_append (n := longestRun '\x60' s + 1) (r := r)
    (by rw [longestRun_codeInside]; exact Nat.lt_succ_self _) last hr
  have normal := normalizeCode_codeInside line
  intro pieces brackets
  rw [codeSpan_eq, List.append_assoc, List.append_assoc]
  generalize longestRun '\x60' s = n at *
  have lexeme := lex_backticks n (r := codeInside s ++ (List.replicate (n + 1) '\x60' ++ r))
    (by simpa [begins] using other)
  rw [List.replicate_succ, List.cons_append, Scan.run_cons _ _ rfl, ← List.replicate_succ, lexeme]
  simp [Scan.feed, Scan.openCode, closed, normal, Scan.pushInline, Scan.push,
    List.getLast?_append, List.getLast?_replicate]

theorem parseInlines_codeSpan (filled : s ≠ []) (line : '\n' ∉ s) :
    parseInlines (codeSpan s) = [.code (codeReading s)] :=
  Scan.parseInlines_of_becomes_inline (becomes_codeSpan filled line rfl)

/-- A written code span is read back as its code, but for white space with a space at either end
and something other than spaces in it: that loses the two spaces, since writing does not pad it and
reading takes it for padded. -/
theorem codeSpan_reads_back (filled : s ≠ []) (line : '\n' ∉ s) :
    parseInlines (codeSpan s) = [.code (if LosesSpaces s then (s.drop 1).dropLast else s)] ∧
      (parseInlines (codeSpan s) = [.code s] ↔ ¬ LosesSpaces s) := by
  have read := parseInlines_codeSpan filled line
  refine ⟨read, ?_⟩
  rw [read, ← codeReading_eq_self]
  simp

/-- Backticks at the start, two in the middle, and white space of several kinds at the end. -/
theorem codeSpan_reads_back_thorny :
    "\x60\t\x60\x60\u3000 ".toList ≠ [] ∧ '\n' ∉ "\x60\t\x60\x60\u3000 ".toList ∧
      String.ofList (codeSpan "\x60\t\x60\x60\u3000 ".toList) =
        "\x60\x60\x60 \x60\t\x60\x60\u3000  \x60\x60\x60" ∧
      parseInlines (codeSpan "\x60\t\x60\x60\u3000 ".toList) =
        [.code "\x60\t\x60\x60\u3000 ".toList] := by
  have filled : "\x60\t\x60\x60\u3000 ".toList ≠ [] := by decide
  have line : '\n' ∉ "\x60\t\x60\x60\u3000 ".toList := by decide
  exact ⟨filled, line, by decide, (codeSpan_reads_back filled line).2.mpr (by decide)⟩

/-- A tab between spaces, read from a source. -/
theorem codeSpan_of_tab :
    let document (s : String) : Tree := .node .document [.node .paragraph [.leaf (.code s)]]
    parse {} "\x60  \t  \x60" = .ok (document " \t ") ∧
      write (document " \t ") = "\x60 \t \x60\n" ∧
      parse {} "\x60 \t \x60\n" = .ok (document "\t") ∧
      ¬ ∀ s : List Char, s ≠ [] → '\n' ∉ s → parseInlines (codeSpan s) = [.code s] := by
  intro document
  refine ⟨by decide +kernel, by decide +kernel, by decide +kernel, fun all => ?_⟩
  have read := parseInlines_codeSpan (s := " \t ".toList) (by decide) (by decide)
  have short : codeReading " \t ".toList = "\t".toList := by decide
  rw [all " \t ".toList (by decide) (by decide), short] at read
  simp at read

end Spans

end MarkdownForest
