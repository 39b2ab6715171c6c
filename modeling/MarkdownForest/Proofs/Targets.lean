/-
# MarkdownForest.Proofs.Targets -- targets of links read back

A written target is a destination, bare or in angle brackets, and perhaps a title
in quotes.  Each of the three is scanned up to what closes it, and backslashes are
written before all that could close it too early.  So each scanner reads back what
was written and stops right behind it, whatever follows:

* `angleDestination_escaped`: in brackets, of an address on one line;
* `bareDestination_escaped`: bare, of an address with balanced parentheses and
  neither spaces nor controls;
* `delimited_escaped`: between quotes, of any title.

`destination_reads_back` puts them together, also for the reader that counts in
bytes.  A line feed in the address is the one thing that is not read back
(`read?_lineFeed`).
-/
import MarkdownForest.CommonMark.Escape
import MarkdownForest.Proofs.TextSlices

namespace MarkdownForest

set_option autoImplicit false

open Text CommonMark

/-! ## Scanners -/

section Scanners

variable {c : Char} {r s w : List Char}

theorem escapeWhere_mark {p : Char → Bool} (mark : p c) (s r : List Char) :
    escapeWhere p (c :: s) ++ r = '\\' :: c :: (escapeWhere p s ++ r) := by
  simp [escapeWhere, mark]

theorem escapeWhere_plain {p : Char → Bool} (plain : p c = false) (s r : List Char) :
    escapeWhere p (c :: s) ++ r = c :: (escapeWhere p s ++ r) := by
  simp [escapeWhere, plain]

/-- The characters that are escaped in angle brackets. -/
def isAngleMark (c : Char) : Bool :=
  c == '<' || c == '>' || c == '\\'

theorem isAsciiPunctuation_of_angleMark (h : isAngleMark c) : isAsciiPunctuation c := by
  simp only [isAngleMark, Bool.or_eq_true, beq_iff_eq] at h
  rcases h with (rfl | rfl) | rfl <;> decide

theorem angleDestination_escape (punctuation : isAsciiPunctuation c) (w : List Char) :
    angleDestination ('\\' :: c :: w) =
      (angleDestination w).map fun (url, rest) => (c :: url, rest) := by
  rw [angleDestination, if_pos punctuation]

theorem angleDestination_plain (mark : isAngleMark c = false) (feed : c ≠ '\n') (w : List Char) :
    angleDestination (c :: w) =
      (angleDestination w).map fun (url, rest) => (c :: url, rest) := by
  simp only [isAngleMark, Bool.or_eq_false_iff, beq_eq_false_iff_ne] at mark
  obtain ⟨⟨opens, closes⟩, escape⟩ := mark
  rw [angleDestination]
  · exact closes
  · exact feed
  · exact opens
  · exact fun d t e _ => escape e

/-- An address in angle brackets is read up to its closing bracket. -/
theorem angleDestination_escaped (line : '\n' ∉ s) (r : List Char) :
    angleDestination (escapeWhere isAngleMark s ++ '>' :: r) = some (s, r) := by
  induction s with
  | nil => rfl
  | cons c s ih =>
    rw [List.mem_cons, not_or] at line
    cases mark : isAngleMark c with
    | true =>
      rw [escapeWhere_mark mark, angleDestination_escape (isAsciiPunctuation_of_angleMark mark),
        ih line.2]
      rfl
    | false =>
      rw [escapeWhere_plain mark, angleDestination_plain mark (Ne.symm line.1), ih line.2]
      rfl

/-- A line feed in angle brackets closes nothing. -/
theorem angleDestination_lineFeed (feed : '\n' ∈ s) (r : List Char) :
    angleDestination (escapeWhere isAngleMark s ++ r) = none := by
  induction s with
  | nil => cases feed
  | cons c s ih =>
    by_cases here : c = '\n'
    · subst here
      rfl
    · have more : '\n' ∈ s := (List.mem_cons.mp feed).resolve_left (Ne.symm here)
      cases mark : isAngleMark c with
      | true =>
        rw [escapeWhere_mark mark, angleDestination_escape (isAsciiPunctuation_of_angleMark mark),
          ih more]
        rfl
      | false =>
        rw [escapeWhere_plain mark, angleDestination_plain mark here, ih more]
        rfl

/-- The characters that end a bare destination wherever they stand. -/
def endsBare (c : Char) : Bool :=
  c == ' ' || isControl c

theorem bareDestination_plain (escape : c ≠ '\\') (depth : Nat) (w : List Char) :
    bareDestination depth (c :: w) =
      if c = ' ' ∨ isControl c then ([], c :: w)
      else if c = '(' then
        (c :: (bareDestination (depth + 1) w).1, (bareDestination (depth + 1) w).2)
      else if c = ')' then
        match depth with
        | 0 => ([], c :: w)
        | d + 1 => (c :: (bareDestination d w).1, (bareDestination d w).2)
      else (c :: (bareDestination depth w).1, (bareDestination depth w).2) := by
  conv => lhs; unfold bareDestination
  split
  · exact (List.cons_ne_nil _ _ ‹_›).elim
  · rename_i e
    exact absurd (List.cons.inj e).1 escape
  · rename_i e
    obtain ⟨rfl, rfl⟩ := List.cons.inj e
    rfl

/-- A bare address is read up to what ends it outside of its parentheses. -/
theorem bareDestination_escaped {depth : Nat} (balanced : balancedFrom depth s)
    (clear : ∀ c ∈ s, endsBare c = false) (ends : bareDestination 0 r = ([], r)) :
    bareDestination depth (escapeWhere (· == '\\') s ++ r) = (s, r) := by
  induction s generalizing depth with
  | nil =>
    obtain rfl : depth = 0 := by simpa [balancedFrom] using balanced
    exact ends
  | cons c s ih =>
    obtain ⟨here, more⟩ := List.forall_mem_cons.mp clear
    by_cases escape : c = '\\'
    · subst escape
      have rest := ih (show balancedFrom depth s from balanced) more
      rw [escapeWhere_mark (by decide), bareDestination, if_pos (by decide), rest]
    · have stays : ¬ (c = ' ' ∨ isControl c) := by simpa [endsBare] using here
      rw [escapeWhere_plain (by simpa using escape), bareDestination_plain escape, if_neg stays]
      by_cases opens : c = '('
      · subst opens
        rw [if_pos rfl, ih balanced more]
      by_cases closes : c = ')'
      · subst closes
        rw [if_neg (by decide), if_pos rfl]
        cases depth with
        | zero => cases balanced
        | succ depth =>
          dsimp only
          rw [ih balanced more]
      · have same : balancedFrom depth (c :: s) = balancedFrom depth s := by
          rw [balancedFrom]
          · exact opens
          · exact closes
        rw [if_neg opens, if_neg closes, ih (same ▸ balanced) more]

/-- The characters that are escaped in a title. -/
def isTitleMark (c : Char) : Bool :=
  c == '\x22' || c == '\\'

/-- A title is read up to the quote that closes it. -/
theorem delimited_escaped (s r : List Char) :
    delimited '\x22' (escapeWhere isTitleMark s ++ '\x22' :: r) = some (s, r) := by
  induction s with
  | nil => simp [escapeWhere, delimited]
  | cons c s ih =>
    cases mark : isTitleMark c with
    | true =>
      have punctuation : isAsciiPunctuation c := by
        simp only [isTitleMark, Bool.or_eq_true, beq_iff_eq] at mark
        rcases mark with rfl | rfl <;> decide
      rw [escapeWhere_mark mark, delimited, if_neg (by decide)]
      dsimp only
      rw [if_pos punctuation, ih]
      rfl
    | false =>
      obtain ⟨quote, escape⟩ : c ≠ '\x22' ∧ c ≠ '\\' := by simpa [isTitleMark] using mark
      rw [escapeWhere_plain mark, delimited, if_neg quote]
      · simp [ih]
      · exact fun e t h _ => escape h

end Scanners

/-! ## Parts of a target -/

section Parts

variable {r s url title : List Char}

/-- The destination as it is written. -/
def destinationText (url title : List Char) : List Char :=
  if needsAngle url title then '<' :: escapeWhere isAngleMark url ++ ['>']
  else escapeWhere (· == '\\') url

/-- The title as it is written. -/
def titleText (title : List Char) : List Char :=
  if title.isEmpty then []
  else [' ', '\x22'] ++ escapeWhere isTitleMark title ++ ['\x22']

theorem destination_append (url title r : List Char) :
    destination url title ++ r =
      '(' :: (destinationText url title ++ (titleText title ++ ')' :: r)) := by
  simp only [destination, destinationText, titleText, List.cons_append, List.append_assoc,
    List.nil_append]
  rfl

theorem skipBlanks_of_first {c : Char} (h : isTargetBlank c = false) (s : List Char) :
    skipBlanks (c :: s) = c :: s := by
  simp [skipBlanks, h]

/-- What stands behind a destination ends a bare one. -/
theorem bareDestination_titleText (title r : List Char) :
    bareDestination 0 (titleText title ++ ')' :: r) = ([], titleText title ++ ')' :: r) := by
  unfold titleText
  split
  · rfl
  · rfl

theorem destination?_of_first (h : s.head? ≠ some '<') :
    destination? s = some (bareDestination 0 s) := by
  unfold destination?
  split
  · exact absurd rfl h
  · rfl

/-- An address that is written bare. -/
theorem bare_of_not_needsAngle (bare : needsAngle url title = false) :
    (url = [] → title = []) ∧ (∀ c ∈ url, endsBare c = false ∧ c ≠ '<') ∧
      balancedFrom 0 url := by
  simp only [needsAngle, Bool.or_eq_false_iff, Bool.and_eq_false_iff, Bool.not_eq_false',
    List.isEmpty_iff, List.any_eq_false, Bool.not_eq_true, beq_eq_false_iff_ne] at bare
  obtain ⟨⟨filled, clear⟩, balanced⟩ := bare
  refine ⟨fun empty => ?_, fun c hc => ?_, balanced⟩
  · rcases filled with other | empty'
    · exact absurd (List.isEmpty_iff.mpr empty) (by simp [other])
    · exact empty'
  · obtain ⟨⟨⟨space, control⟩, opens⟩, -⟩ := clear c hc
    exact ⟨by simp [endsBare, space, control], opens⟩

theorem isTargetBlank_of_not_endsBare {c : Char} (h : endsBare c = false) :
    isTargetBlank c = false := by
  have apart : ∀ d, endsBare d → c ≠ d := by
    rintro d hd rfl
    rw [h] at hd
    cases hd
  simp [isTargetBlank, apart ' ' (by decide), apart '\t' (by decide), apart '\n' (by decide)]

/-- A bare destination begins neither with a blank nor with a bracket. -/
theorem first_of_bare (bare : needsAngle url title = false) (r : List Char) :
    ∃ c s, destinationText url title ++ (titleText title ++ ')' :: r) = c :: s ∧
      isTargetBlank c = false ∧ c ≠ '<' := by
  obtain ⟨filled, clear, -⟩ := bare_of_not_needsAngle bare
  rw [destinationText, if_neg (by simp [bare])]
  cases url with
  | nil =>
    obtain rfl := filled rfl
    exact ⟨')', r, rfl, by decide, by decide⟩
  | cons c s =>
    obtain ⟨stays, opens⟩ := clear c List.mem_cons_self
    by_cases escape : c = '\\'
    · exact ⟨'\\', _, escapeWhere_mark (by simpa using escape) _ _, by decide, by decide⟩
    · exact ⟨c, _, escapeWhere_plain (by simpa using escape) _ _,
        isTargetBlank_of_not_endsBare stays, opens⟩

/-- A written destination is read up to its end. -/
theorem destination?_written (line : '\n' ∉ url) (r : List Char) :
    destination? (skipBlanks (destinationText url title ++ (titleText title ++ ')' :: r))) =
      some (url, titleText title ++ ')' :: r) := by
  cases angle : needsAngle url title with
  | true =>
    rw [destinationText, if_pos angle, List.cons_append, List.cons_append,
      skipBlanks_of_first (by decide), destination?, List.append_assoc]
    exact angleDestination_escaped line _
  | false =>
    obtain ⟨c, s, begins, blank, opens⟩ := first_of_bare angle r
    obtain ⟨-, clear, balanced⟩ := bare_of_not_needsAngle angle
    rw [begins, skipBlanks_of_first blank, destination?_of_first (by simpa using opens), ← begins,
      destinationText, if_neg (by simp [angle]),
      bareDestination_escaped balanced (fun c hc => (clear c hc).1) (bareDestination_titleText _ _)]

/-- A written title is read up to its end. -/
theorem title?_written (title r : List Char) :
    title? (titleText title ++ ')' :: r) = some (title, ')' :: r) := by
  unfold titleText
  split
  · rename_i empty
    rw [List.isEmpty_iff.mp empty]
    rfl
  · have begins : [' ', '\x22'] ++ escapeWhere isTitleMark title ++
          ['\x22'] ++ ')' :: r =
        ' ' :: '\x22' :: (escapeWhere isTitleMark title ++
          '\x22' :: ')' :: r) := by simp
    have skipped : ∀ s, skipBlanks (' ' :: '\x22' :: s) = '\x22' :: s := fun _ => rfl
    have quote : titleClose? '\x22' = some '\x22' := rfl
    rw [begins, title?, skipped]
    dsimp only
    rw [quote]
    dsimp only
    rw [if_pos (by simp)]
    exact delimited_escaped title _

end Parts

/-! ## Whole targets -/

section Targets

variable {before rest title url : List Char}

theorem read?_destination (line : '\n' ∉ url) (title rest : List Char) :
    Target.read? (destination url title ++ rest) = some (⟨url, title⟩, rest) := by
  rw [destination_append, Target.read?, destination?_written line]
  simp only [Option.bind_eq_bind, Option.bind_some, title?_written]
  rw [skipBlanks_of_first (by decide)]
  rfl

/-- An address with a line feed is written in angle brackets, and they do not close. -/
theorem read?_lineFeed (feed : '\n' ∈ url) (title rest : List Char) :
    Target.read? (destination url title ++ rest) = none := by
  have angle : needsAngle url title := by
    have control : url.any (fun c => c == ' ' || isControl c || c == '<' || c == '>') :=
      List.any_eq_true.mpr ⟨'\n', feed, by decide⟩
    simp [needsAngle, control]
  rw [destination_append, destinationText, if_pos angle, Target.read?, List.cons_append,
    List.cons_append, skipBlanks_of_first (by decide), destination?, List.append_assoc,
    angleDestination_lineFeed feed]
  rfl

/-- **A written target is read back.**  Behind any text and in front of any other, what is written
for an address without line feeds and for a title is read as that address and that title, and the
reading ends right behind it, in characters and in bytes. -/
theorem destination_reads_back (line : '\n' ∉ url) (title before rest : List Char) :
    Target.read? (destination url title ++ rest) = some (⟨url, title⟩, rest) ∧
      Sliced.target (before ++ (destination url title ++ rest)) (utf8Length before) =
        some (some (⟨url, title⟩, utf8Length before + utf8Length (destination url title))) := by
  have read := read?_destination line title rest
  refine ⟨read, ?_⟩
  have begins := sliceFrom?_append before (destination url title ++ rest)
  rcases Sliced.target_eq begins with ⟨none, -⟩ | ⟨t, after, stop, found, there, closes⟩
  · rw [read] at none
    cases none
  · rw [read] at found
    obtain ⟨rfl, rfl⟩ := Prod.mk.inj (Option.some.inj found)
    obtain ⟨upTo, same, rfl⟩ := sliceFrom?_eq_some.mp closes
    have bytes := congrArg utf8Length same
    simp only [utf8Length_append, utf8Length, show ')'.utf8Size = 1 from rfl] at bytes
    rw [there]
    congr 3
    omega

/-- An address and a title of all that closes something, in front of one more parenthesis. -/
theorem destination_reads_back_thorny :
    let url := "é\\(b) <c>\t".toList
    let title := "\x22)\\\n".toList
    '\n' ∉ url ∧
      String.ofList (destination url title) =
        "(<é\\\\(b) \\<c\\>\t> \x22\\\x22)\\\\\n\x22)" ∧
      Target.read? (destination url title ++ ")".toList) = some (⟨url, title⟩, ")".toList) ∧
      Sliced.target ("[a]".toList ++ (destination url title ++ ")".toList)) 3 =
        some (some (⟨url, title⟩, 30)) := by
  intro url title
  have line : '\n' ∉ url := by decide
  obtain ⟨read, there⟩ := destination_reads_back line title "[a]".toList ")".toList
  have bytes : utf8Length "[a]".toList + utf8Length (destination url title) = 30 := by
    decide +kernel
  rw [bytes] at there
  exact ⟨line, by decide +kernel, read, there⟩

end Targets

end MarkdownForest
