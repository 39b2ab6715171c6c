/-
# MarkdownForest.Proofs.HeaderTexts -- headers of one text

Three rules meet at the end of a written header: what could begin markup is escaped,
a number sign at the end gets a backslash before it, and number signs at the end are
taken off what is read before its escapes are.

* `Escapes.closing`: the backslash before the last sign escapes it, unless it stands
  behind the backslash that the start of a line has put there;
* `dropClosing_escapeClosing`: nothing is taken off what is written;
* `Layout.take_header`: so the line is a header of what is written.

Hence a header of one text is read back as itself if the text is not a number sign
alone, and that one is read back with a backslash (`header_reads_back`).
-/
import MarkdownForest.Proofs.PlainDocuments

namespace MarkdownForest

set_option autoImplicit false

open Text CommonMark
open Line (Trimmed)

namespace CommonMark

variable {c : Char} {k s t w : List Char}

/-! ## A backslash before the last sign -/

/-- A text with a backslash before the number sign at its end. -/
def escapeClosing (w : List Char) : List Char :=
  if w.getLast? = some '#' then w.dropLast ++ ['\\', '#'] else w

theorem escapeClosing_sign (w : List Char) : escapeClosing (w ++ ['#']) = w ++ ['\\', '#'] := by
  simp [escapeClosing]

theorem escapeClosing_other (hc : c ≠ '#') (w : List Char) :
    escapeClosing (w ++ [c]) = w ++ [c] := by
  simp [escapeClosing, hc]

theorem escapeClosing_append (filled : w ≠ []) (k : List Char) :
    escapeClosing (k ++ w) = k ++ escapeClosing w := by
  obtain ⟨v, c, rfl⟩ : ∃ v c, w = v ++ [c] := by
    rcases List.eq_nil_or_concat w with rfl | ⟨v, c, rfl⟩
    · exact absurd rfl filled
    · exact ⟨v, c, List.concat_eq_append⟩
  rw [← List.append_assoc]
  by_cases sign : c = '#'
  · subst sign
    rw [escapeClosing_sign, escapeClosing_sign, List.append_assoc]
  · rw [escapeClosing_other sign, escapeClosing_other sign, List.append_assoc]

/-- A header of one line. -/
theorem headerText_line (level : Nat) (line : '\n' ∉ w) :
    headerText level w = List.replicate level '#' ++ ' ' :: escapeClosing w := by
  have same : w.map (fun c => if c = '\n' then ' ' else c) = w := by
    refine (List.map_congr_left fun c hc => ?_).trans (List.map_id w)
    exact if_neg fun feed : c = '\n' => line (feed ▸ hc)
  simp [headerText, line, same, escapeClosing]

theorem trimmed_escapeClosing (h : Trimmed w) : Trimmed (escapeClosing w) := by
  have line := h.oneLine
  obtain ⟨c, t, first, hc⟩ := h.first
  obtain ⟨d, u, rfl, hd⟩ := h.last
  by_cases sign : d = '#'
  · subst sign
    rw [escapeClosing_sign]
    refine ⟨by simpa using line, ?_, ⟨'#', u ++ ['\\'], by simp, hd⟩⟩
    cases u with
    | nil => exact ⟨'\\', ['#'], rfl, by decide⟩
    | cons e u =>
      obtain ⟨rfl, -⟩ := List.cons.inj first
      exact ⟨e, u ++ ['\\', '#'], rfl, hc⟩
  · rw [escapeClosing_other sign]
    exact h

/-! ## What it escapes -/

/-- Behind an escaped character, unless that is the last sign itself. -/
theorem Escapes.closing_escape (punctuation : isAsciiPunctuation c) (other : c = '#' → s ≠ [])
    (h : Escapes w s) (more : Escapes (escapeClosing w) s) :
    Escapes (escapeClosing ('\\' :: c :: w)) (c :: s) := by
  by_cases last : w = []
  · subst last
    cases h with
    | nil =>
      have stays : escapeClosing ['\\', c] = ['\\', c] :=
        escapeClosing_other (fun sign => other sign rfl) ['\\']
      rw [stays]
      exact .escape punctuation .nil
  · have behind : escapeClosing ('\\' :: c :: w) = '\\' :: c :: escapeClosing w :=
      escapeClosing_append last ['\\', c]
    rw [behind]
    exact .escape punctuation more

theorem escapes_closingInline (s : List Char) : Escapes (escapeClosing (escapeInline s)) s := by
  induction s with
  | nil => exact .nil
  | cons c s ih =>
    unfold escapeInline
    dsimp only
    split
    · rename_i escaped
      refine .closing_escape (isAsciiPunctuation_of_escaped escaped) ?_ (escapes_escapeInline s) ih
      rintro rfl rfl
      exact absurd escaped (by decide)
    · rename_i bare
      obtain ⟨special, bang⟩ : isSpecial c = false ∧ (c = '!' → s ≠ []) := by simpa using bare
      by_cases last : s = []
      · subst last
        by_cases sign : c = '#'
        · subst sign
          exact .escape (by decide) .nil
        · have stays : escapeClosing [c] = [c] := escapeClosing_other sign []
          rw [escapeInline, stays]
          exact .bare special (fun e => absurd rfl (bang e)) .nil
      · have behind : escapeClosing (c :: escapeInline s) = c :: escapeClosing (escapeInline s) :=
          escapeClosing_append ((escapes_escapeInline s).ne_nil last) [c]
        rw [behind]
        exact .bare special (fun _ => ih.ne_nil last) ih

/-- At the start of a line a number sign alone has its backslash already. -/
theorem escapes_closingLineStart (h : s ≠ ['#']) :
    Escapes (escapeClosing (escapeLineStart s)) s := by
  have start := escapeLineStart_cases s
  generalize escapeLineStart s = w at start ⊢
  cases start with
  | @number c d u t digits delimiter =>
    rw [escapeClosing_append (List.cons_ne_nil _ _)]
    refine .append (fun e he => isPlain_of_digit (digits e he)) ?_
    refine .closing_escape (isAsciiPunctuation_of_endsNumber delimiter) ?_ (escapes_escapeInline t)
      (escapes_closingInline t)
    rintro rfl
    exact absurd delimiter (by decide)
  | @mark c u opens =>
    refine .closing_escape (isAsciiPunctuation_of_opensLine opens) ?_ (escapes_escapeInline u)
      (escapes_closingInline u)
    rintro rfl rfl
    exact h rfl
  | plain => exact escapes_closingInline s

/-- The text with which a header of the text `s` is read back. -/
def headerReading (s : String) : String :=
  if s = "#" then "\\#" else s

theorem escapes_headerReading (s : String) :
    Escapes (escapeClosing (escapeLineStart s.toList)) (headerReading s).toList := by
  unfold headerReading
  split
  · rename_i sign
    subst sign
    exact .escape (by decide) (.bare (by decide) (by decide) .nil)
  · rename_i other
    exact escapes_closingLineStart fun sign => other (String.toList_injective sign)

theorem headerReading_eq_self {s : String} : headerReading s = s ↔ s ≠ "#" := by
  unfold headerReading
  split
  · rename_i sign
    subst sign
    decide
  · rename_i other
    exact iff_of_true rfl other

end CommonMark

/-! ## Lines of headers -/

section Lines

variable {level : Nat} {w : List Char}

/-- A sign behind a backslash is no closing run, nor is another character. -/
theorem dropClosing_escapeClosing (h : Trimmed w) :
    dropClosing (escapeClosing w) = escapeClosing w := by
  obtain ⟨c, t, rfl, hc⟩ := h.last
  by_cases sign : c = '#'
  · subst sign
    simp [escapeClosing_sign, dropClosing, dropEndWhile]
  · have space : c ≠ ' ' := ne_of_class hc (by decide)
    simp [escapeClosing_other sign, dropClosing, dropEndWhile, sign, space]

theorem header?_line (levels : 1 ≤ level ∧ level ≤ 6) (h : Trimmed w) :
    header? (List.replicate level '#' ++ ' ' :: w) = some (level, dropClosing w) := by
  have run : runLength '#' (List.replicate level '#' ++ ' ' :: w) = level :=
    runLength_replicate level rfl
  have after : (List.replicate level '#' ++ ' ' :: w).drop level = ' ' :: w :=
    List.drop_left' List.length_replicate
  have text : trim (' ' :: w) = w := by
    have space : trimStart (' ' :: w) = trimStart w := rfl
    rw [trim, space, h.trimStart_eq, h.trimEnd_eq]
  have within : ¬ (level = 0 ∨ 6 < level) := by omega
  simp [header?, run, after, text, within]

theorem Layout.take_header (levels : 1 ≤ level ∧ level ≤ 6) (h : Trimmed w) (offset : Nat)
    (ls : List Line) :
    Layout.take ⟨List.replicate level '#' ++ ' ' :: w, offset⟩ ls =
      { layout := .header level (dropClosing w), rest := ls } := by
  have header := header?_line levels h
  obtain ⟨n, rfl⟩ := Nat.exists_eq_add_of_le' levels.1
  rw [List.replicate_succ, List.cons_append] at header ⊢
  rw [Layout.take, Line.indent_of_first (by decide), if_neg (by decide),
    Line.rest_of_first (by decide), Line.open?_of_first (by decide) (by decide), header]

end Lines

/-! ## Documents of one header -/

/-- A document of a header with one text. -/
def headerDocument (level : Nat) (s : String) : Tree :=
  .node .document [.node (.header level) [.leaf (.text s)]]

section Documents

variable {level m : Nat} {s : String}

/-- The line of a header of the text `s`. -/
def headerLine (level : Nat) (s : List Char) : List Char :=
  List.replicate level '#' ++ ' ' :: escapeClosing (escapeLineStart s)

theorem trimmed_written {s : List Char} (h : Trimmed s) :
    Trimmed (escapeClosing (escapeLineStart s)) :=
  trimmed_escapeClosing (Line.goesOn_escapeLineStart h).trimmed

theorem trimmed_headerLine (levels : 1 ≤ level ∧ level ≤ 6) {s : List Char} (h : Trimmed s) :
    Trimmed (headerLine level s) := by
  obtain ⟨n, rfl⟩ := Nat.exists_eq_add_of_le' levels.1
  have written := trimmed_written h
  obtain ⟨c, t, e, hc⟩ := written.last
  refine ⟨?_, ⟨'#', _, rfl, by decide⟩, ⟨c, List.replicate (n + 1) '#' ++ ' ' :: t, ?_, hc⟩⟩
  · simp [headerLine, written.oneLine]
  · simp [headerLine, e]

theorem write_headerDocument (levels : 1 ≤ level ∧ level ≤ 6) (trimmed : Trimmed s.toList) :
    write (headerDocument level s) = String.ofList (headerLine level s.toList ++ ['\n']) := by
  have line := trimmed_headerLine levels trimmed
  have noFeed : '\n' ∉ escapeLineStart s.toList := fun feed =>
    (mem_escapeLineStart feed).elim (by decide) trimmed.oneLine
  have block : blockText false (headerDocument level s) = headerLine level s.toList := by
    rw [headerLine, ← headerText_line level noFeed, ← inlineText_text trimmed]
    simp [headerDocument, blockText, blocksText]
  obtain ⟨c, t, e, full⟩ := line.last
  have ended : endLine (headerLine level s.toList) = headerLine level s.toList ++ ['\n'] :=
    endLine_of_last (by rw [e, List.getLast?_concat]) full
  rw [write, writeBefore, ← ended, ← block]
  rfl

theorem parse_headerDocument (levels : 1 ≤ level ∧ level ≤ 6) (trimmed : Trimmed s.toList) :
    parse ⟨false, m⟩ (write (headerDocument level s)) =
      .ok (headerDocument level (headerReading s)) := by
  have line := trimmed_headerLine levels trimmed
  have written := trimmed_written trimmed
  have escapes := escapes_headerReading s
  have reading : Trimmed (headerReading s).toList := by
    unfold headerReading
    split
    · decide
    · exact trimmed
  have taken : ∀ offset ls, Layout.take ⟨headerLine level s.toList, offset⟩ ls =
      { layout := .header level (escapeClosing (escapeLineStart s.toList)), rest := ls } := by
    intro offset ls
    have unclosed := (Line.goesOn_escapeLineStart trimmed).trimmed
    rw [headerLine, Layout.take_header levels written, dropClosing_escapeClosing unclosed]
  rw [write_headerDocument levels trimmed, parse_leafLine line.verbatim (line.not_blank 0)
    (fun ls _ => taken 0 ls) (by simp) (by simp) (.inr rfl), Layout.leafTree,
    inlineTrees_of_escapes false escapes reading]
  simp [headerDocument]

end Documents

namespace Forest

/-- A header of one text, at any level and in any forest, is read back as itself if its text is not
a number sign alone; and that one, which gets a backslash as the start of a line and another as the
end of a header, as the second backslash and the sign. -/
theorem header_reads_back {level m : Nat} {s : String} (levels : 1 ≤ level ∧ level ≤ 6)
    (trimmed : Trimmed s.toList) :
    ReadsBackAs ⟨false, m⟩ (headerDocument level s)
        (headerDocument level (if s = "#" then "\\#" else s)) ∧
      (parse ⟨false, m⟩ (write (headerDocument level s)) = .ok (headerDocument level s) ↔
        s ≠ "#") := by
  have parsed := parse_headerDocument (m := m) levels trimmed
  refine ⟨readsBackAs_of_parse rfl parsed, ?_⟩
  rw [parsed, ← headerReading_eq_self]
  simp [headerDocument, Tree.leaf]

/-- Signs and backslashes at both ends. -/
theorem header_reads_back_thorny :
    1 ≤ 3 ∧ 3 ≤ 6 ∧ Trimmed "## \\# \\\\##".toList ∧
      write (headerDocument 3 "## \\# \\\\##") = "### \\## \\\\# \\\\\\\\#\\#\n" ∧
      parse ⟨false, 0⟩ (write (headerDocument 3 "## \\# \\\\##")) =
        .ok (headerDocument 3 "## \\# \\\\##") := by
  have trimmed : Trimmed "## \\# \\\\##".toList := by decide
  have read : parse ⟨false, 0⟩ (write (headerDocument 3 "## \\# \\\\##")) =
      .ok (headerDocument 3 "## \\# \\\\##") :=
    (header_reads_back (by decide) trimmed).2.mpr (by decide)
  exact ⟨by decide, by decide, trimmed, by decide +kernel, read⟩

/-- The sign alone, read from a source. -/
theorem header_of_sign :
    parse {} "# \\#" = .ok (headerDocument 1 "#") ∧
      write (headerDocument 1 "#") = "# \\\\#\n" ∧
      parse {} "# \\\\#\n" = .ok (headerDocument 1 "\\#") ∧
      ¬ ∀ (level : Nat) (s : String), 1 ≤ level → level ≤ 6 → Trimmed s.toList →
        parse {} (write (headerDocument level s)) = .ok (headerDocument level s) := by
  have written : write (headerDocument 1 "#") = "# \\\\#\n" := by decide +kernel
  have read : parse {} "# \\\\#\n" = .ok (headerDocument 1 "\\#") := by decide +kernel
  refine ⟨by decide +kernel, written, read, fun all => ?_⟩
  have whole := all 1 "#" (by decide) (by decide) (by decide)
  rw [written, read] at whole
  revert whole
  decide

end Forest

end MarkdownForest
