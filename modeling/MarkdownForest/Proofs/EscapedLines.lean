/-
# MarkdownForest.Proofs.EscapedLines -- escaped lines are lines of a paragraph

What could open a block, or underline a header, stands behind a backslash at the
start of a written line.  So every line of written prose opens a paragraph or
goes on with one, and never ends it.

* `Inert`: beginnings that open nothing; `inert_escapeLineStart`: escaped text has
  one, whatever comes after it;
* `GoesOn`: lines on which a paragraph goes on; `goesOn_proseLines`: the lines of
  prose are such;
* `take_prose`: up to a blank line they are one paragraph.
-/
import MarkdownForest.Proofs.EscapedText

namespace MarkdownForest

set_option autoImplicit false

open Text CommonMark

namespace Line

/-! ## Beginnings that open nothing -/

/-- A first character that opens no block, or only as part of a number. -/
def isInert (c : Char) : Bool :=
  c == '\\' || !(isSpace c || isSpecial c || opensLine c)

/-- The text begins with a character that opens nothing, and a number at its start is not that of an
item. -/
structure Inert (s : List Char) : Prop where
  first : ∃ c t, s = c :: t ∧ isInert c
  unnumbered : s.head?.any Char.isDigit → (s.dropWhile Char.isDigit).head?.any endsNumber = false

section Inert

variable {r s w : List Char} {offset : Nat}

theorem Inert.noMarker (h : Inert s) : Marker.head? s = none := by
  have unnumbered := h.unnumbered
  obtain ⟨c, t, rfl, hc⟩ := h.first
  have apart : ∀ m, isInert m = false → c ≠ m := fun m hm => ne_of_class hc hm
  obtain ⟨k, u, split, hk, hu⟩ := exists_span Char.isDigit (c :: t)
  obtain ⟨digits, after⟩ := span_append hk hu
  rw [← split] at digits after
  have left : (c :: t).drop k.length = u := by
    rw [split]
    exact List.drop_left
  simp only [Marker.head?, apart '-' (by decide), apart '+' (by decide), apart '*' (by decide),
    or_self, if_false, digits, left]
  cases u with
  | nil => rfl
  | cons d u =>
    by_cases digit : c.isDigit
    · have delimiter : endsNumber d = false := by simpa [after, digit] using unnumbered
      simp only [endsNumber, Bool.or_eq_false_iff, beq_eq_false_iff_ne] at delimiter
      simp [delimiter]
    · have none : k = [] := by
        rw [← digits]
        simp [digit]
      simp [none]

theorem Inert.isText (h : Inert s) : (⟨s, offset⟩ : Line).IsText := by
  have marker := h.noMarker
  obtain ⟨c, t, rfl, hc⟩ := h.first
  refine isText_of_first ?_ marker
  intro opens
  simp only [List.mem_cons, List.not_mem_nil, or_false] at opens
  rcases opens with rfl | rfl | rfl | rfl | rfl | rfl | rfl | rfl | rfl | rfl
  all_goals exact absurd hc (by decide)

/-- The beginning of a backslash. -/
theorem inert_escape (s : List Char) : Inert ('\\' :: s) :=
  ⟨⟨'\\', s, rfl, rfl⟩, fun digit => absurd digit Bool.false_ne_true⟩

theorem isInert_of_digit {c : Char} (hc : c.isDigit) (space : isSpace c = false) : isInert c := by
  have apart : ∀ m, m.isDigit = false → c ≠ m := fun m hm => ne_of_class hc hm
  have special := (not_special_of_plain (isPlain_of_digit hc)).1
  simp [isInert, space, special, opensLine, apart '#' (by decide), apart '>' (by decide),
    apart '-' (by decide), apart '+' (by decide), apart '=' (by decide), apart '~' (by decide)]

/-- What is written as inside a line begins like the text, whose number is not that of an item, or
with a backslash. -/
theorem inert_escapeInline (first : ∃ c t, s = c :: t ∧ isSpace c = false)
    (unmarked : s.head?.any opensLine = false)
    (unnumbered : s.head?.any Char.isDigit →
      (s.dropWhile Char.isDigit).head?.any endsNumber = false) (hr : Scan.Breaks r) :
    Inert (escapeInline s ++ r) := by
  obtain ⟨c, t, rfl, space⟩ := first
  by_cases escaped : isSpecial c || (c == '!' && t.isEmpty)
  · have written : escapeInline (c :: t) = '\\' :: c :: escapeInline t := if_pos escaped
    rw [written]
    exact inert_escape _
  · have written : escapeInline (c :: t) = c :: escapeInline t := if_neg escaped
    have special : isSpecial c = false := by
      simp only [Bool.or_eq_true, not_or, Bool.not_eq_true] at escaped
      exact escaped.1
    have opens : opensLine c = false := by simpa using unmarked
    constructor
    · refine ⟨c, escapeInline t ++ r, by rw [written]; rfl, ?_⟩
      simp [isInert, space, special, opens]
    · intro digit
      rw [written] at digit
      have delimiter := unnumbered digit
      obtain ⟨k, u, split, hk, hu⟩ := exists_span Char.isDigit (c :: t)
      have plain : ∀ d ∈ k, isSpecial d = false ∧ d ≠ '!' := fun d hd =>
        not_special_of_plain (isPlain_of_digit (hk d hd))
      rw [split, (span_append hk hu).2] at delimiter
      have ends : r.head?.any Char.isDigit = false := hr.none_of (by decide) (by decide)
      have stop := escapeInline_stops (by decide) hu ends
      rw [split, escapeInline_append plain, List.append_assoc, (span_append hk stop).2]
      exact escapeInline_stops (by decide) delimiter (hr.none_of (by decide) (by decide))

/-- Escaped text opens nothing, also in front of a break. -/
theorem inert_escapeLineStart (first : ∃ c t, s = c :: t ∧ isSpace c = false)
    (hr : Scan.Breaks r) : Inert (escapeLineStart s ++ r) := by
  have start := escapeLineStart_cases s
  generalize escapeLineStart s = w at start ⊢
  cases start with
  | @number c d u t digits delimiter =>
    obtain ⟨e, v, split, space⟩ := first
    obtain ⟨rfl, -⟩ := List.cons.inj split
    rw [List.append_assoc]
    refine ⟨⟨c, _, rfl, isInert_of_digit (digits c List.mem_cons_self) space⟩, fun _ => ?_⟩
    rw [(span_append digits rfl).2]
    rfl
  | mark => exact inert_escape _
  | plain unmarked unnumbered => exact inert_escapeInline first unmarked unnumbered hr

end Inert

/-! ## Lines on which a paragraph goes on -/

/-- A paragraph goes on with this line. -/
structure GoesOn (s : List Char) : Prop where
  trimmed : Trimmed s
  inert : Inert s

section GoesOn

variable {s : List Char} {l : Line} {ls rest : List Line}

theorem GoesOn.not_underline (h : GoesOn s) (offset : Nat) : underline? ⟨s, offset⟩ = none := by
  obtain ⟨c, t, rfl, hc⟩ := h.inert.first
  have equals : c ≠ '=' := ne_of_class hc (by decide)
  have dash : c ≠ '-' := ne_of_class hc (by decide)
  simp [underline?, h.trimmed.rest_eq, h.trimmed.trimEnd_eq, equals, dash]

theorem IsText.not_startsBlock (h : l.IsText) : startsBlock l = false := by
  have quote : ¬ l.rest.head? = some '>' := h.quote
  simp [startsBlock, h.fence, h.header, quote, h.rule, h.marker]

theorem Trimmed.trimStart_eq (h : Trimmed s) : trimStart s = s := by
  obtain ⟨c, t, rfl, hc⟩ := h.first
  simp [trimStart, hc]

theorem takeParagraph_goesOn (h : ∀ l ∈ ls, GoesOn l.text) (hr : ∀ l ∈ rest.head?, l.isBlank) :
    takeParagraph (ls ++ rest) = (ls.map text, none, rest) := by
  induction ls with
  | nil =>
    cases rest with
    | nil => rfl
    | cons l rest => simp [takeParagraph, hr l rfl]
  | cons l ls ih =>
    obtain ⟨here, more⟩ := List.forall_mem_cons.mp h
    have blank : ¬ l.isBlank := here.trimmed.not_blank l.offset
    have text : l.IsText := here.inert.isText
    have starts : startsBlock l = false := text.not_startsBlock
    have underline : underline? l = none := here.not_underline l.offset
    simp [takeParagraph, blank, underline, starts, ih more, here.trimmed.trimStart_eq]

/-- Trimmed lines end with the last character of the last of them. -/
theorem exists_last_intercalate {ss : List (List Char)} (filled : ss ≠ [])
    (h : ∀ s ∈ ss, Trimmed s) :
    ∃ c t, List.intercalate ['\n'] ss = t ++ [c] ∧ isSpace c = false := by
  induction ss with
  | nil => exact absurd rfl filled
  | cons s ss ih =>
    obtain ⟨here, more⟩ := List.forall_mem_cons.mp h
    by_cases last : ss = []
    · rw [last, List.intercalate_singleton]
      exact here.last
    · obtain ⟨c, t, e, hc⟩ := ih last more
      refine ⟨c, s ++ ['\n'] ++ t, ?_, hc⟩
      rw [List.intercalate_cons_of_ne_nil last, e, List.append_assoc _ t]

/-- Lines on which a paragraph goes on are one paragraph up to a blank line. -/
theorem take_goesOn (h : ∀ k ∈ l :: ls, GoesOn k.text) (hr : ∀ l ∈ rest.head?, l.isBlank) :
    Layout.take l (ls ++ rest) =
      { layout := .paragraph (List.intercalate ['\n'] ((l :: ls).map text)), rest } := by
  obtain ⟨here, more⟩ := List.forall_mem_cons.mp h
  have first : l.rest = l.text := here.trimmed.rest_eq l.offset
  have trimmed : ∀ s ∈ (l :: ls).map text, Trimmed s := by
    intro s hs
    obtain ⟨k, hk, rfl⟩ := List.mem_map.mp hs
    exact (h k hk).trimmed
  rw [here.inert.isText.take, Layout.takeText, takeParagraph_goesOn more hr, first]
  obtain ⟨c, t, e, hc⟩ := exists_last_intercalate (List.cons_ne_nil _ _) trimmed
  rw [List.map_cons]
  dsimp only
  rw [e, trimEnd_of_last hc]

end GoesOn

/-! ## The lines of prose -/

theorem goesOn_escape {s r : List Char} (h : Trimmed s) (hr : r = [] ∨ r = ['\\']) :
    GoesOn (escapeLineStart s ++ r) := by
  have breaks : Scan.Breaks r := by
    rcases hr with rfl | rfl <;> simp [Scan.Breaks]
  have inert := inert_escapeLineStart h.first breaks
  refine ⟨⟨?_, ?_, ?_⟩, inert⟩
  · intro feed
    rcases List.mem_append.mp feed with feed | feed
    · exact (mem_escapeLineStart feed).elim (by decide) h.oneLine
    · rcases hr with rfl | rfl <;> simp at feed
  · obtain ⟨c, t, e, hc⟩ := inert.first
    refine ⟨c, t, e, ?_⟩
    rcases Bool.or_eq_true_iff.mp hc with escape | other
    · rw [beq_iff_eq.mp escape]
      decide
    · simp only [Bool.not_eq_true', Bool.or_eq_false_iff] at other
      exact other.1.1
  · rcases hr with rfl | rfl
    · obtain ⟨c, t, e, hc⟩ := h.last
      have last : (escapeLineStart s).getLast? = some c := by
        rw [getLast?_escapeLineStart, e, List.getLast?_concat]
      obtain ⟨u, e⟩ := List.getLast?_eq_some_iff.mp last
      exact ⟨c, u, by rw [List.append_nil, e], hc⟩
    · exact ⟨'\\', escapeLineStart s, rfl, by decide⟩

theorem goesOn_escapeLineStart {s : List Char} (h : Trimmed s) : GoesOn (escapeLineStart s) := by
  have line := goesOn_escape h (.inl rfl)
  rwa [List.append_nil] at line

theorem goesOn_proseLines {ts : List Tree} (h : Prose ts) : ∀ s ∈ proseLines ts, GoesOn s := by
  induction h with
  | @last s h =>
    simpa [Tree.leaf, proseLines] using goesOn_escapeLineStart h
  | @more s h b hb ts rest ih =>
    rcases hb with rfl | rfl
    · exact List.forall_mem_cons.mpr ⟨goesOn_escapeLineStart h, ih⟩
    · exact List.forall_mem_cons.mpr ⟨goesOn_escape h (.inr rfl), ih⟩

/-- The lines of prose are those it is written on. -/
theorem splitOn_prose {ts : List Tree} (h : Prose ts) :
    (inlineText ts).splitOn '\n' = proseLines ts := by
  rw [inlineText, h.writeInlines_eq _ rfl]
  exact List.splitOn_intercalate _ (fun s hs => (goesOn_proseLines h s hs).trimmed.oneLine)
    h.proseLines_ne_nil

/-- The lines of prose are one paragraph up to a blank line. -/
theorem take_prose {ts : List Tree} (h : Prose ts) {l : Line} {ls rest : List Line}
    (lines : (l :: ls).map text = proseLines ts) (hr : ∀ k ∈ rest.head?, k.isBlank) :
    Layout.take l (ls ++ rest) = { layout := .paragraph (inlineText ts), rest } := by
  have goesOn : ∀ k ∈ l :: ls, GoesOn k.text := by
    intro k hk
    exact goesOn_proseLines h _ (lines ▸ List.mem_map_of_mem hk)
  rw [take_goesOn goesOn hr, lines, inlineText, h.writeInlines_eq _ rfl]

end Line

end MarkdownForest
