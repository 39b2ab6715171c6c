/-
# MarkdownForest.Proofs.NestedText -- a line with nested emphasis

`Nested` is a line of text a stretch of which stands inside emphasis, in one level
or more; `Nested.tree` is the document that has this line as its only paragraph.

* `becomes_line`: the pieces of a line with stars before and after a stretch;
* `parse_stars`: as many stars before a stretch as after it are read as nested
  emphasis.
-/
import MarkdownForest.Proofs.Matching
import MarkdownForest.Proofs.Scanning
import MarkdownForest.Proofs.TextLines

namespace MarkdownForest

set_option autoImplicit false

open Text Emphasis Scan
open Line (Trimmed IsText)

/-- Text inside levels of emphasis, with text before and after it on the line. -/
structure Nested where
  before : List Char
  inside : List Char
  after : List Char
  outermost : Level
  inner : List Level
  /-- No character is markup. -/
  quiet : ∀ c ∈ before ++ inside ++ after, isQuiet c
  /-- The line does not begin with a number. -/
  start : ∀ c, before.head? = some c → isWord c ∧ c.isDigit = false
  first : ∃ c t, inside = c :: t ∧ isWord c
  last : ∃ c t, inside = t ++ [c] ∧ isWord c
  ending : ∀ c, after.getLast? = some c → isSpace c = false

namespace Nested

variable (s : Nested)

/-- The line with `marked` in place of the text inside the emphasis. -/
def line (marked : List Char) : List Char :=
  s.before ++ marked ++ s.after

/-- The inlines of the line with `inner` as the levels inside the outermost one. -/
def inlinesWith (inner : List Level) : List Inline :=
  texts s.before ++ s.outermost.around (nested inner [.text s.inside]) :: texts s.after

def inlines : List Inline :=
  s.inlinesWith s.inner

def tree : Tree :=
  .node .document [.node .paragraph (Inline.toTrees false s.inlines)]

example : ∃ s : Nested, parse {} "a***b*** c" = .ok s.tree := by
  refine ⟨⟨['a'], ['b'], [' ', 'c'], .emph, [.strong], List.all_eq_true.mp ?_, ?_, ⟨'b', [], ?_⟩,
    ⟨'b', [], ?_⟩, ?_⟩, ?_⟩
  · decide
  · rintro c ⟨⟩
    decide
  · decide
  · decide
  · rintro c ⟨⟩
    decide
  · decide +kernel

theorem quiet_before : ∀ c ∈ s.before, isQuiet c := fun c hc => s.quiet c (by simp [hc])

theorem quiet_inside : ∀ c ∈ s.inside, isQuiet c := fun c hc => s.quiet c (by simp [hc])

theorem quiet_after : ∀ c ∈ s.after, isQuiet c := fun c hc => s.quiet c (by simp [hc])

/-! ## The line as a paragraph -/

/-- What begins and ends with a star, and is no item. -/
structure Marked (marked : List Char) : Prop where
  first : ∃ c t, marked = '*' :: c :: t ∧ c ≠ ' '
  last : ∃ t, marked = t ++ ['*']
  oneLine : '\n' ∉ marked
  word : ∃ c ∈ marked, isWord c

section Lines

variable {marked : List Char}

theorem trimmed (h : Marked marked) : Trimmed (s.line marked) := by
  refine ⟨?_, ?_, ?_⟩
  · intro feed
    have quiet : ∀ t : List Char, (∀ c ∈ t, isQuiet c) → '\n' ∉ t := fun t ht hc =>
      absurd (ht _ hc) (by decide)
    rcases List.mem_append.mp feed with hc | hc
    · rcases List.mem_append.mp hc with hc | hc
      · exact quiet _ s.quiet_before hc
      · exact h.oneLine hc
    · exact quiet _ s.quiet_after hc
  · cases hb : s.before with
    | nil =>
      obtain ⟨c, t, rfl, -⟩ := h.first
      exact ⟨'*', c :: t ++ s.after, by simp [line, hb], by decide⟩
    | cons c t =>
      have word := (s.start c (by simp [hb])).1
      exact ⟨c, t ++ marked ++ s.after, by simp [line, hb], ((isWord_iff c).mp word).1⟩
  · rcases List.eq_nil_or_concat s.after with ha | ⟨t, c, ha⟩
    · obtain ⟨t, rfl⟩ := h.last
      exact ⟨'*', s.before ++ t, by simp [line, ha], by decide⟩
    · exact ⟨c, s.before ++ marked ++ t, by simp [line, ha], s.ending c (by simp [ha])⟩

theorem isText (h : Marked marked) : IsText ⟨s.line marked, 0⟩ := by
  cases hb : s.before with
  | nil =>
    obtain ⟨c, t, rfl, hc⟩ := h.first
    obtain ⟨d, hd, word⟩ := h.word
    have mem : d ∈ c :: (t ++ s.after) := by
      rcases List.mem_cons.mp hd with rfl | hd
      · exact absurd word (by decide)
      · rw [← List.cons_append]
        exact List.mem_append_left _ hd
    simpa [line, hb] using Line.isText_of_star hc mem word
  | cons c t =>
    obtain ⟨word, digit⟩ := s.start c (by simp [hb])
    simpa [line, hb] using Line.isText_of_word word digit

end Lines

theorem marked_between {n : Nat} {middle : List Char} (hn : 0 < n)
    (first : ∃ c t, middle = c :: t ∧ c ≠ ' ') (oneLine : '\n' ∉ middle)
    (word : ∃ c ∈ middle, isWord c) : Marked (between '*' n middle) := by
  obtain ⟨c, t, rfl, space⟩ := first
  obtain ⟨d, hd, word⟩ := word
  obtain ⟨n, rfl⟩ := Nat.exists_eq_add_of_lt hn
  rw [Nat.zero_add]
  have inside : d ∈ between '*' (n + 1) (c :: t) :=
    List.mem_append_left _ (List.mem_append_right _ hd)
  refine ⟨?_, ?_, ?_, ⟨d, inside, word⟩⟩
  · cases n with
    | zero => exact ⟨c, t ++ ['*'], by simp [between], space⟩
    | succ n =>
      exact ⟨'*', List.replicate n '*' ++ c :: t ++ List.replicate (n + 2) '*',
        by simp [between, List.replicate_succ], by decide⟩
  · exact ⟨List.replicate (n + 1) '*' ++ c :: t ++ List.replicate n '*', by
      rw [between, List.append_assoc _ _ ['*'], ← List.replicate_succ']⟩
  · intro feed
    simp only [between, List.mem_append, List.mem_replicate] at feed
    rcases feed with (h | h) | h
    · exact absurd h.2 (by decide)
    · exact oneLine h
    · exact absurd h.2 (by decide)

theorem feed_not_inside : '\n' ∉ s.inside := fun h => absurd (s.quiet_inside _ h) (by decide)

theorem marked_stars {n : Nat} (hn : 0 < n) : Marked (between '*' n s.inside) := by
  obtain ⟨c, t, hc, word⟩ := s.first
  exact marked_between hn ⟨c, t, hc, ne_of_class word (by decide)⟩ s.feed_not_inside
    ⟨c, by simp [hc], word⟩

/-! ## The pieces of the line -/

theorem not_star_after : s.after.head? ≠ some '*' := by
  intro e
  have := s.quiet_after '*' (List.mem_of_head? e)
  revert this
  decide

/-- The pieces of the line when those of what stands between the stars are known. -/
theorem becomes_line {middle : List Char} {n : Nat} (hn : 0 < n) (filled : middle ≠ [])
    (unstarred : middle.head? ≠ some '*') {ps : List Piece}
    (inner : Becomes (some '*') middle (List.replicate n '*' ++ s.after) ps) :
    ∃ ts us, ts.flatten = s.before ∧ [] ∉ ts ∧ us.flatten = s.after ∧ [] ∉ us ∧
      Becomes none (s.line (between '*' n middle)) []
        (textPieces ts ++ .delim (Delim.ofRun '*' n s.before.getLast? middle.head?) ::
          (ps ++ .delim (Delim.ofRun '*' n middle.getLast? s.after.head?) :: textPieces us)) := by
  have stops : Stops (between '*' n middle ++ s.after) := by
    rw [between, List.append_assoc, List.append_assoc]
    exact stops_marks (.inl rfl) hn _
  obtain ⟨ts, hts, full, first⟩ := becomes_quiet none s.quiet_before stops
  have marked := becomes_between (s.before.getLast?.or none) (.inl rfl) hn filled unstarred
    s.not_star_after inner
  obtain ⟨us, hus, full', last⟩ := becomes_quiet ((s.before ++ between '*' n middle).getLast?.or none)
    s.quiet_after (show Stops [] from rfl)
  have chain := (first.append marked).append_last last
  rw [Option.or_none] at chain
  exact ⟨ts, us, hts, full, hus, full', by simpa [line] using chain⟩

/-! ## Reading stars -/

theorem texts_inside : texts s.inside = [.text s.inside] := by
  obtain ⟨c, t, h, -⟩ := s.first
  simp [texts, h]

theorem parseInlines_stars {n : Nat} (hn : levelsOf n = s.outermost :: s.inner) :
    parseInlines (s.line (between '*' n s.inside)) = s.inlines := by
  obtain ⟨c, t, hc, first⟩ := s.first
  obtain ⟨d, u, hd, last⟩ := s.last
  have pos : 0 < n := by
    rw [Nat.pos_iff_ne_zero]
    rintro rfl
    cases hn
  have filled : s.inside ≠ [] := by simp [hc]
  have unstarred : s.inside.head? ≠ some '*' := by
    simpa [hc] using ne_of_class first (by decide)
  obtain ⟨vs, hvs, full, inner⟩ := becomes_quiet (some '*') s.quiet_inside
    (stops_marks (.inl rfl) pos s.after)
  obtain ⟨ts, us, hts, fullts, hus, fullus, pieces⟩ := s.becomes_line pos filled unstarred inner
  have pairs : Pairs (Delim.ofRun '*' n s.before.getLast? s.inside.head?)
      (Delim.ofRun '*' n s.inside.getLast? s.after.head?) := by
    refine ⟨rfl, ?_, ?_, oddMatch_of_orig_eq rfl⟩
    · simp [Delim.ofRun, hc, leftFlanking_before_word first]
    · simp [Delim.ofRun, hd, Delim.rightFlanking, leftFlanking_before_word last]
  have resolved : resolve [] (textPieces ts ++
      .delim (Delim.ofRun '*' n s.before.getLast? s.inside.head?) ::
        (textPieces vs ++ .delim (Delim.ofRun '*' n s.inside.getLast? s.after.head?) ::
          textPieces us)) =
      textPieces ts ++ ((nested (levelsOf n) (finish (textPieces vs))).map .inline ++
        textPieces us) :=
    resolve_enclosed pairs rfl pos (silent_textPieces vs) (resolve_silent (silent_textPieces vs))
  rw [parseInlines_of_becomes pieces, resolved, hn, finish_textPieces full, hvs, s.texts_inside,
    inlines, inlinesWith, ← hts, ← hus]
  exact finish_between fullts fullus (Level.around_not_text _ _)

/-- Stars are read as the levels that so many marks make. -/
theorem parse_stars (o : ParseOptions) (plain : o.smart = false) {n : Nat}
    (hn : levelsOf n = s.outermost :: s.inner) :
    parse o (String.ofList (s.line (between '*' n s.inside))) = .ok s.tree := by
  have pos : 0 < n := by
    rw [Nat.pos_iff_ne_zero]
    rintro rfl
    cases hn
  have line := parse_line (o := o) (s.trimmed (s.marked_stars pos))
    (s.isText (s.marked_stars pos)) (.inl rfl)
  rw [List.append_nil, inlineTrees, plain, s.parseInlines_stars hn] at line
  exact line

end Nested

end MarkdownForest
