/-
# MarkdownForest.Proofs.TextLines -- sources that are one line of text

A line is text if it opens no other block.  Then a source of that line alone is
one paragraph.

* `isText_of_word`, `isText_of_star`: lines that begin with a word or with
  emphasis are text;
* `parse_leafLine`: a source of one line that is a block, with a line feed after it
  or not;
* `parse_line`: a source of one line of text.
-/
import MarkdownForest.Document

namespace MarkdownForest

set_option autoImplicit false

open Text

/-- Characters that a class tells apart. -/
theorem ne_of_class {p : Char → Bool} {b : Bool} {c d : Char} (hc : p c = b) (hd : p d = !b) :
    c ≠ d := by
  rintro rfl
  rw [hc] at hd
  cases b <;> cases hd

/-- Lines that are ended end with a line feed, if there are any. -/
theorem getLast?_endedLines (lines : List (List Char)) :
    lines = [] ∨ (endedLines lines).getLast? = some '\n' := by
  rcases List.eq_nil_or_concat lines with rfl | ⟨before, last, rfl⟩
  · exact .inl rfl
  · right
    simp [endedLines]

namespace Line

/-- The line opens no block but a paragraph. -/
structure IsText (l : Line) : Prop where
  indent : l.indent < 4
  fence : Fence.open? l.rest = none
  header : header? l.rest = none
  quote : l.rest.head? ≠ some '>'
  rule : isRule l.rest = false
  marker : Marker.read? l = none
  html : opensHtml l.rest = false

theorem IsText.take {l : Line} (h : l.IsText) (ls : List Line) :
    Layout.take l ls = Layout.takeText l ls := by
  rw [Layout.take, if_neg (Nat.not_le.mpr h.indent)]
  simp [h.fence, h.header, h.quote, h.rule, h.marker, h.html]

/-! ## Lines by their first characters -/

section First

variable {c : Char} {s : List Char} {offset : Nat}

theorem rest_of_first (hc : c ≠ ' ') : (⟨c :: s, offset⟩ : Line).rest = c :: s := by
  simp [rest, hc]

theorem indent_of_first (hc : c ≠ ' ') : (⟨c :: s, offset⟩ : Line).indent = 0 := by
  simp [indent, hc]

theorem header?_of_first (hc : c ≠ '#') : header? (c :: s) = none := by
  simp [header?, runLength, hc]

theorem open?_of_first (hb : c ≠ '\x60') (ht : c ≠ '~') : Fence.open? (c :: s) = none := by
  unfold Fence.open?
  split
  · rename_i h
    cases h
    exact absurd rfl hb
  · rename_i h
    cases h
    exact absurd rfl ht
  · rfl

theorem opensHtml_of_first (hc : c ≠ '<') : opensHtml (c :: s) = false := by
  unfold opensHtml
  split <;> rename_i h <;> first | rfl | (cases h; exact absurd rfl hc)

/-- A line with a character that is neither a blank nor a mark is no thematic break. -/
theorem isRule_of_mem {d : Char} (hd : d ∈ s)
    (apart : d ≠ ' ' ∧ d ≠ '\t' ∧ d ≠ '*' ∧ d ≠ '-' ∧ d ≠ '_') : isRule s = false := by
  have mem : d ∈ s.filter fun c => c != ' ' && c != '\t' := by
    simp [hd, apart.1, apart.2.1]
  have other : ∀ m, d ≠ m → (s.filter fun c => c != ' ' && c != '\t').all (· == m) = false := by
    intro m ne
    rw [List.all_eq_false]
    exact ⟨d, mem, by simpa using ne⟩
  simp [isRule, other _ apart.2.2.1, other _ apart.2.2.2.1, other _ apart.2.2.2.2]

theorem isRule_of_word {d : Char} (hd : d ∈ s) (word : isWord d) : isRule s = false := by
  refine isRule_of_mem hd ⟨?_, ?_, ?_, ?_, ?_⟩
  all_goals exact ne_of_class word (by decide)

/-- A line that begins with none of the characters that open blocks, and with no item's number. -/
theorem isText_of_first (hc : c ∉ [' ', '\t', '\x60', '~', '#', '>', '*', '-', '_', '<'])
    (marker : Marker.head? (c :: s) = none) : (⟨c :: s, offset⟩ : Line).IsText := by
  simp only [List.mem_cons, List.not_mem_nil, or_false, not_or] at hc
  obtain ⟨space, tab, backtick, tilde, number, angle, star, dash, underscore, less⟩ := hc
  have rest : (⟨c :: s, offset⟩ : Line).rest = c :: s := rest_of_first space
  constructor
  · rw [indent_of_first space]
    decide
  · rw [rest]
    exact open?_of_first backtick tilde
  · rw [rest]
    exact header?_of_first number
  · rw [rest]
    simpa using angle
  · rw [rest]
    exact isRule_of_mem List.mem_cons_self ⟨space, tab, star, dash, underscore⟩
  · rw [Marker.read?, indent_of_first space, rest, marker]
    rfl
  · rw [rest]
    exact opensHtml_of_first less

theorem isText_of_word (hc : isWord c) (digit : c.isDigit = false) :
    (⟨c :: s, offset⟩ : Line).IsText := by
  have apart : ∀ m, isWord m = false → c ≠ m := fun m hm => ne_of_class hc hm
  refine isText_of_first ?_ ?_
  · intro opens
    simp only [List.mem_cons, List.not_mem_nil, or_false] at opens
    rcases opens with rfl | rfl | rfl | rfl | rfl | rfl | rfl | rfl | rfl | rfl
    all_goals exact apart _ (by decide) rfl
  · simp [Marker.head?, apart '-' (by decide), apart '+' (by decide), apart '*' (by decide), digit]

/-- A star with text right after it opens no item. -/
theorem isText_of_star {d : Char} (hc : c ≠ ' ') (hd : d ∈ c :: s) (word : isWord d) :
    (⟨'*' :: c :: s, offset⟩ : Line).IsText := by
  have rest : (⟨'*' :: c :: s, offset⟩ : Line).rest = '*' :: c :: s := rest_of_first (by decide)
  constructor
  · rw [indent_of_first (by decide)]
    decide
  · rw [rest]
    exact open?_of_first (by decide) (by decide)
  · rw [rest]
    exact header?_of_first (by decide)
  · rw [rest]
    simp
  · rw [rest]
    exact isRule_of_word (List.mem_cons_of_mem _ hd) word
  · simp [Marker.read?, Marker.head?, indent_of_first, rest, hc]
  · rw [rest]
    exact opensHtml_of_first (by decide)

end First

/-! ## Sources of one line -/

section Source

variable {s : List Char}

/-- A line that is cut out of a source as it stands: no tab among its leading blanks is expanded,
and no carriage return goes with the line feed. -/
structure Verbatim (s : List Char) : Prop where
  oneLine : '\n' ∉ s
  noTab : '\t' ∉ s.takeWhile fun c => c == ' ' || c == '\t'
  noReturn : s.getLast? ≠ some '\r'

theorem expandTabs_eq (noTab : '\t' ∉ s.takeWhile fun c => c == ' ' || c == '\t') (column : Nat) :
    expandTabs column s = s := by
  induction s generalizing column with
  | nil => rfl
  | cons c s ih =>
    unfold expandTabs
    split
    · rename_i e
      cases e
      exact absurd (by simp) noTab
    · rename_i e
      cases e
      rw [ih (by simpa using noTab)]
    · rfl

theorem Verbatim.number (h : Verbatim s) (offset : Nat) (more : List (List Char)) :
    number offset (s :: more) = ⟨s, offset⟩ :: number (offset + utf8Length s + 1) more := by
  rw [Line.number, dropCarriageReturn, if_neg h.noReturn, expandTabs_eq h.noTab]

theorem texts_number (offset : Nat) (raws : List (List Char)) :
    (Line.number offset raws).map Line.text =
      raws.map fun raw => expandTabs 0 (dropCarriageReturn raw) := by
  induction raws generalizing offset with
  | nil => rfl
  | cons raw raws ih => rw [Line.number, List.map_cons, ih, List.map_cons]

/-- Lines that are cut out as they stand. -/
theorem map_text_number {ss : List (List Char)} (h : ∀ s ∈ ss, Verbatim s) (offset : Nat) :
    (Line.number offset ss).map Line.text = ss := by
  rw [texts_number]
  refine (List.map_congr_left fun s hs => ?_).trans (List.map_id ss)
  rw [dropCarriageReturn, if_neg (h s hs).noReturn, expandTabs_eq (h s hs).noTab, id]

/-- A text without a line feed that neither begins nor ends with white space. -/
structure Trimmed (s : List Char) : Prop where
  oneLine : '\n' ∉ s
  first : ∃ c t, s = c :: t ∧ isSpace c = false
  last : ∃ c t, s = t ++ [c] ∧ isSpace c = false

instance (s : List Char) : Decidable (Verbatim s) :=
  decidable_of_iff ('\n' ∉ s ∧ ('\t' ∉ s.takeWhile fun c => c == ' ' || c == '\t') ∧
    s.getLast? ≠ some '\r') ⟨fun h => ⟨h.1, h.2.1, h.2.2⟩, fun h => ⟨h.1, h.2, h.3⟩⟩

theorem trimmed_iff : Trimmed s ↔
    '\n' ∉ s ∧ s.head?.any (!isSpace ·) ∧ s.getLast?.any (!isSpace ·) := by
  simp only [Option.any_eq_true, Bool.not_eq_true', List.head?_eq_some_iff,
    List.getLast?_eq_some_iff]
  constructor
  · rintro ⟨line, ⟨c, t, first, hc⟩, ⟨d, u, last, hd⟩⟩
    exact ⟨line, ⟨c, ⟨t, first⟩, hc⟩, ⟨d, ⟨u, last⟩, hd⟩⟩
  · rintro ⟨line, ⟨c, ⟨t, first⟩, hc⟩, ⟨d, ⟨u, last⟩, hd⟩⟩
    exact ⟨line, ⟨c, t, first, hc⟩, ⟨d, u, last, hd⟩⟩

instance (s : List Char) : Decidable (Trimmed s) :=
  decidable_of_iff _ trimmed_iff.symm

theorem trimEnd_of_last {c : Char} {t : List Char} (hc : isSpace c = false) :
    trimEnd (t ++ [c]) = t ++ [c] := by
  simp [trimEnd, dropEndWhile, hc]

theorem Trimmed.trimEnd_eq (h : Trimmed s) : trimEnd s = s := by
  obtain ⟨c, t, rfl, hc⟩ := h.last
  exact trimEnd_of_last hc

theorem Trimmed.verbatim (h : Trimmed s) : Verbatim s := by
  refine ⟨h.oneLine, ?_, ?_⟩
  · obtain ⟨c, t, rfl, hc⟩ := h.first
    have tab : c ≠ '\t' := ne_of_class hc (by decide)
    have space : c ≠ ' ' := ne_of_class hc (by decide)
    simp [space, tab]
  · obtain ⟨c, t, rfl, hc⟩ := h.last
    have carriage : c ≠ '\r' := ne_of_class hc (by decide)
    simpa using carriage

theorem Trimmed.rest_eq (h : Trimmed s) (offset : Nat) : (⟨s, offset⟩ : Line).rest = s := by
  obtain ⟨c, t, rfl, hc⟩ := h.first
  exact rest_of_first (ne_of_class hc (by decide))

theorem Trimmed.not_blank (h : Trimmed s) (offset : Nat) : ¬ (⟨s, offset⟩ : Line).isBlank := by
  obtain ⟨c, t, rfl, hc⟩ := h.first
  simp [Line.isBlank, Text.isBlank, hc]

end Source

end Line

open Line (Trimmed Verbatim IsText)

variable {o : ParseOptions} {s : List Char}

/-- Blank lines make nothing. -/
theorem parseBlocks_blanks {depth : Nat} {ls : List Line} (h : ∀ l ∈ ls, l.isBlank)
    (any blank : Bool) : parseBlocks o depth any blank ls = {} := by
  induction ls generalizing blank with
  | nil => rw [parseBlocks]
  | cons l ls ih =>
    rw [parseBlocks_blank (h l List.mem_cons_self)]
    exact ih (fun k hk => h k (List.mem_cons_of_mem _ hk)) true

/-- A source of one line, with a line feed after it or not, has blank lines after that line. -/
theorem Line.ofSource_line (verbatim : Verbatim s) {after : List Char}
    (hafter : after = [] ∨ after = ['\n']) :
    ∃ ls, Line.ofSource (s ++ after) = ⟨s, 0⟩ :: ls ∧ ∀ l ∈ ls, l.isBlank := by
  rcases hafter with rfl | rfl
  · refine ⟨[], ?_, by simp⟩
    rw [List.append_nil, Line.ofSource, List.splitOn_eq_singleton verbatim.oneLine,
      verbatim.number, Line.number]
  · refine ⟨[⟨[], utf8Length s + 1⟩], ?_, by simp [Line.isBlank, Text.isBlank]⟩
    rw [Line.ofSource, List.splitOn_append_cons_self_of_not_mem verbatim.oneLine,
      List.splitOn_nil, verbatim.number]
    simp [Line.number, Line.dropCarriageReturn, Line.expandTabs]

/-- A source of one line that is a block without blocks inside. -/
theorem parse_leafLine {x : Layout} (verbatim : Verbatim s) (filled : ¬ (⟨s, 0⟩ : Line).isBlank)
    (taken : ∀ ls, (∀ l ∈ ls, l.isBlank) →
      Layout.take ⟨s, 0⟩ ls = { layout := x, rest := ls })
    (notQuote : ∀ offset inner, x ≠ .quote offset inner)
    (notList : ∀ offset m items spaced, x ≠ .list offset m items spaced) {after : List Char}
    (hafter : after = [] ∨ after = ['\n']) :
    parse o (String.ofList (s ++ after)) = .ok (.node .document [x.leafTree o.smart]) := by
  obtain ⟨ls, lines, blank⟩ := Line.ofSource_line verbatim hafter
  have here := taken ls blank
  have trees : parseBlocks o 0 false false (⟨s, 0⟩ :: ls) = { trees := [x.leafTree o.smart] } := by
    rw [parseBlocks_leaf filled (by rwa [here]) (by rwa [here]), here, parseBlocks_blanks blank]
    rfl
  rw [parse, readSource, String.toList_ofList, lines, trees]
  rfl

/-- A source of one line of text is a paragraph. -/
theorem parse_line (trimmed : Trimmed s) (text : IsText ⟨s, 0⟩) {after : List Char}
    (hafter : after = [] ∨ after = ['\n']) :
    parse o (String.ofList (s ++ after)) =
      .ok (.node .document [.node .paragraph (inlineTrees o.smart s)]) := by
  refine parse_leafLine (x := .paragraph s) trimmed.verbatim (trimmed.not_blank 0)
    (fun ls blank => ?_) (by simp) (by simp) hafter
  rw [text.take]
  cases ls with
  | nil => simp [Layout.takeText, takeParagraph, trimmed.rest_eq, trimmed.trimEnd_eq]
  | cons l ls =>
    simp [Layout.takeText, takeParagraph, blank l List.mem_cons_self, trimmed.rest_eq,
      trimmed.trimEnd_eq]

end MarkdownForest
