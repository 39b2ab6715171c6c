/-
# MarkdownForest.Block.Layout -- the lines of one block

`Layout.take` cuts the first block off a run of lines.  It says what the block
is and which lines are left; it does not look inside: a quote or list item comes
with the lines of its contents, markers removed, and those are read by the same
rules (`MarkdownForest.Block.Build`).

A line without marker may continue the paragraph at the end of a quote or item
(`endsInParagraph`).  Whether one is open is decided line by line, from the
lines of the contents alone.

Reading ends because the lines left are a proper end of the lines given
(`Layout.rest_take_suffix`), and the contents of a quote or list weigh less than
its lines (`Layout.weight_quote_lt`, `Layout.weight_list_le`): each marker is at
least one character.
-/
import MarkdownForest.Block.Start

namespace MarkdownForest

set_option autoImplicit false

open Text

/-! ## The open end of a run of lines -/

/-- What the lines so far leave open: a fence, a paragraph, or neither. -/
structure OpenEnd where
  fence : Option Fence := none
  paragraph : Bool := false
  count : Nat := 0
  deriving Repr

namespace OpenEnd

/-- The open end after one more line. -/
def push (e : OpenEnd) (l : Line) : OpenEnd :=
  let count := e.count + 1
  match e.fence with
  | some f => { fence := if f.closedBy l then none else some f, count }
  | none =>
    if l.isBlank then { count }
    else if 4 ≤ l.indent then { paragraph := e.paragraph, count }
    else
      match Fence.open? l.rest with
      | some f => { fence := some f, count }
      | none =>
        if (header? l.rest).isSome || isRule l.rest then { count }
        else
          match Marker.read? l with
          | some m => { paragraph := !m.empty, count }
          | none => { paragraph := true, count }

def inParagraph (e : OpenEnd) : Bool :=
  e.paragraph && e.fence.isNone

end OpenEnd

/-- Whether the last of the lines leaves a paragraph open. -/
def endsInParagraph (lines : List Line) : Bool :=
  (lines.foldl OpenEnd.push {}).inParagraph

/-! ## Collecting contents -/

/-- The lines that `accept` takes as contents, as they are inside, and the lines from the first
refused one on.  `accept` is told what the contents so far leave open. -/
def collect (accept : OpenEnd → Line → Option Line) (e : OpenEnd) :
    List Line → List Line × List Line
  | [] => ([], [])
  | l :: ls =>
    match accept e l with
    | none => ([], l :: ls)
    | some inside => ((inside :: (collect accept (e.push inside) ls).1),
        (collect accept (e.push inside) ls).2)

theorem collect_suffix (accept : OpenEnd → Line → Option Line) (e : OpenEnd) (ls : List Line) :
    (collect accept e ls).2 <:+ ls := by
  induction ls generalizing e with
  | nil => simp [collect]
  | cons l ls ih =>
    simp only [collect]
    split
    · exact List.suffix_refl _
    · exact (ih _).trans (List.suffix_cons _ _)

theorem weight_collect_le {accept : OpenEnd → Line → Option Line}
    (shrinks : ∀ e l k, accept e l = some k → k.text.length ≤ l.text.length)
    (e : OpenEnd) (ls : List Line) :
    Line.weight (collect accept e ls).1 + Line.weight (collect accept e ls).2 ≤ Line.weight ls := by
  induction ls generalizing e with
  | nil => simp [collect]
  | cons l ls ih =>
    simp only [collect]
    split
    · simp
    · next k hk =>
      have h₁ := shrinks e l k hk
      have h₂ := ih (e.push k)
      simp only [Line.weight_cons]
      omega

/-! ## Quotes -/

/-- Whether a line bears the marker of a quote. -/
def Line.isQuoted (l : Line) : Bool :=
  decide (l.indent < 4) && l.rest.head? = some '>'

/-- The line after its quote marker and one space. -/
def Line.unquoted (l : Line) : Line :=
  let markerEnd := l.indent + 1
  l.tail (if (l.text.drop markerEnd).head? = some ' ' then markerEnd + 1 else markerEnd)

/-- The contents that a line gives to a quote. -/
def acceptQuoted (e : OpenEnd) (l : Line) : Option Line :=
  if l.isQuoted then some l.unquoted
  else if !l.isBlank && e.inParagraph && !startsBlock l then some (l.strip l.indent)
  else none

theorem length_acceptQuoted_le (e : OpenEnd) (l k : Line) (h : acceptQuoted e l = some k) :
    k.text.length ≤ l.text.length := by
  unfold acceptQuoted at h
  split at h
  · cases h; simp [Line.unquoted, Line.length_tail]
  · split at h
    · cases h; exact l.length_strip_le _
    · simp at h

theorem Line.text_ne_nil_of_rest {l : Line} (h : l.rest ≠ []) : l.text ≠ [] := by
  intro e
  simp [Line.rest, e] at h

theorem Line.length_unquoted_lt {l : Line} (h : l.isQuoted) :
    l.unquoted.text.length < l.text.length := by
  have hne : l.text ≠ [] := by
    apply Line.text_ne_nil_of_rest
    intro e
    simp [Line.isQuoted, e] at h
  have := List.length_pos_iff.mpr hne
  simp only [Line.unquoted, Line.length_tail]
  split <;> omega

/-! ## List items -/

/-- The contents that a line after the first gives to an item: blank lines, lines indented to the
item's column, and lines that continue a paragraph.  An item that begins with an empty line ends at
a blank one. -/
def acceptItem (m : Marker) (e : OpenEnd) (l : Line) : Option Line :=
  if l.isBlank then
    if m.empty && e.count == 1 then none else some l.emptied
  else if m.width ≤ l.indent then some (l.strip m.width)
  else if (Marker.read? l).any (m.sameList ·) then none
  else if e.inParagraph && !startsBlock l then some (l.strip l.indent)
  else none

theorem length_acceptItem_le (m : Marker) (e : OpenEnd) (l k : Line)
    (h : acceptItem m e l = some k) : k.text.length ≤ l.text.length := by
  unfold acceptItem at h
  split at h
  · split at h
    · simp at h
    · cases h; simp [Line.emptied]
  · split at h
    · cases h; exact l.length_strip_le _
    · split at h
      · simp at h
      · split at h
        · cases h; exact l.length_strip_le _
        · simp at h

/-- The contents of one item, the lines after it, and whether blank lines were cut off its end. -/
structure ItemLines where
  lines : List Line
  rest : List Line
  trailingBlank : Bool

/-- The item whose marker `m` stands on `l`. -/
def takeItem (m : Marker) (l : Line) (ls : List Line) : ItemLines :=
  let first := l.tail m.width
  let found := collect (acceptItem m) (({} : OpenEnd).push first) ls
  let kept := dropEndWhile Line.isBlank found.1
  { lines := first :: kept
    rest := found.2
    trailingBlank := decide (kept.length < found.1.length) }

/-- The marker on the first of the lines, if it goes on with the list of `m`. -/
def nextItem? (m : Marker) : List Line → Option (Marker × Line × List Line)
  | [] => none
  | l :: ls =>
    match Marker.read? l with
    | some n => if m.sameList n && !isRule l.rest then some (n, l, ls) else none
    | none => none

theorem nextItem?_eq_some {m n : Marker} {lines : List Line} {l : Line} {ls : List Line}
    (h : nextItem? m lines = some (n, l, ls)) : lines = l :: ls ∧ Marker.read? l = some n := by
  unfold nextItem? at h
  split at h
  · simp at h
  · split at h
    · next hr =>
      split at h
      · cases h; exact ⟨rfl, hr⟩
      · simp at h
    · simp at h

theorem rest_takeItem_suffix (m : Marker) (l : Line) (ls : List Line) :
    (takeItem m l ls).rest <:+ ls :=
  collect_suffix _ _ _

theorem length_lt_of_nextItem? {m n : Marker} {l k : Line} {ls ks : List Line}
    (h : nextItem? m (takeItem m l ls).rest = some (n, k, ks)) : ks.length < ls.length := by
  have := (rest_takeItem_suffix m l ls).length_le
  rw [(nextItem?_eq_some h).1] at this
  exact Nat.lt_of_succ_le this

/-- The items of a list: the contents of each, the lines after the last, whether blank lines stand
between two of them, and whether they stand after the last. -/
structure ListLines where
  items : List (List Line)
  rest : List Line
  spaced : Bool
  trailingBlank : Bool

/-- The items from the one whose marker `m` stands on `l`. -/
def takeItems (m : Marker) (l : Line) (ls : List Line) : ListLines :=
  let item := takeItem m l ls
  match h : nextItem? m item.rest with
  | none => ⟨[item.lines], item.rest, false, item.trailingBlank⟩
  | some (n, k, ks) =>
    have : ks.length < ls.length := length_lt_of_nextItem? h
    let more := takeItems n k ks
    ⟨item.lines :: more.items, more.rest, item.trailingBlank || more.spaced, more.trailingBlank⟩
termination_by ls.length

/-- The weight of the contents of items, each counted as one more. -/
def itemsWeight : List (List Line) → Nat
  | [] => 0
  | item :: items => Line.weight item + 1 + itemsWeight items

theorem Marker.length_pos_of_head? {s : List Char} {type : ListType} {d : Char}
    {start length : Nat} (h : Marker.head? s = some (type, d, start, length)) :
    0 < length ∧ s ≠ [] := by
  unfold Marker.head? at h
  split at h
  · simp at h
  · refine ⟨?_, by simp⟩
    split at h
    · cases h; omega
    · dsimp only at h
      split at h
      · split at h
        · simp at h
        · split at h
          · cases h; omega
          · simp at h
      · simp at h

theorem Marker.read?_pos {l : Line} {m : Marker} (h : Marker.read? l = some m) :
    0 < m.width ∧ l.text ≠ [] := by
  unfold Marker.read? at h
  split at h
  · simp at h
  · split at h
    · simp at h
    · next hd =>
      obtain ⟨h₁, h₂⟩ := Marker.length_pos_of_head? hd
      dsimp only at h
      split at h
      · cases h
        refine ⟨?_, Line.text_ne_nil_of_rest h₂⟩
        dsimp only
        split <;> omega
      · simp at h

theorem weight_takeItem_le {m : Marker} {l : Line} (h : Marker.read? l = some m) (ls : List Line) :
    Line.weight (takeItem m l ls).lines + 1 + Line.weight (takeItem m l ls).rest
      ≤ Line.weight (l :: ls) := by
  obtain ⟨hw, ht⟩ := Marker.read?_pos h
  have hl := List.length_pos_iff.mpr ht
  have hc := weight_collect_le (length_acceptItem_le m) (({} : OpenEnd).push (l.tail m.width)) ls
  have hd : Line.weight (dropEndWhile Line.isBlank
      (collect (acceptItem m) (({} : OpenEnd).push (l.tail m.width)) ls).1)
      ≤ Line.weight (collect (acceptItem m) (({} : OpenEnd).push (l.tail m.width)) ls).1 := by
    obtain ⟨t, ht⟩ := prefix_dropEndWhile Line.isBlank
      (collect (acceptItem m) (({} : OpenEnd).push (l.tail m.width)) ls).1
    conv => rhs; rw [← ht]
    simp
  simp only [takeItem, Line.weight_cons, Line.length_tail]
  omega

theorem weight_takeItems_le {m : Marker} {l : Line} (h : Marker.read? l = some m)
    (ls : List Line) :
    itemsWeight (takeItems m l ls).items + Line.weight (takeItems m l ls).rest
      ≤ Line.weight (l :: ls) := by
  fun_induction takeItems m l ls with
  | case1 m l ls item hn =>
    have := weight_takeItem_le h ls
    simp only [itemsWeight]
    omega
  | case2 m l ls item n k ks hn _ more ih =>
    have h₁ := weight_takeItem_le h ls
    obtain ⟨h₂, h₃⟩ := nextItem?_eq_some hn
    have h₄ := ih h₃
    rw [h₂] at h₁
    change Line.weight (takeItem m l ls).lines + 1 + itemsWeight (takeItems n k ks).items +
      Line.weight (takeItems n k ks).rest ≤ _
    omega

theorem rest_takeItems_suffix (m : Marker) (l : Line) (ls : List Line) :
    (takeItems m l ls).rest <:+ ls := by
  fun_induction takeItems m l ls with
  | case1 m l ls item hn => exact rest_takeItem_suffix m l ls
  | case2 m l ls item n k ks hn _ more ih =>
    have h₁ : (k :: ks) <:+ ls := (nextItem?_eq_some hn).1 ▸ rest_takeItem_suffix m l ls
    exact (ih.trans (List.suffix_cons _ _)).trans h₁

/-! ## Paragraphs and code -/

/-- The texts of lines, each ended by a line feed. -/
def endedLines (lines : List (List Char)) : List Char :=
  lines.flatMap (· ++ ['\n'])

/-- The further lines of a paragraph, the level of the header that an underline makes of it, and
the lines after it. -/
def takeParagraph : List Line → List (List Char) × Option Nat × List Line
  | [] => ([], none, [])
  | l :: ls =>
    if l.isBlank then ([], none, l :: ls)
    else
      match underline? l with
      | some level => ([], some level, ls)
      | none =>
        if startsBlock l then ([], none, l :: ls)
        else (trimStart l.text :: (takeParagraph ls).1, (takeParagraph ls).2)

theorem takeParagraph_suffix (ls : List Line) : (takeParagraph ls).2.2 <:+ ls := by
  induction ls with
  | nil => simp [takeParagraph]
  | cons l ls ih =>
    simp only [takeParagraph]
    split
    · exact List.suffix_refl _
    · split
      · exact List.suffix_cons _ _
      · split
        · exact List.suffix_refl _
        · exact ih.trans (List.suffix_cons _ _)

/-! ## Layouts -/

/-- One block, its contents not yet read. -/
inductive Layout where
  | code (info literal : List Char)
  | header (level : Nat) (text : List Char)
  | rule
  | html (literal : List Char)
  | paragraph (text : List Char)
  | quote (offset : Nat) (inner : List Line)
  | list (offset : Nat) (marker : Marker) (items : List (List Line)) (spaced : Bool)
  deriving Repr

/-- A block with the lines after it, and whether blank lines at its end were taken with it. -/
structure Taken where
  layout : Layout
  rest : List Line
  trailingBlank : Bool := false
  deriving Repr

namespace Layout

/-- Code indented by four columns, without the blank lines after it. -/
def takeIndented (l : Line) (ls : List Line) : Taken :=
  let more := dropEndWhile Line.isBlank (ls.takeWhile fun k => k.isBlank || 4 ≤ k.indent)
  { layout := .code [] (endedLines ((l :: more).map fun k => (k.strip 4).text))
    rest := ls.drop more.length }

/-- Code up to the line that closes the fence `f`, or up to the end. -/
def takeFenced (f : Fence) (indent : Nat) (ls : List Line) : Taken :=
  let inside := ls.takeWhile fun k => !f.closedBy k
  { layout := .code f.info (endedLines (inside.map fun k => (k.strip indent).text))
    rest := (ls.dropWhile fun k => !f.closedBy k).drop 1 }

/-- Raw HTML up to a blank line. -/
def takeHtml (l : Line) (ls : List Line) : Taken :=
  let more := ls.takeWhile fun k => !k.isBlank
  { layout := .html (endedLines ((l :: more).map Line.text))
    rest := ls.dropWhile fun k => !k.isBlank }

/-- A paragraph, or the header that an underline makes of it. -/
def takeText (l : Line) (ls : List Line) : Taken :=
  let (more, level?, rest) := takeParagraph ls
  let text := trimEnd (List.intercalate ['\n'] (l.rest :: more))
  match level? with
  | some level => { layout := .header level text, rest }
  | none => { layout := .paragraph text, rest }

/-- A quote whose first line is `l`. -/
def takeQuote (l : Line) (ls : List Line) : Taken :=
  let first := l.unquoted
  let found := collect acceptQuoted (({} : OpenEnd).push first) ls
  { layout := .quote l.offset (first :: found.1), rest := found.2 }

/-- A list whose first marker `m` stands on `l`. -/
def takeList (m : Marker) (l : Line) (ls : List Line) : Taken :=
  let found := takeItems m l ls
  { layout := .list l.offset m found.items found.spaced
    rest := found.rest
    trailingBlank := found.trailingBlank }

/-- The block that starts with the line `l`, which is not blank. -/
def take (l : Line) (ls : List Line) : Taken :=
  if 4 ≤ l.indent then takeIndented l ls
  else
    match Fence.open? l.rest with
    | some f => takeFenced f l.indent ls
    | none =>
      match header? l.rest with
      | some (level, text) => { layout := .header level text, rest := ls }
      | none =>
        if l.rest.head? = some '>' then takeQuote l ls
        else if isRule l.rest then { layout := .rule, rest := ls }
        else
          match Marker.read? l with
          | some m => takeList m l ls
          | none => if opensHtml l.rest then takeHtml l ls else takeText l ls

/-! ## The lines left and the lines inside -/

theorem rest_take_suffix (l : Line) (ls : List Line) : (take l ls).rest <:+ ls := by
  unfold take
  split
  · exact List.drop_suffix _ _
  split
  · exact (List.drop_suffix _ _).trans (List.dropWhile_suffix _)
  split
  · exact List.suffix_refl _
  split
  · exact collect_suffix _ _ _
  split
  · exact List.suffix_refl _
  split
  · exact rest_takeItems_suffix _ _ _
  split
  · exact List.dropWhile_suffix _
  · unfold takeText
    dsimp only
    split <;> exact takeParagraph_suffix ls

theorem weight_le_of_suffix {ks ls : List Line} (h : ks <:+ ls) :
    Line.weight ks ≤ Line.weight ls := by
  obtain ⟨js, rfl⟩ := h
  simp

theorem weight_rest_lt (l : Line) (ls : List Line) :
    Line.weight (take l ls).rest < Line.weight (l :: ls) := by
  have := weight_le_of_suffix (rest_take_suffix l ls)
  simp only [Line.weight_cons]
  omega

theorem take_eq_quote {l : Line} {ls : List Line} {offset : Nat} {inner : List Line}
    (h : (take l ls).layout = .quote offset inner) :
    l.isQuoted ∧ offset = l.offset ∧
      inner = l.unquoted :: (collect acceptQuoted (({} : OpenEnd).push l.unquoted) ls).1 := by
  unfold take at h
  split at h
  · simp [takeIndented] at h
  next hi =>
  split at h
  · simp [takeFenced] at h
  split at h
  · simp at h
  split at h
  · next hq =>
    simp only [takeQuote, Layout.quote.injEq] at h
    exact ⟨by simp [Line.isQuoted, hq]; omega, h.1.symm, h.2.symm⟩
  split at h
  · simp at h
  split at h
  · simp [takeList] at h
  split at h
  · simp [takeHtml] at h
  · unfold takeText at h
    dsimp only at h
    split at h <;> simp at h

theorem take_eq_list {l : Line} {ls : List Line} {offset : Nat} {m : Marker}
    {items : List (List Line)} {spaced : Bool}
    (h : (take l ls).layout = .list offset m items spaced) :
    Marker.read? l = some m ∧ offset = l.offset ∧ items = (takeItems m l ls).items ∧
      spaced = (takeItems m l ls).spaced := by
  unfold take at h
  split at h
  · simp [takeIndented] at h
  split at h
  · simp [takeFenced] at h
  split at h
  · simp at h
  split at h
  · simp [takeQuote] at h
  split at h
  · simp at h
  split at h
  · next hm =>
    simp only [takeList, Layout.list.injEq] at h
    obtain ⟨h₁, rfl, h₃, h₄⟩ := h
    exact ⟨hm, h₁.symm, h₃.symm, h₄.symm⟩
  split at h
  · simp [takeHtml] at h
  · unfold takeText at h
    dsimp only at h
    split at h <;> simp at h

/-- The contents of a quote weigh less than the quote. -/
theorem weight_quote_lt {l : Line} {ls : List Line} {offset : Nat} {inner : List Line}
    (h : (take l ls).layout = .quote offset inner) :
    Line.weight inner < Line.weight (l :: ls) := by
  obtain ⟨hq, -, rfl⟩ := take_eq_quote h
  have h₁ := Line.length_unquoted_lt hq
  have h₂ := weight_collect_le length_acceptQuoted_le (({} : OpenEnd).push l.unquoted) ls
  simp only [Line.weight_cons]
  omega

/-- The contents of the items of a list, each counted as one more, weigh no more than the list. -/
theorem weight_list_le {l : Line} {ls : List Line} {offset : Nat} {m : Marker}
    {items : List (List Line)} {spaced : Bool}
    (h : (take l ls).layout = .list offset m items spaced) :
    itemsWeight items ≤ Line.weight (l :: ls) := by
  obtain ⟨hm, -, rfl, -⟩ := take_eq_list h
  have := weight_takeItems_le hm ls
  omega

end Layout

end MarkdownForest
