/-
# MarkdownForest.Proofs.SpacedItems -- items with blank lines between them

Items are written one below the other, each an escaped text behind its marker or
the marker alone, with or without a blank line between any two.

* `itemRow`: how each row is read: it begins an item, and no item takes it as
  part of its contents;
* `itemGroups`: the lists that come of it.  A blank line after an item without
  text is not taken by it, so the list ends there;
* `takeItems_rows`: one list is cut off, up to there;
* `parse_itemSource`: without blank lines all items are one tight list.  With them
  they are as many as the groups, a tight one for each item that is alone, and one
  loose list exactly when only the last item may be without text.
-/
import MarkdownForest.Proofs.EscapedLines
import MarkdownForest.Proofs.Nesting
import MarkdownForest.Proofs.SourceLines

namespace MarkdownForest

set_option autoImplicit false

open Text CommonMark Emphasis

/-! ## Markers behind an item -/

/-- An item does not take a line in front of its column that begins the next one, nor, while it has
no paragraph open, one that begins another list. -/
theorem acceptItem_marked {m n : Marker} {l : Line} {e : OpenEnd} (read : Marker.read? l = some n)
    (left : l.indent < m.width) (apart : m.sameList n ∨ e.inParagraph = false) :
    acceptItem m e l = none := by
  have filled : ¬ l.isBlank := Marker.not_isBlank_of_read? read
  rw [acceptItem, if_neg filled, if_neg (Nat.not_le.mpr left), read]
  rcases apart with same | closed
  · simp [same]
  · simp [closed]

/-! ## Rows -/

/-- An item's row: its text escaped behind the marker, or the marker alone. -/
def itemRow (t : List Char) : List Char :=
  if t.isEmpty then ['-'] else '-' :: ' ' :: escapeLineStart t

/-- What stands on the row behind the marker. -/
def itemText (t : List Char) : List Char :=
  if t.isEmpty then [] else escapeLineStart t

/-- The marker that is read from the row. -/
def rowMarker (t : List Char) : Marker where
  type := .bullet
  delimiter := '-'
  start := 1
  width := 2
  empty := t.isEmpty

/-- The text of an item: nothing, or a trimmed text without line feeds. -/
def IsItemText (t : List Char) : Prop :=
  t = [] ∨ Line.Trimmed t

section Row

variable {t : List Char} {l : Line}

theorem IsItemText.cases (h : IsItemText t) :
    (t = [] ∧ itemRow t = ['-'] ∧ itemText t = []) ∨
      (Line.Trimmed t ∧ t.isEmpty = false ∧ itemRow t = '-' :: ' ' :: escapeLineStart t ∧
        itemText t = escapeLineStart t ∧ Line.GoesOn (escapeLineStart t)) := by
  rcases h with rfl | h
  · exact .inl ⟨rfl, rfl, rfl⟩
  · have filled : t.isEmpty = false := by simpa using h.ne_nil
    refine .inr ⟨h, filled, ?_, ?_, Line.goesOn_escapeLineStart h⟩
    · rw [itemRow, filled]
      rfl
    · rw [itemText, filled]
      rfl

theorem rest_itemRow (here : l.text = itemRow t) : l.rest = itemRow t ∧ l.indent = 0 := by
  obtain ⟨text, offset⟩ := l
  obtain rfl : text = itemRow t := here
  unfold itemRow
  split
  · exact ⟨rfl, rfl⟩
  · exact ⟨Line.rest_of_first (by decide), Line.indent_of_first (by decide)⟩

/-- A row begins an item. -/
theorem read?_itemRow (h : IsItemText t) (here : l.text = itemRow t) :
    Marker.read? l = some (rowMarker t) := by
  obtain ⟨rest, indent⟩ := rest_itemRow here
  rw [Marker.read?, rest, indent]
  rcases h.cases with ⟨rfl, row, -⟩ | ⟨-, filled, row, -, goesOn⟩
  · rw [row]
    decide
  · obtain ⟨c, s, e, hc⟩ := goesOn.trimmed.first
    have space : c ≠ ' ' := ne_of_class hc (by decide)
    rw [row, e]
    simp [Marker.head?, runLength, space, Text.isBlank, hc, rowMarker, filled]

/-- A row is no rule. -/
theorem isRule_itemRow (h : IsItemText t) : isRule (itemRow t) = false := by
  rcases h.cases with ⟨-, row, -⟩ | ⟨-, -, row, -, goesOn⟩
  · rw [row]
    decide
  · obtain ⟨c, s, e, hc⟩ := goesOn.inert.first
    have apart : ∀ m, Line.isInert m = false → c ≠ m := fun m hm => ne_of_class hc hm
    rw [row, e]
    exact Line.isRule_of_mem (d := c) (by simp) ⟨apart ' ' (by decide), apart '\t' (by decide),
      apart '*' (by decide), apart '-' (by decide), apart '_' (by decide)⟩

/-- A row begins a list. -/
theorem take_itemRow (h : IsItemText t) (here : l.text = itemRow t) (ls : List Line) :
    Layout.take l ls = Layout.takeList (rowMarker t) l ls := by
  obtain ⟨rest, indent⟩ := rest_itemRow here
  have read := read?_itemRow h here
  have noRule : isRule l.rest = false := rest ▸ isRule_itemRow h
  have dash : ∃ s, l.rest = '-' :: s := by
    rw [rest, itemRow]
    split
    · exact ⟨_, rfl⟩
    · exact ⟨_, rfl⟩
  obtain ⟨s, dash⟩ := dash
  rw [Layout.take, indent, if_neg (by decide), dash, Line.open?_of_first (by decide) (by decide)]
  dsimp only
  rw [Line.header?_of_first (by decide)]
  dsimp only
  rw [if_neg (by simp), ← dash, noRule, read]
  rfl

/-- No item takes the row of another one as part of its contents. -/
theorem acceptItem_itemRow (h : IsItemText t) (here : l.text = itemRow t) (u : List Char)
    (e : OpenEnd) : acceptItem (rowMarker u) e l = none := by
  obtain ⟨-, indent⟩ := rest_itemRow here
  have left : l.indent < (rowMarker u).width := by
    rw [indent]
    exact Nat.two_pos
  exact acceptItem_marked (read?_itemRow h here) left (.inl rfl)

/-- The item of a row goes on in the list of another row. -/
theorem nextItem?_itemRow (h : IsItemText t) (here : l.text = itemRow t) (u : List Char)
    (ls : List Line) : nextItem? (rowMarker u) (l :: ls) = some (rowMarker t, l, ls) := by
  obtain ⟨rest, -⟩ := rest_itemRow here
  rw [nextItem?, read?_itemRow h here, rest, isRule_itemRow h]
  rfl

theorem text_tail_itemRow (here : l.text = itemRow t) :
    (l.tail (rowMarker t).width).text = itemText t := by
  show l.text.drop 2 = itemText t
  rw [here, itemRow, itemText]
  split
  · rfl
  · rfl

end Row

/-! ## Rows below each other -/

/-- The rows below a first one, each behind a blank line or not. -/
def rowsBelow (spaced : Bool) (ts : List (List Char)) : List (List Char) :=
  ts.flatMap fun t => if spaced then [[], itemRow t] else [itemRow t]

/-- The items of each list.  A blank line behind an item without text ends the list. -/
def itemGroups (spaced : Bool) : List (List Char) → List (List (List Char))
  | [] => []
  | t :: ts =>
    match itemGroups spaced ts with
    | [] => [[t]]
    | g :: gs => if spaced && t.isEmpty then [t] :: g :: gs else (t :: g) :: gs

section Groups

variable {spaced : Bool} {t : List Char} {ts g : List (List Char)} {gs : List (List (List Char))}

/-- An item is the first of a group: alone, or in front of the group that comes next. -/
theorem itemGroups_cons (spaced : Bool) (t : List Char) (ts : List (List Char)) :
    (ts = [] ∧ itemGroups spaced (t :: ts) = [[t]]) ∨
      ∃ u g gs, ts = u :: (g ++ gs.flatten) ∧ itemGroups spaced ts = (u :: g) :: gs ∧
        itemGroups spaced (t :: ts) =
          if spaced && t.isEmpty then [t] :: (u :: g) :: gs else (t :: u :: g) :: gs := by
  induction ts generalizing t with
  | nil => exact .inl ⟨rfl, rfl⟩
  | cons u ts ih =>
    right
    rcases ih u with ⟨rfl, alone⟩ | ⟨v, g, gs, split, -, groups⟩
    · refine ⟨u, [], [], rfl, alone, ?_⟩
      rw [itemGroups, alone]
    · by_cases cut : (spaced && u.isEmpty) = true
      · rw [if_pos cut] at groups
        refine ⟨u, [], (v :: g) :: gs, by simpa using split, groups, ?_⟩
        rw [itemGroups, groups]
      · rw [if_neg cut] at groups
        refine ⟨u, v :: g, gs, by simpa using split, groups, ?_⟩
        rw [itemGroups, groups]

/-- The groups are all items, in their order. -/
theorem flatten_itemGroups (spaced : Bool) (ts : List (List Char)) :
    (itemGroups spaced ts).flatten = ts := by
  induction ts with
  | nil => rfl
  | cons t ts ih =>
    rcases itemGroups_cons spaced t ts with ⟨rfl, alone⟩ | ⟨u, g, gs, -, groups, all⟩
    · rw [alone]
      rfl
    · rw [groups] at ih
      rw [all, ← ih]
      split
      · rfl
      · rfl

/-- All items are one list exactly when no blank line stands behind one without text. -/
theorem itemGroups_eq_singleton (filled : ts ≠ []) :
    itemGroups spaced ts = [ts] ↔ (spaced → ∀ t ∈ ts.dropLast, t ≠ []) := by
  induction ts with
  | nil => exact absurd rfl filled
  | cons t ts ih =>
    rcases itemGroups_cons spaced t ts with ⟨rfl, alone⟩ | ⟨u, g, gs, split, groups, all⟩
    · rw [alone]
      simp
    · have more : ts ≠ [] := by simp [split]
      rw [groups] at ih
      rw [all, List.dropLast_cons_of_ne_nil more, List.forall_mem_cons]
      by_cases cut : (spaced && t.isEmpty) = true
      · rw [if_pos cut]
        rw [Bool.and_eq_true, List.isEmpty_iff] at cut
        simp [cut, more.symm]
      · rw [if_neg cut]
        have kept : spaced → t ≠ [] := by simpa using cut
        have same : (t :: u :: g) :: gs = [t :: ts] ↔ (u :: g) :: gs = [ts] := by simp
        rw [same, ih more]
        exact ⟨fun h open' => ⟨kept open', h open'⟩, fun h open' => (h open').2⟩

/-- What is left behind the first group is the items of the others. -/
theorem itemGroups_left (h : itemGroups spaced ts = g :: gs) :
    itemGroups spaced gs.flatten = gs := by
  induction ts generalizing g with
  | nil => cases h
  | cons t ts ih =>
    rcases itemGroups_cons spaced t ts with ⟨rfl, alone⟩ | ⟨u, g', gs', split, groups, all⟩
    · rw [alone] at h
      obtain ⟨-, rfl⟩ := List.cons.inj h
      rfl
    · rw [all] at h
      by_cases cut : (spaced && t.isEmpty) = true
      · rw [if_pos cut] at h
        obtain ⟨-, rfl⟩ := List.cons.inj h
        rw [List.flatten_cons, List.cons_append, ← split, groups]
      · rw [if_neg cut] at h
        obtain ⟨-, rfl⟩ := List.cons.inj h
        exact ih groups

end Groups

/-! ## Lists -/

section Take

variable {m : Marker} {l b : Line} {ls : List Line}

/-- An item in front of a line that it does not take is its first line. -/
theorem takeItem_refused
    (refused : ∀ k ∈ ls.head?, ∀ e : OpenEnd, e.count = 1 → acceptItem m e k = none) :
    takeItem m l ls = ⟨[l.tail m.width], ls, false⟩ := by
  have counted : (({} : OpenEnd).push (l.tail m.width)).count = 1 := by
    unfold OpenEnd.push
    dsimp only
    repeat' split
    all_goals rfl
  unfold takeItem
  cases ls with
  | nil => rfl
  | cons k ls =>
    simp only [collect, refused k rfl _ counted]
    rfl

/-- A blank line that an item takes is cut off again, and reported.  Behind it no paragraph is
open. -/
theorem takeItem_blank (blank : b.isBlank) (text : m.empty = false)
    (refused : ∀ k ∈ ls.head?, ∀ e : OpenEnd, e.inParagraph = false → acceptItem m e k = none) :
    takeItem m l (b :: ls) = ⟨[l.tail m.width], ls, true⟩ := by
  have taken : ∀ e, acceptItem m e b = some b.emptied := by
    intro e
    rw [acceptItem, if_pos blank, text]
    rfl
  have ended : ∀ e : OpenEnd, collect (acceptItem m) (e.push b.emptied) ls = ([], ls) := by
    intro e
    cases ls with
    | nil => rfl
    | cons k ls =>
      have closed := inParagraph_blank (k := b.emptied) rfl e
      simp only [collect, refused k rfl _ closed]
  unfold takeItem
  simp only [collect, taken, ended]
  rfl

/-- Below an item without text a blank line is left. -/
theorem acceptItem_empty (blank : b.isBlank) (empty : m.empty) {e : OpenEnd} (first : e.count = 1) :
    acceptItem m e b = none := by
  rw [acceptItem, if_pos blank, empty, first]
  rfl

end Take

/-- The items of a list are the rows of a group, and the rest the rows below it. -/
structure TakesGroup (spaced : Bool) (g : List (List Char)) (gs : List (List (List Char)))
    (taken : ListLines) : Prop where
  items : taken.items.map (List.map Line.text) = g.map fun t => [itemText t]
  rest : taken.rest.map Line.text = rowsBelow spaced gs.flatten
  spaced : taken.spaced = (spaced && decide (1 < g.length))
  trailingBlank : taken.trailingBlank = false

section Rows

variable {spaced : Bool} {t u : List Char} {ts g : List (List Char)}
  {gs : List (List (List Char))} {l k : Line} {ls ks : List Line}

/-- An item in front of those of a group. -/
theorem TakesGroup.cons (here : l.text = itemRow t)
    (item : takeItem (rowMarker t) l ls = ⟨[l.tail (rowMarker t).width], k :: ks, spaced⟩)
    (next : nextItem? (rowMarker t) (k :: ks) = some (rowMarker u, k, ks))
    (h : TakesGroup spaced (u :: g) gs (takeItems (rowMarker u) k ks)) :
    TakesGroup spaced (t :: u :: g) gs (takeItems (rowMarker t) l ls) := by
  have goesOn : nextItem? (rowMarker t) (takeItem (rowMarker t) l ls).rest =
      some (rowMarker u, k, ks) := by
    rw [item]
    exact next
  rw [takeItems_some goesOn, item]
  constructor
  · simp [h.items, text_tail_itemRow here]
  · exact h.rest
  · cases spaced <;> simp [h.spaced]
  · exact h.trailingBlank

/-- The last item of a group. -/
theorem TakesGroup.last (here : l.text = itemRow t)
    (item : takeItem (rowMarker t) l ls = ⟨[l.tail (rowMarker t).width], ls, false⟩)
    (ends : nextItem? (rowMarker t) ls = none)
    (below : ls.map Line.text = rowsBelow spaced gs.flatten) :
    TakesGroup spaced [t] gs (takeItems (rowMarker t) l ls) := by
  have none : nextItem? (rowMarker t) (takeItem (rowMarker t) l ls).rest = none := by
    rw [item]
    exact ends
  rw [takeItems_none none, item]
  constructor
  · simp [text_tail_itemRow here]
  · exact below
  · simp
  · rfl

/-- One list takes the rows of one group. -/
theorem takeItems_rows (items : ∀ u ∈ t :: ts, IsItemText u) (here : l.text = itemRow t)
    (below : ls.map Line.text = rowsBelow spaced ts)
    (groups : itemGroups spaced (t :: ts) = g :: gs) :
    TakesGroup spaced g gs (takeItems (rowMarker t) l ls) := by
  induction ts generalizing t l ls g with
  | nil =>
    obtain rfl := List.map_eq_nil_iff.mp below
    obtain ⟨rfl, rfl⟩ := List.cons.inj groups
    exact .last here (takeItem_refused nofun) rfl rfl
  | cons u us ih =>
    obtain ⟨-, more⟩ := List.forall_mem_cons.mp items
    obtain ⟨next, -⟩ := List.forall_mem_cons.mp more
    rcases itemGroups_cons spaced t (u :: us) with ⟨none, -⟩ | ⟨v, g', gs', split, inner, all⟩
    · cases none
    obtain ⟨rfl, split⟩ := List.cons.inj split
    rw [all] at groups
    cases spaced with
    | false =>
      obtain ⟨rfl, rfl⟩ := List.cons.inj groups
      obtain ⟨k, ks, rfl, row, below⟩ := List.map_eq_cons_iff.mp below
      have refused : ∀ e, acceptItem (rowMarker t) e k = none := acceptItem_itemRow next row t
      refine .cons here (takeItem_refused ?_) (nextItem?_itemRow next row t ks)
        (ih more row below inner)
      intro k' hk' e _
      obtain rfl := Option.some.inj hk'
      exact refused e
    | true =>
      obtain ⟨b, bs, rfl, blank, behind⟩ := List.map_eq_cons_iff.mp below
      obtain ⟨k, ks, rfl, row, behind⟩ := List.map_eq_cons_iff.mp behind
      have isBlank : b.isBlank := by
        rw [Line.isBlank, blank]
        rfl
      cases empty : t.isEmpty with
      | true =>
        -- the blank line is left, and no marker stands on it
        rw [empty] at groups
        obtain ⟨rfl, rfl⟩ := List.cons.inj groups
        have unmarked : Marker.read? b = none := by
          rw [Option.eq_none_iff_forall_not_mem]
          intro m read
          exact Marker.not_isBlank_of_read? read isBlank
        refine .last here (takeItem_refused ?_) ?_ ?_
        · intro b' hb' e first
          obtain rfl := Option.some.inj hb'
          exact acceptItem_empty isBlank empty first
        · rw [nextItem?, unmarked]
        · rw [below, List.flatten_cons, List.cons_append, ← split]
      | false =>
        rw [empty] at groups
        obtain ⟨rfl, rfl⟩ := List.cons.inj groups
        refine .cons here (takeItem_blank isBlank empty ?_) (nextItem?_itemRow next row t ks)
          (ih more row behind inner)
        intro k' hk' e _
        obtain rfl := Option.some.inj hk'
        exact acceptItem_itemRow next row t e

end Rows

/-! ## Trees -/

/-- An item with the text of a row. -/
def itemTree (smart : Bool) (t : List Char) : Tree :=
  .node .item <|
    if t.isEmpty then []
    else [.node .paragraph [.leaf (.text (String.ofList (if smart then smarten t else t)))]]

/-- A list with the items of a group. -/
def groupTree (smart spaced : Bool) (g : List (List Char)) : Tree :=
  .node (.list .bullet 1 (!(spaced && decide (1 < g.length)))) (g.map (itemTree smart))

section Trees

variable {o : ParseOptions} {t : List Char}

/-- The one line of an item becomes its contents. -/
theorem parseBlocks_itemText (depth : Nat) (h : IsItemText t) {l : Line}
    (here : l.text = itemText t) :
    parseBlocks o depth false false [l] = { trees := (itemTree o.smart t).children } := by
  rcases h.cases with ⟨rfl, -, text⟩ | ⟨trimmed, filled, -, text, goesOn⟩
  · have blank : l.isBlank := by
      rw [Line.isBlank, here, text]
      rfl
    rw [parseBlocks_blank blank, parseBlocks_nil]
    rfl
  · rw [text] at here
    have lines : ∀ k ∈ [l], Line.GoesOn k.text := by
      intro k hk
      rw [List.mem_singleton.mp hk, here]
      exact goesOn
    have nothing : ∀ k ∈ ([] : List Line).head?, k.isBlank := by simp
    have taken := Line.take_goesOn lines nothing
    rw [List.append_nil] at taken
    have notBlank : ¬ l.isBlank := by
      rw [Line.isBlank, here]
      exact goesOn.trimmed.not_blank 0
    rw [parseBlocks_cons [] notBlank, taken, parseBlocks_nil]
    simp only [List.map_cons, List.map_nil, List.intercalate_singleton, here]
    rw [blockThen_leaf (by simp [Layout.kind]), Layout.leafTree,
      inlineTrees_of_escapes o.smart (escapes_escapeLineStart t) trimmed, itemTree, filled]
    rfl

theorem parseItems_rows (depth : Nat) {g : List (List Char)} {items : List (List Line)}
    (h : ∀ t ∈ g, IsItemText t)
    (rows : items.map (List.map Line.text) = g.map fun t => [itemText t]) :
    parseItems o depth items = { trees := g.map (itemTree o.smart) } := by
  induction g generalizing items with
  | nil =>
    obtain rfl := List.map_eq_nil_iff.mp rows
    rw [parseItems]
    rfl
  | cons t g ih =>
    obtain ⟨here, more⟩ := List.forall_mem_cons.mp h
    obtain ⟨item, items, rfl, row, below⟩ := List.map_eq_cons_iff.mp rows
    obtain ⟨l, none, rfl, text, left⟩ := List.map_eq_cons_iff.mp row
    obtain rfl := List.map_eq_nil_iff.mp left
    rw [parseItems, parseBlocks_itemText depth here text, ih more below]
    rfl

/-- The rows of each group become a list. -/
theorem parseBlocks_rows (room : 0 < o.maxNesting) {spaced : Bool} {gs : List (List (List Char))}
    {ts : List (List Char)} (items : ∀ u ∈ t :: ts, IsItemText u) {l : Line} {ls : List Line}
    (here : l.text = itemRow t) (below : ls.map Line.text = rowsBelow spaced ts)
    (groups : itemGroups spaced (t :: ts) = gs) (any blank : Bool) :
    (parseBlocks o 0 any blank (l :: ls)).trees = gs.map (groupTree o.smart spaced) ∧
      (parseBlocks o 0 any blank (l :: ls)).failure = none := by
  induction gs generalizing t ts l ls any blank with
  | nil =>
    have all := flatten_itemGroups spaced (t :: ts)
    rw [groups] at all
    cases all
  | cons g gs ih =>
    have all := flatten_itemGroups spaced (t :: ts)
    rw [groups, List.flatten_cons] at all
    have inGroup : ∀ u ∈ g, IsItemText u := fun u hu =>
      items u (all ▸ List.mem_append_left _ hu)
    obtain ⟨first, -⟩ := List.forall_mem_cons.mp items
    obtain ⟨taken, rest, apart, trailing⟩ := takeItems_rows items here below groups
    have more : ∀ any blank,
        (parseBlocks o 0 any blank (takeItems (rowMarker t) l ls).rest).trees =
            gs.map (groupTree o.smart spaced) ∧
          (parseBlocks o 0 any blank (takeItems (rowMarker t) l ls).rest).failure = none := by
      intro any blank
      have left := itemGroups_left groups
      generalize (takeItems (rowMarker t) l ls).rest = ks at rest
      cases split : gs.flatten with
      | nil =>
        rw [split] at rest left
        obtain rfl := List.map_eq_nil_iff.mp rest
        rw [parseBlocks_nil, ← left]
        exact ⟨rfl, rfl⟩
      | cons u us =>
        rw [split] at rest left
        have outside : ∀ v ∈ u :: us, IsItemText v := fun v hv =>
          items v (all ▸ List.mem_append_right _ (split ▸ hv))
        cases spaced with
        | false =>
          obtain ⟨k, ks, rfl, row, behind⟩ := List.map_eq_cons_iff.mp rest
          exact ih outside row behind left any blank
        | true =>
          obtain ⟨b, bs, rfl, empty, behind⟩ := List.map_eq_cons_iff.mp rest
          obtain ⟨k, ks, rfl, row, behind⟩ := List.map_eq_cons_iff.mp behind
          have isBlank : b.isBlank := by
            rw [Line.isBlank, empty]
            rfl
          rw [parseBlocks_blank isBlank]
          exact ih outside row behind left any true
    rw [parseBlocks_cons ls (Marker.not_isBlank_of_read? (read?_itemRow first here)),
      take_itemRow first here, Layout.takeList]
    dsimp only
    rw [blockThen, if_neg (Nat.not_le.mpr room), parseItems_rows 1 inGroup taken, apart]
    obtain ⟨trees, whole⟩ := more true (takeItems (rowMarker t) l ls).trailingBlank
    generalize parseBlocks o 0 true _ (takeItems (rowMarker t) l ls).rest = after at trees whole
    constructor
    · simp [Parsed.within, Parsed.cons, trees, groupTree, rowMarker]
    · exact whole

end Trees

/-! ## Sources -/

/-- The rows of items, with a blank line between any two or none. -/
def itemSource (spaced : Bool) (ts : List (List Char)) : List Char :=
  List.intercalate (if spaced then ['\n', '\n'] else ['\n']) (ts.map itemRow)

section Source

variable {spaced : Bool} {t : List Char} {ts : List (List Char)}

theorem verbatim_itemRow (h : IsItemText t) : Line.Verbatim (itemRow t) := by
  rcases h.cases with ⟨-, row, -⟩ | ⟨-, -, row, -, goesOn⟩
  · rw [row]
    decide
  · obtain ⟨c, s, e, space⟩ := goesOn.trimmed.last
    rw [row]
    refine ⟨?_, ?_, ?_⟩
    · simp [goesOn.trimmed.oneLine]
    · simp
    · have last : ('-' :: ' ' :: escapeLineStart t).getLast? = some c := by
        rw [e, ← List.cons_append, ← List.cons_append, List.getLast?_concat]
      rw [last]
      intro carriage
      rw [Option.some.inj carriage] at space
      exact absurd space (by decide)

theorem verbatim_rowsBelow (items : ∀ u ∈ ts, IsItemText u) :
    ∀ row ∈ rowsBelow spaced ts, Line.Verbatim row := by
  intro row mem
  obtain ⟨u, hu, mem⟩ := List.mem_flatMap.mp mem
  have empty : Line.Verbatim [] := by decide
  cases spaced with
  | false => exact List.mem_singleton.mp mem ▸ verbatim_itemRow (items u hu)
  | true =>
    rcases List.mem_cons.mp mem with rfl | mem
    · exact empty
    · exact List.mem_singleton.mp mem ▸ verbatim_itemRow (items u hu)

/-- A source of items has a line for each row, and one for each blank line between them. -/
theorem itemSource_cons (spaced : Bool) (t : List Char) (ts : List (List Char)) :
    itemSource spaced (t :: ts) =
      List.intercalate ['\n'] (itemRow t :: rowsBelow spaced ts) := by
  induction ts generalizing t with
  | nil => simp [itemSource, rowsBelow]
  | cons u us ih =>
    have first : itemSource spaced (t :: u :: us) =
        itemRow t ++ (if spaced then ['\n', '\n'] else ['\n']) ++ itemSource spaced (u :: us) := by
      simp [itemSource, List.intercalate_cons_cons]
    have below : rowsBelow spaced (u :: us) =
        (if spaced then [[], itemRow u] else [itemRow u]) ++ rowsBelow spaced us :=
      List.flatMap_cons
    rw [first, ih u, below]
    cases spaced <;> simp [List.intercalate_cons_cons]

theorem text_ofSource_items (items : ∀ u ∈ t :: ts, IsItemText u) :
    (Line.ofSource (itemSource spaced (t :: ts))).map Line.text =
      itemRow t :: rowsBelow spaced ts := by
  obtain ⟨here, below⟩ := List.forall_mem_cons.mp items
  have rows : ∀ row ∈ itemRow t :: rowsBelow spaced ts, Line.Verbatim row :=
    List.forall_mem_cons.mpr ⟨verbatim_itemRow here, verbatim_rowsBelow below⟩
  rw [Line.ofSource, itemSource_cons, List.splitOn_intercalate _ (fun row h => (rows row h).oneLine)
    (List.cons_ne_nil _ _)]
  exact Line.map_text_number rows 0

/-- The document of the rows has a list for each group. -/
theorem parse_groups {o : ParseOptions} (room : 0 < o.maxNesting)
    (items : ∀ u ∈ t :: ts, IsItemText u) :
    parse o (String.ofList (itemSource spaced (t :: ts))) =
      .ok (.node .document ((itemGroups spaced (t :: ts)).map (groupTree o.smart spaced))) := by
  have rows : (Line.ofSource (itemSource spaced (t :: ts))).map Line.text =
      itemRow t :: rowsBelow spaced ts :=
    text_ofSource_items items
  obtain ⟨l, ls, lines, here, below⟩ := List.map_eq_cons_iff.mp rows
  obtain ⟨trees, whole⟩ := parseBlocks_rows room items here below rfl false false
  refine parse_eq_ok.mpr ⟨?_, ?_⟩
  · rw [String.toList_ofList, readSource, lines]
    exact whole
  · rw [String.toList_ofList, readSource, lines, trees]

end Source

/-- Items that are written one below the other are a tight list.  With a blank line between any two,
an item without text is the last of its list, the items below it are another one, and only a list of
one item is tight; so all items are one list, a loose one, exactly when no item but the last is
without text.  The items hold the same in both, in the same order. -/
theorem parse_itemSource {o : ParseOptions} (room : 0 < o.maxNesting) {ts : List (List Char)}
    (filled : ts ≠ []) (items : ∀ t ∈ ts, IsItemText t) :
    parse o (String.ofList (itemSource false ts)) =
        .ok (.node .document [.node (.list .bullet 1 true) (ts.map (itemTree o.smart))]) ∧
      parse o (String.ofList (itemSource true ts)) =
        .ok (.node .document ((itemGroups true ts).map fun g =>
          .node (.list .bullet 1 (decide (g.length ≤ 1))) (g.map (itemTree o.smart)))) ∧
      (itemGroups true ts).flatten = ts ∧
      (itemGroups true ts = [ts] ↔ ∀ t ∈ ts.dropLast, t ≠ []) := by
  obtain ⟨t, ts, rfl⟩ := List.exists_cons_of_ne_nil filled
  refine ⟨?_, ?_, flatten_itemGroups true _, ?_⟩
  · have one : itemGroups false (t :: ts) = [t :: ts] := (itemGroups_eq_singleton filled).mpr nofun
    rw [parse_groups room items, one]
    rfl
  · rw [parse_groups room items]
    have tight : ∀ g : List (List Char),
        groupTree o.smart true g =
          .node (.list .bullet 1 (decide (g.length ≤ 1))) (g.map (itemTree o.smart)) := by
      intro g
      have same : (!(true && decide (1 < g.length))) = decide (g.length ≤ 1) := by
        by_cases one : g.length ≤ 1
        · simp [one]
        · simp [one, Nat.lt_of_not_le one]
      rw [groupTree, same]
    exact congrArg (fun f => Except.ok (Tree.node .document ((itemGroups true (t :: ts)).map f)))
      (funext tight)
  · rw [itemGroups_eq_singleton filled]
    exact ⟨fun h => h rfl, fun h _ => h⟩

/-- Items that look like numbered ones, rules and headers, and two without text. -/
def mixedItems : List (List Char) :=
  ["1. a's".toList, [], "- *b*!".toList, "# c".toList, []]

theorem parse_itemSource_mixed :
    0 < ({ smart := true } : ParseOptions).maxNesting ∧ mixedItems ≠ [] ∧
      (∀ t ∈ mixedItems, IsItemText t) ∧
      itemSource true mixedItems =
        "- 1\\. a's\n\n-\n\n- \\- \\*b\\*\\!\n\n- \\# c\n\n-".toList ∧
      parse { smart := true } (String.ofList (itemSource true mixedItems)) =
        .ok (.node .document
          [.node (.list .bullet 1 false) [itemTree true "1. a's".toList, itemTree true []],
            .node (.list .bullet 1 false)
              [itemTree true "- *b*!".toList, itemTree true "# c".toList, itemTree true []]]) := by
  have items : ∀ t ∈ mixedItems, IsItemText t := by
    unfold mixedItems IsItemText
    decide
  obtain ⟨-, loose, -, -⟩ := parse_itemSource (o := { smart := true }) (by decide) (by decide) items
  exact ⟨by decide, by decide, items, by decide, loose⟩

/-- The blank line behind an item without text ends the list. -/
theorem parse_emptyItem :
    parse {} "-\n\n- b" = .ok (.node .document
        [.node (.list .bullet 1 true) [.node .item []],
          .node (.list .bullet 1 true) [.node .item [.node .paragraph [.leaf (.text "b")]]]]) ∧
      ¬ ∀ ts : List (List Char), 2 ≤ ts.length → (∀ t ∈ ts, IsItemText t) →
        parse {} (String.ofList (itemSource true ts)) =
          .ok (.node .document [.node (.list .bullet 1 false) (ts.map (itemTree false))]) := by
  have read : parse {} "-\n\n- b" = .ok (.node .document
      [.node (.list .bullet 1 true) [.node .item []],
        .node (.list .bullet 1 true) [.node .item [.node .paragraph [.leaf (.text "b")]]]]) := by
    decide +kernel
  refine ⟨read, fun one => ?_⟩
  have items : ∀ t ∈ [[], "b".toList], IsItemText t := by
    unfold IsItemText
    decide
  have written : String.ofList (itemSource true [[], "b".toList]) = "-\n\n- b" := by decide
  have whole := one [[], "b".toList] (by decide) items
  rw [written, read] at whole
  revert whole
  decide

end MarkdownForest
