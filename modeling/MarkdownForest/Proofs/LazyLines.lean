/-
# MarkdownForest.Proofs.LazyLines -- a line without markers behind lines

A line that begins in the first column and opens no block is lazy (`Line.Lazy`).
Behind lines all of which belong to their last block it does one of two things.
Either it stands apart, and begins a block of its own, or the block takes it:

* a quote takes it if the lines of its contents leave a paragraph open
  (`Layout.take_quote_lazy`);
* a list takes it with its last item, if the lines of that do, or as one more item
  (`Layout.take_list_lazy`);
* a paragraph takes it as its last line or as its underline, and a header never
  does (`Layout.take_paragraph_lazy`, `Layout.take_header_lazy`).

Whether a paragraph is open is what the lines of the contents say one by one
(`endsInParagraph`), and this is not always what the reading makes of them.
-/
import MarkdownForest.Proofs.FollowingLines

namespace MarkdownForest

set_option autoImplicit false

open Text

/-! ## Lazy lines -/

/-- A line that begins in the first column and opens no block that ends a paragraph. -/
structure Line.Lazy (b : Line) : Prop where
  filled : ¬ b.isBlank
  flush : b.indent = 0
  opens : startsBlock b = false

namespace Line.Lazy

variable {b : Line}

theorem shallow (h : b.Lazy) : b.indent < 4 := by
  rw [h.flush]
  decide

theorem strip_eq (h : b.Lazy) : b.strip b.indent = b := by
  have whole : b.tail 0 = b := by
    simp [tail]
  rw [strip, h.flush]
  exact whole

theorem not_deep (h : b.Lazy) : Layout.isDeep b = false := by
  simp [Layout.isDeep, h.filled, Nat.not_le.mpr h.shallow]

theorem not_isQuoted (h : b.Lazy) : b.isQuoted = false := by
  have opens := h.opens
  have shallow := h.shallow
  simp only [startsBlock, shallow, decide_true, Bool.true_and, Bool.or_eq_false_iff] at opens
  rw [isQuoted, opens.1.1.2, Bool.and_false]

/-- Quotes take a lazy line exactly when they have a paragraph open. -/
theorem acceptQuoted (h : b.Lazy) (e : OpenEnd) :
    acceptQuoted e b = if e.inParagraph then some b else none := by
  rw [MarkdownForest.acceptQuoted, h.not_isQuoted, h.opens, h.strip_eq]
  simp [h.filled]

/-- Items take it if it has no marker that goes on with their list. -/
theorem acceptItem (h : b.Lazy) {m : Marker} (wide : 0 < m.width) (e : OpenEnd) :
    acceptItem m e b =
      if e.inParagraph ∧ ¬ (Marker.read? b).any (m.sameList ·) then some b else none := by
  have narrow : ¬ m.width ≤ b.indent := by
    rw [h.flush]
    omega
  rw [MarkdownForest.acceptItem, if_neg h.filled, if_neg narrow, h.opens, h.strip_eq]
  by_cases same : (Marker.read? b).any (m.sameList ·)
  · simp [same]
  · simp [same]

end Line.Lazy

/-! ## Loops -/

section Loops

variable {b l : Line} {ls : List Line} {m : Marker}

theorem collect_lazy {accept : OpenEnd → Line → Option Line} (e : OpenEnd)
    (all : (collect accept e ls).2 = []) :
    collect accept e (ls ++ [b]) =
      match accept ((collect accept e ls).1.foldl OpenEnd.push e) b with
      | none => ((collect accept e ls).1, [b])
      | some k => ((collect accept e ls).1 ++ [k], []) := by
  rw [collect_goesOn accept e ls [b] all]
  simp only [collect]
  cases accept ((collect accept e ls).1.foldl OpenEnd.push e) b with
  | none => simp
  | some k => rfl

/-- A quote that took all lines takes a lazy one if its contents leave a paragraph open. -/
theorem takeQuote_lazy (hb : b.Lazy) (all : (Layout.takeQuote l ls).rest = []) :
    ∃ inner, (Layout.takeQuote l ls).layout = .quote l.offset inner ∧
      Layout.takeQuote l (ls ++ [b]) =
        if endsInParagraph inner then { layout := .quote l.offset (inner ++ [b]), rest := [] }
        else { Layout.takeQuote l ls with rest := [b] } := by
  refine ⟨_, rfl, ?_⟩
  simp only [Layout.takeQuote, collect_lazy _ all, hb.acceptQuoted, endsInParagraph,
    List.foldl_cons]
  by_cases paragraph : ((collect acceptQuoted (({} : OpenEnd).push l.unquoted) ls).1.foldl
      OpenEnd.push (({} : OpenEnd).push l.unquoted)).inParagraph
  · simp [paragraph]
  · simp [paragraph]

theorem dropEndWhile_filled {ks : List Line} (hb : ¬ b.isBlank) :
    dropEndWhile Line.isBlank (ks ++ [b]) = ks ++ [b] :=
  dropEndWhile_eq_self (by simpa using hb)

/-- Blank lines are cut off, or the last line is not blank. -/
theorem dropEndWhile_blank_cases (ks : List Line) :
    dropEndWhile Line.isBlank ks = ks ∨
      (dropEndWhile Line.isBlank ks).length < ks.length ∧
        ∃ front k, ks = front ++ [k] ∧ k.isBlank := by
  cases last : ks.getLast?.any Line.isBlank with
  | false => exact .inl (dropEndWhile_eq_self last)
  | true =>
    have shorter := length_dropEndWhile_lt Line.isBlank ks
    rw [last, decide_eq_true_iff] at shorter
    obtain ⟨k, ends, blank⟩ := (Option.any_eq_true _ _).mp last
    obtain ⟨front, split⟩ := List.getLast?_eq_some_iff.mp ends
    exact .inr ⟨shorter, front, k, split, blank⟩

/-- What an item is whose first line is `first` and whose further lines were found. -/
def itemOf (first : Line) (found : List Line × List Line) : ItemLines where
  lines := first :: dropEndWhile Line.isBlank found.1
  rest := found.2
  trailingBlank := decide ((dropEndWhile Line.isBlank found.1).length < found.1.length)

theorem takeItem_eq (m : Marker) (l : Line) (ls : List Line) :
    takeItem m l ls = itemOf (l.tail m.width)
      (collect (acceptItem m) (({} : OpenEnd).push (l.tail m.width)) ls) :=
  rfl

/-- With one more line an item that ends with a blank one leaves it, and another takes it if it
leaves a paragraph open. -/
theorem itemOf_lazy (hb : ¬ b.isBlank) (first : Line) (found : List Line) (fits : Prop)
    [Decidable fits] :
    itemOf first
        (if (found.foldl OpenEnd.push (({} : OpenEnd).push first)).inParagraph ∧ fits then
          (found ++ [b], []) else (found, [b])) =
      if (itemOf first (found, [])).trailingBlank = false ∧
          endsInParagraph (itemOf first (found, [])).lines ∧ fits then
        ⟨(itemOf first (found, [])).lines ++ [b], [], false⟩
      else { itemOf first (found, []) with rest := [b] } := by
  rcases dropEndWhile_blank_cases found with whole | ⟨shorter, front, k, rfl, blank⟩
  · have same : (itemOf first (found, [])).trailingBlank = false ∧
        (itemOf first (found, [])).lines = first :: found := by
      simp [itemOf, whole]
    rw [same.1, same.2]
    by_cases takes : endsInParagraph (first :: found) ∧ fits
    · have open' : (found.foldl OpenEnd.push (({} : OpenEnd).push first)).inParagraph ∧ fits :=
        takes
      rw [if_pos open', if_pos ⟨rfl, takes⟩]
      simp [itemOf, dropEndWhile_filled hb]
    · have closed : ¬ ((found.foldl OpenEnd.push (({} : OpenEnd).push first)).inParagraph ∧ fits) :=
        takes
      rw [if_neg closed, if_neg fun h => takes h.2]
      simp [itemOf, whole]
  · -- a blank line at the end leaves no paragraph open
    have closed : ((front ++ [k]).foldl OpenEnd.push
        (({} : OpenEnd).push first)).inParagraph = false := by
      rw [List.foldl_append]
      exact inParagraph_blank blank _
    have trailing : (itemOf first (front ++ [k], [])).trailingBlank = true := decide_eq_true shorter
    rw [closed, trailing]
    simp [itemOf]

/-- An item that took all lines takes a lazy one if no blank line is at its end, its contents leave
a paragraph open and the line is not another item of the list. -/
theorem takeItem_lazy (hb : b.Lazy) (wide : 0 < m.width) (all : (takeItem m l ls).rest = []) :
    takeItem m l (ls ++ [b]) =
      if (takeItem m l ls).trailingBlank = false ∧ endsInParagraph (takeItem m l ls).lines ∧
          ¬ (Marker.read? b).any (m.sameList ·) then ⟨(takeItem m l ls).lines ++ [b], [], false⟩
      else { takeItem m l ls with rest := [b] } := by
  have pair : collect (acceptItem m) (({} : OpenEnd).push (l.tail m.width)) ls =
      ((collect (acceptItem m) (({} : OpenEnd).push (l.tail m.width)) ls).1, []) :=
    Prod.ext rfl all
  rw [takeItem_eq, takeItem_eq, collect_lazy _ all, hb.acceptItem wide, pair,
    ← itemOf_lazy hb.filled]
  dsimp only
  congr 1
  split
  · rename_i refused
    split at refused
    · cases refused
    · rename_i closed
      rw [if_neg closed]
  · rename_i k taken
    split at taken
    · rename_i open'
      rw [if_pos open', Option.some.inj taken]
    · cases taken

theorem nextItem?_sameList {n : Marker} {k : Line} {ks : List Line}
    (h : nextItem? m ls = some (n, k, ks)) : m.sameList n := by
  unfold nextItem? at h
  split at h
  · cases h
  · split at h
    · split at h
      · rename_i same
        cases h
        exact (Bool.and_eq_true_iff.mp same).1
      · cases h
    · cases h

/-- What goes on with a list is the same for all its items. -/
theorem sameList_congr {n : Marker} (same : m.sameList n) (x : Marker) :
    m.sameList x = n.sameList x := by
  simp only [Marker.sameList, Bool.and_eq_true, beq_iff_eq] at same ⊢
  rw [same.1, same.2]

/-- A list that took all lines takes a lazy one with its last item, or leaves it, or has it as one
more item. -/
theorem takeItems_lazy (hb : b.Lazy) (read : Marker.read? l = some m)
    (all : (takeItems m l ls).rest = []) :
    ∃ front item, (takeItems m l ls).items = front ++ [item] ∧
      if (takeItems m l ls).trailingBlank = false ∧ endsInParagraph item ∧
          ¬ (Marker.read? b).any (m.sameList ·) then
        takeItems m l (ls ++ [b]) = ⟨front ++ [item ++ [b]], [], (takeItems m l ls).spaced, false⟩
      else takeItems m l (ls ++ [b]) = { takeItems m l ls with rest := [b] } ∨
        ∃ more spaced blank,
          takeItems m l (ls ++ [b]) = ⟨(takeItems m l ls).items ++ [more], [], spaced, blank⟩ := by
  fun_induction takeItems m l ls with
  | case1 m l ls item hn =>
    obtain ⟨wide, -⟩ := Marker.read?_pos read
    have here := takeItem_lazy hb wide all
    refine ⟨[], item.lines, rfl, ?_⟩
    dsimp only
    split
    · rename_i takes
      rw [if_pos takes] at here
      have none : nextItem? m (takeItem m l (ls ++ [b])).rest = none := by
        rw [here]
        rfl
      rw [takeItems_none none, here]
      rfl
    · rename_i refuses
      rw [if_neg refuses] at here
      cases next : nextItem? m (takeItem m l (ls ++ [b])).rest with
      | none =>
        left
        rw [takeItems_none next, here]
      | some found =>
        obtain ⟨n, k, ks⟩ := found
        obtain ⟨split, -⟩ := nextItem?_eq_some next
        have last : [b] = k :: ks := by
          rw [here] at split
          exact split
        obtain ⟨rfl, rfl⟩ := List.cons.inj last
        right
        have alone : takeItems n b [] = ⟨[(takeItem n b []).lines], [], false, _⟩ :=
          takeItems_none rfl
        refine ⟨(takeItem n b []).lines, item.trailingBlank || false,
          (takeItem n b []).trailingBlank, ?_⟩
        rw [takeItems_some next, alone, here]
        rfl
  | case2 m l ls item n k ks hn _ more ih =>
    obtain ⟨here, next⟩ := takeItem_next [b] hn
    have same := sameList_congr (nextItem?_sameList hn)
    obtain ⟨front, last, items, takes⟩ := ih (nextItem?_eq_some hn).2 all
    refine ⟨item.lines :: front, last, congrArg (item.lines :: ·) items, ?_⟩
    rw [takeItems_some next, here]
    simp only [same]
    split
    · rename_i open'
      rw [if_pos open'] at takes
      rw [takes]
      rfl
    · rename_i closed
      rw [if_neg closed] at takes
      refine takes.imp (fun left => by rw [left]) fun longer => ?_
      obtain ⟨extra, spaced, blank, longer⟩ := longer
      refine ⟨extra, item.trailingBlank || spaced, blank, ?_⟩
      rw [longer]
      rfl

theorem takeParagraph_lazy (hb : b.Lazy) (all : (takeParagraph ls).2.2 = []) :
    takeParagraph (ls ++ [b]) =
      match (takeParagraph ls).2.1 with
      | some level => ((takeParagraph ls).1, some level, [b])
      | none =>
        match underline? b with
        | some level => ((takeParagraph ls).1, some level, [])
        | none => ((takeParagraph ls).1 ++ [trimStart b.text], none, []) := by
  induction ls with
  | nil =>
    simp only [List.nil_append, takeParagraph, if_neg hb.filled, hb.opens]
    cases underline? b <;> rfl
  | cons l ls ih =>
    simp only [List.cons_append, takeParagraph] at all ⊢
    by_cases blank : l.isBlank
    · rw [if_pos blank] at all
      cases all
    rw [if_neg blank] at all ⊢
    rw [if_neg blank]
    cases underlined : underline? l with
    | some level =>
      rw [underlined] at all
      dsimp only at all ⊢
      rw [all]
      rfl
    | none =>
      rw [underlined] at all
      dsimp only at all ⊢
      by_cases opens : startsBlock l
      · rw [if_pos opens] at all
        cases all
      rw [if_neg opens] at all ⊢
      rw [if_neg opens, ih all]
      cases (takeParagraph ls).2.1 with
      | some level => rfl
      | none => cases underline? b <;> rfl

end Loops

/-! ## What the last block makes of a lazy line -/

/-- The text of a paragraph with the given lines. -/
def paragraphText (texts : List (List Char)) : List Char :=
  trimEnd (List.intercalate ['\n'] texts)

namespace Layout

variable {b l : Line} {ls : List Line}

theorem take_of_quote (opens : (take l ls).layout.kind = .blockQuote) (ks : List Line) :
    take l ks = takeQuote l ks := by
  cases opening l with
  | quote is => exact is l.offset ks
  | text is =>
    rw [is l.offset ls] at opens
    rcases kind_takeText l ls with other | other
    all_goals
      rw [other] at opens
      cases opens
  | indented is | fenced _ _ is | header _ _ is | rule is | list _ _ is | html is =>
    rw [is l.offset ls] at opens
    cases opens

theorem take_of_list (opens : (take l ls).layout.kind = .list) :
    ∃ m, Marker.read? l = some m ∧ ∀ ks, take l ks = takeList m l ks := by
  cases opening l with
  | list m read is => exact ⟨m, read, is l.offset⟩
  | text is =>
    rw [is l.offset ls] at opens
    rcases kind_takeText l ls with other | other
    all_goals
      rw [other] at opens
      cases opens
  | indented is | fenced _ _ is | header _ _ is | rule is | quote is | html is =>
    rw [is l.offset ls] at opens
    cases opens

theorem take_of_paragraph (opens : (take l ls).layout.kind = .paragraph) (ks : List Line) :
    take l ks = takeText l ks := by
  cases opening l with
  | text is => exact is l.offset ks
  | indented is | fenced _ _ is | header _ _ is | rule is | quote is | list _ _ is | html is =>
    rw [is l.offset ls] at opens
    cases opens

theorem take_quote_lazy (hb : b.Lazy) {offset : Nat} {inner : List Line}
    (opens : (take l ls).layout = .quote offset inner) (all : (take l ls).rest = []) :
    take l (ls ++ [b]) =
      if endsInParagraph inner then { layout := .quote offset (inner ++ [b]), rest := [] }
      else { take l ls with rest := [b] } := by
  have quoted := take_of_quote (congrArg kind opens)
  rw [quoted] at opens all ⊢
  rw [quoted]
  obtain ⟨inner', same, takes⟩ := takeQuote_lazy hb all
  cases same.symm.trans opens
  exact takes

theorem take_list_lazy (hb : b.Lazy) {offset : Nat} {m : Marker} {items : List (List Line)}
    {spaced : Bool} (opens : (take l ls).layout = .list offset m items spaced)
    (all : (take l ls).rest = []) :
    ∃ front item, items = front ++ [item] ∧
      if (take l ls).trailingBlank = false ∧ endsInParagraph item ∧
          ¬ (Marker.read? b).any (m.sameList ·) then
        take l (ls ++ [b]) =
          { layout := .list offset m (front ++ [item ++ [b]]) spaced, rest := [] }
      else take l (ls ++ [b]) = { take l ls with rest := [b] } ∨
        ∃ more spaced' blank, take l (ls ++ [b]) =
          { layout := .list offset m (items ++ [more]) spaced'
            rest := []
            trailingBlank := blank } := by
  obtain ⟨n, read, listed⟩ := take_of_list (congrArg kind opens)
  rw [listed] at opens all ⊢
  rw [listed]
  cases opens
  obtain ⟨front, item, items, takes⟩ := takeItems_lazy hb read all
  refine ⟨front, item, items, ?_⟩
  by_cases fits : (takeItems m l ls).trailingBlank = false ∧ endsInParagraph item ∧
      ¬ (Marker.read? b).any (m.sameList ·)
  · rw [if_pos fits] at takes
    refine (if_pos fits).mpr ?_
    rw [takeList, takes]
  · rw [if_neg fits] at takes
    refine (if_neg fits).mpr ?_
    rcases takes with apart | ⟨more, spaced, blank, longer⟩
    · left
      rw [takeList, apart]
      rfl
    · right
      refine ⟨more, spaced, blank, ?_⟩
      rw [takeList, longer]

theorem take_paragraph_lazy (hb : b.Lazy) (opens : (take l ls).layout.kind = .paragraph)
    (all : (take l ls).rest = []) :
    (take l ls).layout = .paragraph (paragraphText (l.rest :: (takeParagraph ls).1)) ∧
      take l (ls ++ [b]) =
        match underline? b with
        | some level =>
          { layout := .header level (paragraphText (l.rest :: (takeParagraph ls).1)), rest := [] }
        | none =>
          { layout := .paragraph
              (paragraphText (l.rest :: (takeParagraph ls).1 ++ [trimStart b.text]))
            rest := [] } := by
  have text := take_of_paragraph opens
  rw [text] at opens all ⊢
  rw [text]
  rw [rest_takeText] at all
  have more := takeParagraph_lazy hb all
  cases level : (takeParagraph ls).2.1 with
  | some n => simp [takeText, level, kind] at opens
  | none =>
    rw [level] at more
    simp only [takeText, level, more]
    cases underline? b with
    | some n => exact ⟨rfl, rfl⟩
    | none => exact ⟨rfl, rfl⟩

theorem take_header_lazy (hb : b.Lazy) (opens : (take l ls).layout.kind = .header)
    (all : (take l ls).rest = []) :
    take l (ls ++ [b]) = { take l ls with rest := [b] } := by
  cases opening l with
  | header level text is =>
    rw [is l.offset ls] at all ⊢
    rw [is l.offset (ls ++ [b]), show ls = [] from all]
    rfl
  | text is =>
    rw [is l.offset ls] at opens all ⊢
    rw [is l.offset (ls ++ [b])]
    rw [rest_takeText] at all
    have more := takeParagraph_lazy hb all
    cases level : (takeParagraph ls).2.1 with
    | some n =>
      rw [level] at more
      simp only [takeText, level, more]
    | none => simp [takeText, level, kind] at opens
  | indented is | fenced _ _ is | rule is | quote is | list _ _ is | html is =>
    rw [is l.offset ls] at opens
    cases opens

end Layout

end MarkdownForest
