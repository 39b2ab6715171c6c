/-
# MarkdownForest.Proofs.LineLoops -- blocks cut off by an index into their lines

The lines of a block may be gone through with an index that is raised line by
line and checked against their number, and a block then ends at the index of the
line after it.  The functions in `Indexed` read blocks that way, from the line at
an index on: the four that hold text, the lines inside a quote, and the lines of
one item with the blank ones at its end taken off again.

Each gives what `Layout.take` gives for the lines from that one on, and ends where
the lines that it leaves begin (`Indexed.place`).
-/
import MarkdownForest.Proofs.EmphasisLoop
import MarkdownForest.Proofs.LazyLines

namespace MarkdownForest

set_option autoImplicit false

open Text

namespace Indexed

/-! ## The loops -/

/-- Behind a line there is less left. -/
theorem left_lt {lines : List Line} {j : Nat} {l : Line} (h : lines[j]? = some l) :
    lines.length - (j + 1) < lines.length - j := by
  obtain ⟨within, -⟩ := List.getElem?_eq_some_iff.mp h
  omega

/-- Code indented by four columns, from the line `j` on: what is read so far, and the index behind
the last line of it that is not blank. -/
def indentedFrom (lines : List Line) (j : Nat) (content : List (List Char)) (stop : Nat) :
    List (List Char) × Nat :=
  match h : lines[j]? with
  | none => (content, stop)
  | some line =>
    have := left_lt h
    if line.isBlank || 4 ≤ line.indent then
      indentedFrom lines (j + 1) (content ++ [(line.strip 4).text])
        (if line.isBlank then stop else j + 1)
    else (content, stop)
termination_by lines.length - j

/-- Code indented by four columns, and the index behind it. -/
def indentedCode (lines : List Line) (i : Nat) : Option (Layout × Nat) := do
  let (content, stop) := indentedFrom lines i [] i
  let count ← EmphasisLoop.subtract stop i
  return (.code [] (List.intercalate ['\n'] (content.take count) ++ ['\n']), stop)

/-- Code inside a fence, from the line `j` on, whether the fence is closed, and the index of the
line that closes it. -/
def fencedFrom (fence : Fence) (indent : Nat) (lines : List Line) (j : Nat) (literal : List Char) :
    List Char × Bool × Nat :=
  match h : lines[j]? with
  | none => (literal, false, j)
  | some line =>
    have := left_lt h
    if fence.closedBy line then (literal, true, j)
    else fencedFrom fence indent lines (j + 1) (literal ++ (line.strip indent).text ++ ['\n'])
termination_by lines.length - j

/-- Code behind the fence on the line `i`, and the index behind it. -/
def fencedCode (fence : Fence) (indent : Nat) (lines : List Line) (i : Nat) : Layout × Nat :=
  let (literal, closed, j) := fencedFrom fence indent lines (i + 1) []
  (.code fence.info literal, if closed then j + 1 else j)

/-- Raw HTML, from the line `j` on. -/
def htmlFrom (lines : List Line) (j : Nat) (literal : List Char) : List Char × Nat :=
  match h : lines[j]? with
  | none => (literal, j)
  | some line =>
    have := left_lt h
    if line.isBlank then (literal, j) else htmlFrom lines (j + 1) (literal ++ line.text ++ ['\n'])
termination_by lines.length - j

/-- Raw HTML, and the index behind it. -/
def htmlBlock (lines : List Line) (i : Nat) : Layout × Nat :=
  let (literal, j) := htmlFrom lines i []
  (.html literal, j)

/-- The text of a paragraph, from the line `j` on, and the level of the header that an underline
makes of it. -/
def paragraphFrom (lines : List Line) (j : Nat) (text : List Char) :
    List Char × Option Nat × Nat :=
  match h : lines[j]? with
  | none => (text, none, j)
  | some line =>
    have := left_lt h
    if line.isBlank then (text, none, j)
    else
      match underline? line with
      | some level => (text, some level, j + 1)
      | none =>
        if startsBlock line then (text, none, j)
        else paragraphFrom lines (j + 1) (text ++ '\n' :: trimStart line.text)
termination_by lines.length - j

/-- A paragraph whose first line is `line`, the one at `i`, or the header that an underline makes of
it, and the index behind it. -/
def textBlock (lines : List Line) (i : Nat) (line : Line) : Layout × Nat :=
  match paragraphFrom lines (i + 1) line.rest with
  | (text, some level, j) => (.header level (trimEnd text), j)
  | (text, none, j) => (.paragraph (trimEnd text), j)

/-- The contents that `accept` takes, from the line `j` on, behind those so far. -/
def collectFrom (accept : List Line → Line → Option Line) (lines : List Line) (j : Nat)
    (inner : List Line) : List Line × Nat :=
  match h : lines[j]? with
  | none => (inner, j)
  | some line =>
    have := left_lt h
    match accept inner line with
    | none => (inner, j)
    | some inside => collectFrom accept lines (j + 1) (inner ++ [inside])
termination_by lines.length - j

/-- What a line gives to a quote, behind the contents so far. -/
def quoteLine (inner : List Line) (line : Line) : Option Line :=
  if line.isQuoted then some line.unquoted
  else if !line.isBlank && endsInParagraph inner && !startsBlock line then
    some (line.strip line.indent)
  else none

/-- What a line gives to the item of `m`, behind the contents so far. -/
def itemLine (m : Marker) (inner : List Line) (line : Line) : Option Line :=
  if line.isBlank then
    if m.empty && inner.length == 1 then none else some line.emptied
  else if m.width ≤ line.indent then some (line.strip m.width)
  else if (Marker.read? line).any (m.sameList ·) then none
  else if endsInParagraph inner && !startsBlock line then some (line.strip line.indent)
  else none

/-- Takes blank lines off the end, but for the first line, and counts them. -/
def dropTrailing (inner : List Line) (trailing : Nat) : List Line × Nat :=
  if 1 < inner.length && inner.getLast?.any Line.isBlank then
    dropTrailing inner.dropLast (trailing + 1)
  else (inner, trailing)
termination_by inner.length
decreasing_by
  simp only [Bool.and_eq_true, decide_eq_true_eq] at *
  rw [List.length_dropLast]
  omega

/-- The lines of the item whose marker `m` is on the line `i`, the index of the line after it, and
whether blank lines were taken off its end. -/
def collectItem (lines : List Line) (i : Nat) (m : Marker) :
    Option (List Line × Nat × Bool) := do
  let line ← lines[i]?
  let (inner, next) := collectFrom (itemLine m) lines (i + 1) [line.tail m.width]
  let (inner, trailing) := dropTrailing inner 0
  return (inner, next, 0 < trailing)

/-! ## Places -/

/-- Where the end `rest` of lines begins. -/
def place (lines rest : List Line) : Nat :=
  lines.length - rest.length

section Places

variable {lines rest ls : List Line} {l : Line} {i j : Nat}

theorem place_drop (h : j ≤ lines.length) : place lines (lines.drop j) = j := by
  rw [place, List.length_drop]
  omega

theorem drop_place (h : rest <:+ lines) : lines.drop (place lines rest) = rest :=
  (List.suffix_iff_eq_drop.mp h).symm

theorem place_le (lines rest : List Line) : place lines rest ≤ lines.length :=
  Nat.sub_le _ _

/-- The end of what is behind a line begins behind it. -/
theorem lt_place (at_ : lines.drop i = l :: ls) (h : rest <:+ ls) : i < place lines rest := by
  have := congrArg List.length at_
  have := h.length_le
  rw [List.length_drop, List.length_cons] at *
  rw [place]
  omega

theorem drop_of_getElem? (h : lines[j]? = some l) : lines.drop j = l :: lines.drop (j + 1) := by
  obtain ⟨within, rfl⟩ := List.getElem?_eq_some_iff.mp h
  exact List.drop_eq_getElem_cons within

theorem getElem?_of_drop (h : lines.drop j = l :: ls) : lines[j]? = some l := by
  rw [← List.head?_drop, h]
  rfl

theorem drop_succ_of_drop (h : lines.drop j = l :: ls) : lines.drop (j + 1) = ls := by
  rw [← List.drop_drop, h]
  rfl

/-- The end of what is behind a line is an end of all lines. -/
theorem suffix_of_drop (at_ : lines.drop i = l :: ls) (h : rest <:+ ls) : rest <:+ lines :=
  h.trans (drop_succ_of_drop at_ ▸ List.drop_suffix (i + 1) lines)

theorem drop_of_getElem?_none (h : lines[j]? = none) : lines.drop j = [] :=
  List.drop_eq_nil_of_le (List.getElem?_eq_none_iff.mp h)

theorem place_succ (at_ : lines.drop i = l :: ls) : place lines ls = i + 1 := by
  obtain ⟨within, -⟩ := List.getElem?_eq_some_iff.mp (getElem?_of_drop at_)
  rw [← drop_succ_of_drop at_, place_drop within]

/-- Where the lines behind the first `n` begin. -/
theorem place_drop_of_drop (at_ : lines.drop i = l :: ls) {n : Nat} (short : n ≤ ls.length) :
    place lines (ls.drop n) = i + 1 + n := by
  have := congrArg List.length at_
  rw [List.length_drop, List.length_cons] at this
  rw [place, List.length_drop]
  omega

end Places

/-! ## Blocks that hold text -/

theorem intercalate_ended {texts : List (List Char)} (filled : texts ≠ []) :
    List.intercalate ['\n'] texts ++ ['\n'] = endedLines texts := by
  induction texts with
  | nil => exact absurd rfl filled
  | cons s texts ih =>
    cases texts with
    | nil => simp [endedLines]
    | cons t texts =>
      rw [List.intercalate_cons_of_ne_nil (List.cons_ne_nil _ _), List.append_assoc,
        ih (List.cons_ne_nil _ _)]
      simp [endedLines]

theorem intercalate_cons (s : List Char) (texts : List (List Char)) :
    List.intercalate ['\n'] (s :: texts) = s ++ texts.flatMap ('\n' :: ·) := by
  induction texts generalizing s with
  | nil => simp
  | cons t texts ih =>
    rw [List.intercalate_cons_of_ne_nil (List.cons_ne_nil _ _), ih]
    simp

theorem dropEndWhile_cons {α : Type} (p : α → Bool) (a : α) (s : List α) :
    dropEndWhile p (a :: s) =
      if (dropEndWhile p s).isEmpty then if p a then [] else [a] else a :: dropEndWhile p s := by
  unfold dropEndWhile
  rw [List.reverse_cons, List.dropWhile_append, List.isEmpty_reverse]
  split
  · rw [List.dropWhile_cons]
    split <;> rfl
  · rw [List.reverse_append]
    rfl

section Text

variable {lines ls : List Line} {l : Line} {i : Nat}

/-- Indented code runs through deep lines, and ends behind the last one that is not blank. -/
theorem indentedFrom_eq (lines : List Line) (j : Nat) (content : List (List Char)) (stop : Nat) :
    indentedFrom lines j content stop =
      (content ++ ((lines.drop j).takeWhile Layout.isDeep).map fun k => (k.strip 4).text,
        let kept := dropEndWhile Line.isBlank ((lines.drop j).takeWhile Layout.isDeep)
        if kept.isEmpty then stop else j + kept.length) := by
  fun_induction indentedFrom lines j content stop with
  | case1 j content stop ended =>
    simp [drop_of_getElem?_none ended, dropEndWhile]
  | case2 j content stop line there _ deep ih =>
    have run : (lines.drop j).takeWhile Layout.isDeep =
        line :: (lines.drop (j + 1)).takeWhile Layout.isDeep := by
      rw [drop_of_getElem? there]
      exact List.takeWhile_cons_of_pos deep
    simp only [dite_eq_ite] at ih
    rw [ih, run, dropEndWhile_cons, List.map_cons, List.append_assoc, List.singleton_append]
    congr 1
    -- The end moves on with the line itself, or with one behind it.
    cases dropEndWhile Line.isBlank ((lines.drop (j + 1)).takeWhile Layout.isDeep) with
    | nil => by_cases blank : line.isBlank <;> simp [blank]
    | cons k ks =>
      simp
      omega
  | case3 j content stop line there _ shallow =>
    have run : (lines.drop j).takeWhile Layout.isDeep = [] := by
      rw [drop_of_getElem? there]
      exact List.takeWhile_cons_of_neg shallow
    simp [run, dropEndWhile]

theorem indentedCode_eq (at_ : lines.drop i = l :: ls) (deep : 4 ≤ l.indent)
    (filled : ¬ l.isBlank) :
    indentedCode lines i =
      some ((Layout.takeIndented l ls).layout, place lines (Layout.takeIndented l ls).rest) := by
  let more := dropEndWhile Line.isBlank (ls.takeWhile Layout.isDeep)
  have run : (l :: ls).takeWhile Layout.isDeep = l :: ls.takeWhile Layout.isDeep :=
    List.takeWhile_cons_of_pos (by simp [Layout.isDeep, deep])
  have kept : dropEndWhile Line.isBlank (l :: ls.takeWhile Layout.isDeep) = l :: more := by
    rw [dropEndWhile_cons, if_neg filled]
    split
    · rename_i none
      rw [← List.isEmpty_iff.mp none]
    · rfl
  have cut : (ls.takeWhile Layout.isDeep).take more.length = more :=
    (List.prefix_iff_eq_take.mp <| prefix_dropEndWhile _ _).symm
  have short : more.length ≤ ls.length :=
    (length_dropEndWhile_le _ _).trans (List.takeWhile_prefix _).length_le
  have behind : place lines (ls.drop more.length) = i + (more.length + 1) := by
    rw [place_drop_of_drop at_ short]
    omega
  rw [indentedCode, indentedFrom_eq, at_, run, kept, Layout.takeIndented_eq, behind]
  simp only [List.isEmpty_cons, Bool.false_eq_true, ↓reduceIte, List.length_cons, List.nil_append,
    EmphasisLoop.subtract_eq (Nat.le_add_right i _), Option.bind_eq_bind, Option.bind_some]
  rw [Nat.add_sub_cancel_left, ← List.map_take, List.take_succ_cons, cut,
    intercalate_ended (by simp)]
  rfl

theorem fencedFrom_eq (f : Fence) (indent : Nat) {j : Nat} (h : j ≤ lines.length)
    (literal : List Char) :
    fencedFrom f indent lines j literal =
      (literal ++ endedLines (((lines.drop j).takeWhile fun k => !f.closedBy k).map
          fun k => (k.strip indent).text),
        !((lines.drop j).dropWhile fun k => !f.closedBy k).isEmpty,
        place lines ((lines.drop j).dropWhile fun k => !f.closedBy k)) := by
  fun_induction fencedFrom f indent lines j literal with
  | case1 j literal ended =>
    have : j = lines.length := Nat.le_antisymm h (List.getElem?_eq_none_iff.mp ended)
    simp [this, endedLines, place]
  | case2 j literal line there _ closes =>
    have begins := place_drop h
    rw [drop_of_getElem? there] at begins ⊢
    simp [closes, endedLines, begins]
  | case3 j literal line there _ inside ih =>
    obtain ⟨within, -⟩ := List.getElem?_eq_some_iff.mp there
    rw [ih within, drop_of_getElem? there]
    simp [inside, endedLines]

theorem fencedCode_eq (at_ : lines.drop i = l :: ls) (f : Fence) (indent : Nat) :
    fencedCode f indent lines i =
      ((Layout.takeFenced f indent ls).layout,
        place lines (Layout.takeFenced f indent ls).rest) := by
  obtain ⟨within, -⟩ := List.getElem?_eq_some_iff.mp (getElem?_of_drop at_)
  have suffix : ls.dropWhile (fun k => !f.closedBy k) <:+ lines :=
    suffix_of_drop at_ (List.dropWhile_suffix _)
  rw [fencedCode, fencedFrom_eq f indent within, drop_succ_of_drop at_, Layout.takeFenced]
  cases rest : ls.dropWhile fun k => !f.closedBy k with
  | nil => simp
  | cons close after =>
    rw [rest] at suffix
    have next := place_succ (drop_place suffix)
    simp [next]

theorem htmlFrom_eq {j : Nat} (h : j ≤ lines.length) (literal : List Char) :
    htmlFrom lines j literal =
      (literal ++ endedLines (((lines.drop j).takeWhile fun k => !k.isBlank).map Line.text),
        place lines ((lines.drop j).dropWhile fun k => !k.isBlank)) := by
  fun_induction htmlFrom lines j literal with
  | case1 j literal ended =>
    have : j = lines.length := Nat.le_antisymm h (List.getElem?_eq_none_iff.mp ended)
    simp [this, endedLines, place]
  | case2 j literal line there _ blank =>
    have begins := place_drop h
    rw [drop_of_getElem? there] at begins ⊢
    simp [blank, endedLines, begins]
  | case3 j literal line there _ filled ih =>
    obtain ⟨within, -⟩ := List.getElem?_eq_some_iff.mp there
    rw [ih within, drop_of_getElem? there]
    simp [filled, endedLines]

theorem htmlBlock_eq (at_ : lines.drop i = l :: ls) (filled : ¬ l.isBlank) :
    htmlBlock lines i =
      ((Layout.takeHtml l ls).layout, place lines (Layout.takeHtml l ls).rest) := by
  obtain ⟨within, -⟩ := List.getElem?_eq_some_iff.mp (getElem?_of_drop at_)
  rw [htmlBlock, htmlFrom_eq (Nat.le_of_lt within), at_]
  simp [Layout.takeHtml, filled]

theorem paragraphFrom_eq {j : Nat} (h : j ≤ lines.length) (text : List Char) :
    paragraphFrom lines j text =
      (text ++ (takeParagraph (lines.drop j)).1.flatMap ('\n' :: ·),
        (takeParagraph (lines.drop j)).2.1,
        place lines (takeParagraph (lines.drop j)).2.2) := by
  fun_induction paragraphFrom lines j text with
  | case1 j text ended =>
    have : j = lines.length := Nat.le_antisymm h (List.getElem?_eq_none_iff.mp ended)
    simp [this, takeParagraph, place]
  | case2 j text line there _ blank =>
    have begins := place_drop h
    rw [drop_of_getElem? there] at begins ⊢
    simp [takeParagraph, blank, begins]
  | case3 j text line there _ filled level underlined =>
    obtain ⟨within, -⟩ := List.getElem?_eq_some_iff.mp there
    simp [drop_of_getElem? there, takeParagraph, filled, underlined, place_drop within]
  | case4 j text line there _ filled underlined opens =>
    have begins := place_drop h
    rw [drop_of_getElem? there] at begins ⊢
    simp [takeParagraph, filled, underlined, opens, begins]
  | case5 j text line there _ filled underlined goesOn ih =>
    obtain ⟨within, -⟩ := List.getElem?_eq_some_iff.mp there
    rw [ih within, drop_of_getElem? there]
    simp [takeParagraph, filled, underlined, goesOn]

theorem textBlock_eq (at_ : lines.drop i = l :: ls) :
    textBlock lines i l =
      ((Layout.takeText l ls).layout, place lines (Layout.takeText l ls).rest) := by
  obtain ⟨within, -⟩ := List.getElem?_eq_some_iff.mp (getElem?_of_drop at_)
  rw [textBlock, paragraphFrom_eq within, drop_succ_of_drop at_, Layout.takeText]
  simp only [intercalate_cons]
  cases (takeParagraph ls).2.1 <;> rfl

end Text

/-! ## Contents of quotes and items -/

section Collect

variable {lines ls : List Line} {l : Line} {i j : Nat}

/-- A loop that takes lines as long as `accept` does is `collect`. -/
theorem collectFrom_eq {accept : List Line → Line → Option Line}
    {accept' : OpenEnd → Line → Option Line}
    (same : ∀ inner line, accept inner line = accept' (inner.foldl OpenEnd.push {}) line)
    (h : j ≤ lines.length) (inner : List Line) :
    collectFrom accept lines j inner =
      (inner ++ (collect accept' (inner.foldl OpenEnd.push {}) (lines.drop j)).1,
        place lines (collect accept' (inner.foldl OpenEnd.push {}) (lines.drop j)).2) := by
  fun_induction collectFrom accept lines j inner with
  | case1 j inner ended =>
    have : j = lines.length := Nat.le_antisymm h (List.getElem?_eq_none_iff.mp ended)
    simp [collect, place, this]
  | case2 j inner line there _ refused =>
    rw [drop_of_getElem? there, collect, ← same, refused]
    dsimp only
    rw [← drop_of_getElem? there, place_drop h, List.append_nil]
  | case3 j inner line there _ inside taken ih =>
    obtain ⟨within, -⟩ := List.getElem?_eq_some_iff.mp there
    have next : (inner ++ [inside]).foldl OpenEnd.push {} =
        (inner.foldl OpenEnd.push {}).push inside := by simp
    rw [ih within, drop_of_getElem? there, collect, ← same, taken, next]
    simp

theorem quoteLine_eq (inner : List Line) (line : Line) :
    quoteLine inner line = acceptQuoted (inner.foldl OpenEnd.push {}) line := rfl

theorem count_foldl_push (e : OpenEnd) (ls : List Line) :
    (ls.foldl OpenEnd.push e).count = e.count + ls.length := by
  have one (e : OpenEnd) (l : Line) : (e.push l).count = e.count + 1 := by
    unfold OpenEnd.push
    dsimp only
    repeat' split
    all_goals rfl
  induction ls generalizing e with
  | nil => rfl
  | cons l ls ih => rw [List.foldl_cons, ih, one, List.length_cons, Nat.add_assoc, Nat.add_comm 1]

theorem itemLine_eq (m : Marker) (inner : List Line) (line : Line) :
    itemLine m inner line = acceptItem m (inner.foldl OpenEnd.push {}) line := by
  rw [itemLine, acceptItem, count_foldl_push, Nat.zero_add]
  rfl

/-- The lines inside a quote, from its first line on. -/
theorem quote_eq (at_ : lines.drop i = l :: ls) (quoted : l.isQuoted) :
    collectFrom quoteLine lines i [] =
      (l.unquoted :: (collect acceptQuoted (({} : OpenEnd).push l.unquoted) ls).1,
        place lines (collect acceptQuoted (({} : OpenEnd).push l.unquoted) ls).2) := by
  obtain ⟨within, -⟩ := List.getElem?_eq_some_iff.mp (getElem?_of_drop at_)
  rw [collectFrom_eq quoteLine_eq (Nat.le_of_lt within), at_, collect]
  simp [acceptQuoted, quoted]

theorem dropTrailing_eq (first : Line) (found : List Line) (trailing : Nat) :
    dropTrailing (first :: found) trailing =
      (first :: dropEndWhile Line.isBlank found,
        trailing + (found.length - (dropEndWhile Line.isBlank found).length)) := by
  induction found using List.reverseRecOn generalizing trailing with
  | nil =>
    rw [dropTrailing]
    rfl
  | append_singleton found k ih =>
    have last : (first :: (found ++ [k])).getLast? = some k := by
      rw [← List.cons_append, List.getLast?_concat]
    rw [dropTrailing, last]
    by_cases blank : k.isBlank
    · have kept := length_dropEndWhile_le Line.isBlank found
      rw [if_pos (by simp [blank]), ← List.cons_append, List.dropLast_concat, ih,
        dropEndWhile_concat blank, List.length_append, List.length_singleton, Nat.add_assoc,
        show 1 + (found.length - (dropEndWhile Line.isBlank found).length) =
          found.length + 1 - (dropEndWhile Line.isBlank found).length by omega]
    · rw [if_neg (by simp [blank]), dropEndWhile_filled blank, Nat.sub_self]
      rfl

/-- The lines of one item, from that of its marker on. -/
theorem collectItem_eq (at_ : lines.drop i = l :: ls) (m : Marker) :
    collectItem lines i m = some ((takeItem m l ls).lines, place lines (takeItem m l ls).rest,
      (takeItem m l ls).trailingBlank) := by
  have here := getElem?_of_drop at_
  obtain ⟨within, -⟩ := List.getElem?_eq_some_iff.mp here
  have collected := collectFrom_eq (itemLine_eq m) (Nat.succ_le_of_lt within) [l.tail m.width]
  rw [drop_succ_of_drop at_] at collected
  have kept := length_dropEndWhile_le Line.isBlank
    (collect (acceptItem m) (({} : OpenEnd).push (l.tail m.width)) ls).1
  rw [collectItem, here]
  simp only [Option.bind_eq_bind, Option.bind_some, collected, List.singleton_append,
    dropTrailing_eq, Nat.zero_add, Nat.sub_pos_iff_lt]
  rfl

/-- An item ends behind the line of its marker. -/
theorem collectItem_ends {m : Marker} {inner : List Line} {next : Nat} {trailing : Bool}
    (h : collectItem lines i m = some (inner, next, trailing)) :
    i < next ∧ next ≤ lines.length := by
  cases there : lines[i]? with
  | none =>
    rw [collectItem, there] at h
    cases h
  | some l =>
    have at_ := drop_of_getElem? there
    rw [collectItem_eq at_] at h
    cases h
    exact ⟨lt_place at_ (rest_takeItem_suffix ..), place_le ..⟩

end Collect

end Indexed

end MarkdownForest
