/-
# MarkdownForest.Proofs.ContainedSources -- sources written inside a container

Text with quote markers in front of its lines (`quoteLines`), or hung under the
marker of an item (`hang`), is whatever the text is, in a quote or in an item.

The container gets back the lines of the text without their markers
(`read_quotedLine`, `ofSource_hang`) and reads them one level deeper; so the trees
are those of the text under a limit that is one level lower (`elsewhere_inside`).
The main statements are `parse_quoteLines` and `parse_hang`.
-/
import MarkdownForest.Proofs.Placement
import MarkdownForest.Proofs.PlainDocuments

namespace MarkdownForest

set_option autoImplicit false

open Text CommonMark
open Line (Untabbed)

/-! ## Documents of one container -/

/-- The document that is read, if one is. -/
theorem toOption_document (p : Parsed) :
    p.document.toOption = if p.failure = none then some (.node .document p.trees) else none := by
  cases h : p.failure <;> simp [Parsed.document, Parsed.error?, Parsed.documentMade, h,
    Except.toOption]

/-- A container with nothing after it is a document when what is inside is one. -/
theorem toOption_document_within (c : Content) (separated : Bool) (inside : Parsed) :
    (Parsed.within c separated inside {}).document.toOption =
      inside.document.toOption.map fun t => .node .document [.node c t.children] := by
  rw [toOption_document, toOption_document]
  cases h : inside.failure <;> simp [Parsed.within, Parsed.cons, Parsed.fail, h, Tree.children]

theorem loose_within (c : Content) (separated : Bool) (inside : Parsed) :
    (Parsed.within c separated inside {}).loose = separated := by
  cases h : inside.failure <;> simp [Parsed.within, Parsed.cons, Parsed.fail, h]

theorem Parsed.Elsewhere.toOption_document_eq {R : Nat → Nat → Prop} {p q : Parsed}
    (h : p.Elsewhere R q) : p.document.toOption = q.document.toOption := by
  have failures : p.failure = none ↔ q.failure = none := by
    have := h.failure
    generalize p.failure = x, q.failure = y at this
    cases this <;> simp
  rw [toOption_document, toOption_document, h.trees]
  simp only [failures]

/-- Lines inside a container are read as they are by themselves, under a limit one level lower. -/
theorem elsewhere_inside (smart : Bool) (m : Nat) {source : List Char} {lines : List Line}
    (h : AllElsewhere (fun _ _ => True) (Line.ofSource source) lines) :
    Parsed.Elsewhere (fun _ _ => True) (readSource ⟨smart, m⟩ source)
      (parseBlocks ⟨smart, m + 1⟩ 1 false false lines) :=
  blocks_elsewhere smart m 1 (fun _ _ _ _ => trivial) 0 false false _ _ h

/-! ## Quotes -/

/-- A quoted line is read as a line of a quote, which is the line as it was. -/
theorem read_quotedLine {raw : List Char} (untabbed : Untabbed (Line.dropCarriageReturn raw))
    (offset : Nat) :
    let l : Line := ⟨Line.expandTabs 0 (Line.dropCarriageReturn (quotedLine raw)), offset⟩
    l.isQuoted ∧ l.unquoted.text = Line.expandTabs 0 (Line.dropCarriageReturn raw) := by
  cases raw with
  | nil => exact ⟨rfl, rfl⟩
  | cons c s =>
    have text : Line.expandTabs 0 (Line.dropCarriageReturn (quotedLine (c :: s))) =
        ['>', ' '] ++ Line.dropCarriageReturn (c :: s) := by
      rw [show quotedLine (c :: s) = ['>', ' '] ++ c :: s from rfl,
        Line.dropCarriageReturn_append _ (List.cons_ne_nil c s)]
      rfl
    rw [Line.expandTabs_eq untabbed, text]
    simp [Line.isQuoted, Line.unquoted, Line.indent, Line.rest, Line.tail]

/-- Lines that all have quote markers are one quote. -/
theorem parseBlocks_quoted {o : ParseOptions} {depth : Nat} {lines : List Line}
    (filled : lines ≠ []) (quoted : ∀ l ∈ lines, l.isQuoted) (room : depth < o.maxNesting) :
    parseBlocks o depth false false lines =
      .within .blockQuote false (parseBlocks o (depth + 1) false false (lines.map Line.unquoted))
        {} := by
  obtain ⟨l, ls, rfl⟩ := List.exists_cons_of_ne_nil filled
  have notBlank : ¬ l.isBlank := fun blank => by
    simpa [Line.not_isQuoted_of_isBlank blank] using quoted l List.mem_cons_self
  have taken : Layout.take l (ls ++ []) = _ := take_quoted quoted nofun
  rw [List.append_nil] at taken
  rw [parseBlocks_cons ls notBlank, taken, parseBlocks_nil, blockThen,
    if_neg (Nat.not_le.mpr room)]
  rfl

/-- Text without tabs among the blanks at the beginnings of its lines, with quote markers in front
of them, is a quote of what the text is. -/
theorem parse_quoteLines (smart : Bool) (m : Nat) (source : String)
    (untabbed : ∀ s ∈ Line.texts source.toList, Untabbed s) :
    (parse ⟨smart, m + 1⟩ (String.ofList (quoteLines source.toList))).toOption =
      (parse ⟨smart, m⟩ source).toOption.map fun t =>
        .node .document [.node .blockQuote t.children] := by
  let raws := source.toList.splitOn '\n'
  let lines := Line.number 0 (raws.map quotedLine)
  have each : ∀ raw ∈ raws, ∀ offset, _ := fun raw hr =>
    read_quotedLine (untabbed _ (List.mem_map_of_mem hr))
  have quoted : ∀ l ∈ lines, l.isQuoted := by
    intro l hl
    obtain ⟨raw, mem, offset, rfl⟩ := Line.exists_raw hl
    obtain ⟨raw, hr, rfl⟩ := List.mem_map.mp mem
    exact (each raw hr offset).1
  have inside : AllElsewhere (fun _ _ => True) (Line.ofSource source.toList)
      (lines.map Line.unquoted) :=
    Line.number_elsewhere (fun raw hr offset => (each raw hr offset).2) 0 0
  have same := elsewhere_inside smart m inside
  have filled : lines ≠ [] := Line.number_ne_nil (by simp [raws]) 0
  rw [parse, parse, same.toOption_document_eq, readSource, String.toList_ofList, Line.ofSource,
    splitOn_quoteLines, parseBlocks_quoted filled quoted (Nat.succ_pos m),
    toOption_document_within]

/-- Blocks of many kinds, some of them open at the end of a line, with a carriage return, a line of
spaces and a tab inside a line. -/
def mixedSource : String :=
  "- a\n  * b\n\n> c\nlazy\r\n   \n    x\ty\n<p>\n\n1. # d\n\n>> - e\n~~~\n> f\n"

/-- The blocks of `mixedSource`. -/
def mixedBlocks : List Tree :=
  let paragraph (s : String) : Tree := .node .paragraph [.leaf (.text s)]
  let list (t : Tree) : Tree := .node (.list .bullet 1 true) [.node .item [t]]
  [.node (.list .bullet 1 true) [.node .item [paragraph "a", list (paragraph "b")]],
    .node .blockQuote
      [.node .paragraph [.leaf (.text "c"), .leaf .softbreak, .leaf (.text "lazy")]],
    .leaf (.codeBlock "" "x\ty\n"),
    .leaf (.html "<p>\n"),
    .node (.list .ordered 1 true) [.node .item [.node (.header 1) [.leaf (.text "d")]]],
    .node .blockQuote [.node .blockQuote [list (paragraph "e")]],
    .leaf (.codeBlock "" "> f\n\n")]

/-- The blocks nest just as deep as the limit allows, and as deep with the quote around them. -/
theorem parse_quoteLines_mixed :
    "    x\ty".toList ∈ Line.texts mixedSource.toList ∧
      (∀ s ∈ Line.texts mixedSource.toList, Untabbed s) ∧
      parse ⟨true, 3⟩ mixedSource = .ok (.node .document mixedBlocks) ∧
      (parse ⟨true, 4⟩ (String.ofList (quoteLines mixedSource.toList))).toOption =
        some (.node .document [.node .blockQuote mixedBlocks]) := by
  have untabbed : ∀ s ∈ Line.texts mixedSource.toList, Untabbed s := by decide
  have read : parse ⟨true, 3⟩ mixedSource = .ok (.node .document mixedBlocks) := by
    decide +kernel
  have quoted := parse_quoteLines true 3 mixedSource untabbed
  rw [read] at quoted
  exact ⟨by decide, untabbed, read, quoted⟩

/-! ## Markers that are written -/

/-- The number at which a list begins whose first item was written as number `k`. -/
def firstNumber (type : ListType) (k : Nat) : Nat :=
  match type with
  | .bullet => 1
  | .ordered => k

/-- The marker that `itemMarker` writes, in front of text. -/
def writtenMarker (type : ListType) (start : Nat) (alternate : Bool) (n : Nat) : Marker where
  type := type
  delimiter := match type with
    | .bullet => if alternate then '*' else '-'
    | .ordered => if alternate then ')' else '.'
  start := firstNumber type (start + n)
  width := (itemMarker type start alternate n).length
  empty := false

theorem Marker.ofDigits_toString (k : Nat) : ofDigits (toString k).toList = k := by
  rw [Nat.toString_eq_repr, Nat.toList_repr]
  conv => rhs; rw [← Nat.ofDigitChars_ten_toDigits (n := k), Nat.ofDigitChars_eq_foldl]
  simp only [ofDigits, Nat.mul_comm 10]

theorem Marker.isDigit_of_mem_toString {k : Nat} {c : Char} (h : c ∈ (toString k).toList) :
    c.isDigit := by
  rw [Nat.toString_eq_repr, Nat.toList_repr] at h
  exact Nat.isDigit_of_mem_toDigits (by decide) (by decide) h

theorem Marker.toString_ne_nil (k : Nat) : (toString k).toList ≠ [] := by
  rw [Nat.toString_eq_repr, Nat.toList_repr]
  exact Nat.toDigits_ne_nil

/-- A number of at most nine digits is read from the front of a text, and no other. -/
theorem Marker.head?_toString (k : Nat) {d : Char} (hd : d = '.' ∨ d = ')') (s : List Char) :
    head? ((toString k).toList ++ d :: s) =
      if k ≤ maxStart then some (.ordered, d, k, (toString k).toList.length + 1) else none := by
  have digits : ∀ c ∈ (toString k).toList, c.isDigit := fun c => isDigit_of_mem_toString
  have short : (toString k).toList.length ≤ 9 ↔ k ≤ maxStart := by
    rw [Nat.toString_eq_repr, Nat.toList_repr, Nat.length_toDigits_le_iff (by decide) (by decide)]
    exact Nat.lt_succ_iff
  have stops : d.isDigit = false := by
    rcases hd with rfl | rfl <;> decide
  have number := ofDigits_toString k
  obtain ⟨c, t, split⟩ := List.exists_cons_of_ne_nil (toString_ne_nil k)
  rw [split] at digits short number ⊢
  have digit : c.isDigit := digits c List.mem_cons_self
  have apart : ∀ m, Char.isDigit m = false → c ≠ m := fun m hm => ne_of_class digit hm
  have run : (c :: t ++ d :: s).takeWhile Char.isDigit = c :: t := by
    rw [List.takeWhile_append_of_pos digits, List.takeWhile_cons_of_neg (by simp [stops]),
      List.append_nil]
  rw [List.cons_append] at run ⊢
  simp only [head?, apart '-' (by decide), apart '+' (by decide), apart '*' (by decide), or_self,
    if_false]
  rw [run, ← List.cons_append, List.drop_left]
  by_cases room : k ≤ maxStart
  · have small : ¬ 9 < (c :: t).length := Nat.not_lt.mpr (short.mpr room)
    simp only [hd, number, small, room, List.isEmpty_cons, Bool.false_or, decide_false, if_false,
      if_true, Bool.false_eq_true]
  · have long : 9 < (c :: t).length := Nat.lt_of_not_le fun h => room (short.mp h)
    simp only [long, room, decide_true, Bool.or_true, if_true, if_false]

section Written

variable (type : ListType) (start : Nat) (alternate : Bool) (n : Nat)

/-- A marker begins with a character that opens nothing else but a rule. -/
theorem exists_itemMarker :
    ∃ c t, itemMarker type start alternate n = c :: t ∧
      c ∉ [' ', '\t', '\x60', '~', '#', '>'] := by
  cases type with
  | bullet =>
    refine ⟨_, _, rfl, ?_⟩
    cases alternate <;> decide
  | ordered =>
    obtain ⟨c, t, split⟩ := List.exists_cons_of_ne_nil (Marker.toString_ne_nil (start + n))
    have digit : c.isDigit := Marker.isDigit_of_mem_toString (split ▸ List.mem_cons_self)
    refine ⟨c, _, by rw [itemMarker, split]; rfl, fun opens => ?_⟩
    simp only [List.mem_cons, List.not_mem_nil, or_false] at opens
    rcases opens with rfl | rfl | rfl | rfl | rfl | rfl
    all_goals exact absurd digit (by decide)

theorem oneLine_itemMarker : '\n' ∉ itemMarker type start alternate n := by
  cases type with
  | bullet => cases alternate <;> simp [itemMarker]
  | ordered =>
    have digits : '\n' ∉ (toString (start + n)).toList := fun mem =>
      absurd (Marker.isDigit_of_mem_toString mem) (by decide)
    simp only [itemMarker, List.mem_append, not_or]
    exact ⟨digits, by cases alternate <;> decide⟩

theorem exists_eq_itemMarker : ∃ front, itemMarker type start alternate n = front ++ [' '] := by
  cases type with
  | bullet => exact ⟨[_], rfl⟩
  | ordered =>
    let mark := if alternate then ')' else '.'
    exact ⟨(toString (start + n)).toList ++ [mark], by simp [itemMarker, mark]⟩

variable {type start alternate n}

theorem untabbed_itemMarker (s : List Char) :
    Untabbed (itemMarker type start alternate n ++ s) := by
  obtain ⟨c, t, begins, apart⟩ := exists_itemMarker type start alternate n
  simp only [List.mem_cons, not_or] at apart
  simp [Untabbed, begins, apart]

theorem head?_itemMarker (room : type = .ordered → start + n ≤ Marker.maxStart) (s : List Char) :
    Marker.head? (itemMarker type start alternate n ++ s) =
      some (type, (writtenMarker type start alternate n).delimiter, firstNumber type (start + n),
        (itemMarker type start alternate n).length - 1) := by
  cases type with
  | bullet => cases alternate <;> rfl
  | ordered =>
    have digits := Marker.head?_toString (start + n) (d := if alternate then ')' else '.')
      (by cases alternate <;> simp) (' ' :: s)
    rw [if_pos (room rfl)] at digits
    simpa [itemMarker, writtenMarker, firstNumber] using digits

variable {s : List Char} {offset : Nat}

/-- The marker of an item is read from the line that it was written on. -/
theorem read?_itemMarker (room : type = .ordered → start + n ≤ Marker.maxStart)
    (filled : ¬ Text.isBlank s) (first : s.head? ≠ some ' ') :
    Marker.read? ⟨itemMarker type start alternate n ++ s, offset⟩ =
      some (writtenMarker type start alternate n) := by
  obtain ⟨c, t, begins, apart⟩ := exists_itemMarker type start alternate n
  have space : c ≠ ' ' := List.ne_of_not_mem_cons apart
  have line : (⟨itemMarker type start alternate n ++ s, offset⟩ : Line).rest =
      itemMarker type start alternate n ++ s := by
    rw [begins]
    exact Line.rest_of_first space
  have indent : (⟨itemMarker type start alternate n ++ s, offset⟩ : Line).indent = 0 := by
    rw [begins]
    exact Line.indent_of_first space
  obtain ⟨front, ends⟩ := exists_eq_itemMarker type start alternate n
  have after : (itemMarker type start alternate n ++ s).drop
      ((itemMarker type start alternate n).length - 1) = ' ' :: s := by
    simp [ends]
  have spaces : runLength ' ' (' ' :: s) = 1 := by
    cases s with
    | nil => rfl
    | cons d s =>
      have : d ≠ ' ' := by simpa using first
      simp [runLength, this]
  have text : Text.isBlank (' ' :: s) = false := by
    simpa [Text.isBlank] using fun _ => filled
  have long : 0 < (itemMarker type start alternate n).length := by simp [ends]
  rw [Marker.read?, indent, line, head?_itemMarker room s]
  simp [after, spaces, text, writtenMarker]
  omega

/-- A line with a written marker begins a list, if it is not a rule. -/
theorem take_itemMarker {m : Marker}
    (read : Marker.read? ⟨itemMarker type start alternate n ++ s, offset⟩ = some m)
    (noRule : isRule (itemMarker type start alternate n ++ s) = false) (ls : List Line) :
    Layout.take ⟨itemMarker type start alternate n ++ s, offset⟩ ls =
      Layout.takeList m ⟨itemMarker type start alternate n ++ s, offset⟩ ls := by
  obtain ⟨c, t, begins, apart⟩ := exists_itemMarker type start alternate n
  rw [begins, List.cons_append] at noRule read ⊢
  simp only [List.mem_cons, List.not_mem_nil, or_false, not_or] at apart
  obtain ⟨space, -, backtick, tilde, number, angle⟩ := apart
  have rest : (⟨c :: (t ++ s), offset⟩ : Line).rest = c :: (t ++ s) := Line.rest_of_first space
  have quote : ¬ (c :: (t ++ s)).head? = some '>' := by simpa using angle
  rw [Layout.take, Line.indent_of_first space, rest, if_neg (by decide),
    Line.open?_of_first backtick tilde]
  dsimp only
  rw [Line.header?_of_first number]
  dsimp only
  rw [if_neg quote, if_neg (by simp [noRule]), read]

end Written

/-! ## Hanging text -/

/-- A further line of an item's contents as it is written, `width` columns in. -/
def hungLine (width : Nat) (s : List Char) : List Char :=
  if s.isEmpty then [] else List.replicate width ' ' ++ s

/-- Text that can hang under a marker: something stands in the first column of its first line, its
last line is not empty, a line of nothing but white space is, and the marker does not make a rule of
the first line. -/
structure Hangs (marker source : List Char) : Prop where
  untabbed : ∀ s ∈ Line.texts source, Untabbed s
  filled : ∀ s ∈ Line.texts source, Text.isBlank s → s = []
  first : ∀ s ∈ (Line.texts source).head?, s ≠ [] ∧ s.head? ≠ some ' '
  last : ∀ s ∈ (Line.texts source).getLast?, s ≠ []
  noRule : ∀ s ∈ (Line.texts source).head?, isRule (marker ++ s) = false

/-- What a hanging line is inside the item. -/
def Line.unhung (width : Nat) (l : Line) : Line :=
  if l.isBlank then l.emptied else l.strip width

theorem splitOn_hang {marker source raw : List Char} {more : List (List Char)}
    (oneLine : '\n' ∉ marker) (filled : source ≠ []) (cut : source.splitOn '\n' = raw :: more) :
    (hang marker source).splitOn '\n' =
      (marker ++ raw) :: more.map (hungLine marker.length) := by
  have written : hang marker source =
      List.intercalate ['\n'] ((marker ++ raw) :: more.map (hungLine marker.length)) := by
    rw [hang, if_neg (by simpa using filled), cut]
    rfl
  have clean : ∀ s ∈ raw :: more, '\n' ∉ s := fun s hs =>
    Line.not_mem_of_mem_splitOn (cut ▸ hs)
  obtain ⟨clean_raw, clean_more⟩ := List.forall_mem_cons.mp clean
  rw [written, List.splitOn_intercalate]
  · refine List.forall_mem_cons.mpr ⟨by simp [oneLine, clean_raw], fun line hl => ?_⟩
    obtain ⟨s, hs, rfl⟩ := List.mem_map.mp hl
    unfold hungLine
    split
    · simp
    · simp [clean_more s hs]
  · exact List.cons_ne_nil _ _

/-- A line that stands `m.width` columns in, or has nothing but white space, is taken by the item,
and of the latter nothing is left. -/
theorem accept_unhung {m : Marker} (text : m.empty = false) {l : Line} {k : Nat} {s : List Char}
    (written : l.text = List.replicate k ' ' ++ s) (deep : ¬ Text.isBlank s → k = m.width) :
    (∀ e, acceptItem m e l = some (l.unhung m.width)) ∧
      (l.unhung m.width).text = if Text.isBlank s then [] else s := by
  have space : isSpace ' ' := by decide
  have blank : l.isBlank = Text.isBlank s := by
    rw [Line.isBlank, written, isBlank_append]
    simp [Text.isBlank, space]
  by_cases empty : Text.isBlank s
  · have here : l.isBlank := blank.trans empty
    rw [Line.unhung, if_pos here, if_pos empty]
    exact ⟨fun e => by simp [acceptItem, here, text], rfl⟩
  · have here : ¬ l.isBlank := fun h => empty (blank ▸ h)
    obtain rfl := deep empty
    have deep : m.width ≤ l.indent := by
      rw [Line.indent, written, List.takeWhile_append_of_pos (by simp)]
      simp
    rw [Line.unhung, if_neg here, if_neg empty]
    refine ⟨fun e => by simp [acceptItem, here, deep], ?_⟩
    rw [Line.strip, Line.tail, Nat.min_eq_right deep]
    simp [written]

/-- A hanging line is taken by the item as the line as it was. -/
theorem read_hungLine {raw : List Char} (untabbed : Untabbed (Line.dropCarriageReturn raw))
    (filled : Text.isBlank (Line.dropCarriageReturn raw) → Line.dropCarriageReturn raw = [])
    {m : Marker} (text : m.empty = false) (offset : Nat) :
    let l : Line := ⟨Line.expandTabs 0 (Line.dropCarriageReturn (hungLine m.width raw)), offset⟩
    (∀ e, acceptItem m e l = some (l.unhung m.width)) ∧
      (l.unhung m.width).text = Line.expandTabs 0 (Line.dropCarriageReturn raw) := by
  intro l
  rw [Line.expandTabs_eq untabbed]
  generalize hs : Line.dropCarriageReturn raw = s at untabbed filled ⊢
  obtain ⟨k, written, full⟩ : ∃ k, l.text = List.replicate k ' ' ++ s ∧ (s ≠ [] → k = m.width) := by
    by_cases empty : raw = []
    · obtain rfl : [] = s := by rw [← hs, empty]; rfl
      exact ⟨0, by simp only [l, empty]; rfl, fun h => absurd rfl h⟩
    · have text : Line.dropCarriageReturn (hungLine m.width raw) =
          List.replicate m.width ' ' ++ s := by
        rw [hungLine, if_neg (by simpa using empty), Line.dropCarriageReturn_append _ empty, hs]
      refine ⟨m.width, ?_, fun _ => rfl⟩
      simp only [l, text]
      exact Line.expandTabs_eq (Line.untabbed_spaces _ untabbed) 0
  have deep : ¬ Text.isBlank s → k = m.width := by
    intro notBlank
    refine full ?_
    rintro rfl
    exact notBlank rfl
  obtain ⟨accepted, bare⟩ := accept_unhung text written deep
  refine ⟨accepted, bare.trans ?_⟩
  split
  · rename_i blank
    exact (filled blank).symm
  · rfl

/-- An item that takes all lines, the last of them not blank, is the only one of its list. -/
theorem takeItems_accepted {m : Marker} {l : Line} {bare : Line → Line} {ls : List Line}
    (accepted : ∀ k ∈ ls, ∀ e, acceptItem m e k = some (bare k))
    (last : (l.tail m.width :: ls.map bare).getLast?.any Line.isBlank = false) :
    takeItems m l ls = ⟨[l.tail m.width :: ls.map bare], [], false, false⟩ := by
  have last : (ls.map bare).getLast?.any Line.isBlank = false := by
    cases h : ls.map bare with
    | nil => rfl
    | cons k ks => rwa [h, List.getLast?_cons_cons] at last
  have found : collect (acceptItem m) (({} : OpenEnd).push (l.tail m.width)) (ls ++ []) = _ :=
    collect_accepted accepted (by simp) _
  rw [List.append_nil] at found
  have item : takeItem m l ls = ⟨l.tail m.width :: ls.map bare, [], false⟩ := by
    rw [takeItem, found, dropEndWhile_eq_self last]
    simp
  rw [takeItems_none (by rw [item]; rfl), item]

section Hanging

variable {type : ListType} {start : Nat} {alternate : Bool} {n : Nat} {source : List Char}

/-- The lines of hanging text: the first has the marker in front, and the item takes the others.
Inside they are the lines of the text. -/
theorem ofSource_hang (hangs : Hangs (itemMarker type start alternate n) source) :
    let marker := writtenMarker type start alternate n
    ∃ (s : List Char) (l : Line) (ls : List Line), (Line.texts source).head? = some s ∧
      l = ⟨itemMarker type start alternate n ++ s, 0⟩ ∧
      Line.ofSource (hang (itemMarker type start alternate n) source) = l :: ls ∧
      (∀ k ∈ ls, ∀ e, acceptItem marker e k = some (k.unhung marker.width)) ∧
      AllElsewhere (fun _ _ => True) (Line.ofSource source)
        (l.tail marker.width :: ls.map (Line.unhung marker.width)) := by
  intro marker
  obtain ⟨raw, more, cut⟩ := List.exists_cons_of_ne_nil (List.splitOn_ne_nil '\n' source)
  have texts : Line.texts source =
      Line.dropCarriageReturn raw :: more.map Line.dropCarriageReturn := by
    rw [Line.texts, cut, List.map_cons]
  obtain ⟨filled, -⟩ := hangs.first (Line.dropCarriageReturn raw) (by rw [texts]; rfl)
  have nonempty : raw ≠ [] := by
    rintro rfl
    exact filled rfl
  have some_source : source ≠ [] := by
    rintro rfl
    cases cut
    exact nonempty rfl
  have untabbed := hangs.untabbed
  have blanks := hangs.filled
  rw [texts, List.forall_mem_cons] at untabbed blanks
  have each : ∀ k ∈ more, ∀ offset, _ := fun k hk =>
    read_hungLine (m := marker) (untabbed.2 _ (List.mem_map_of_mem hk))
      (blanks.2 _ (List.mem_map_of_mem hk)) rfl
  let after := utf8Length (itemMarker type start alternate n ++ raw) + 1
  refine ⟨Line.dropCarriageReturn raw, _, Line.number after (more.map (hungLine marker.width)),
    by rw [texts]; rfl, rfl, ?_, ?_, ?_⟩
  · rw [Line.ofSource, splitOn_hang (oneLine_itemMarker type start alternate n) some_source cut,
      Line.number, Line.dropCarriageReturn_append _ nonempty,
      Line.expandTabs_eq (untabbed_itemMarker _), Nat.zero_add]
    rfl
  · intro k hk e
    obtain ⟨raw', mem, offset, rfl⟩ := Line.exists_raw hk
    obtain ⟨raw', hr, rfl⟩ := List.mem_map.mp mem
    exact (each raw' hr offset).1 e
  · rw [Line.ofSource, cut, Line.number]
    refine .cons ⟨?_, trivial⟩
      (Line.number_elsewhere (fun k hk offset => (each k hk offset).2) _ _)
    rw [Line.expandTabs_eq untabbed.1]
    simp [Line.tail, marker, writtenMarker]

/-- No blank line is the last of hanging text. -/
theorem Hangs.getLast?_ofSource {marker : List Char} (hangs : Hangs marker source) :
    (Line.ofSource source).getLast?.any Line.isBlank = false := by
  have last : ((Line.ofSource source).map Line.text).getLast?.any Text.isBlank = false := by
    rw [Line.map_text_ofSource hangs.untabbed]
    cases h : (Line.texts source).getLast? with
    | none => rfl
    | some s =>
      have filled := hangs.last s h
      exact Bool.eq_false_iff.mpr fun blank =>
        filled (hangs.filled s (List.mem_of_getLast? h) blank)
  rwa [List.getLast?_map, Option.any_map] at last

/-- Hanging text is read as a list of one item, of the lines of the text. -/
theorem parseBlocks_hang (o : ParseOptions) (limit : 0 < o.maxNesting)
    (room : start + n ≤ Marker.maxStart)
    (hangs : Hangs (itemMarker type start alternate n) source) :
    ∃ lines, AllElsewhere (fun _ _ => True) (Line.ofSource source) lines ∧
      let inside := parseBlocks o 1 false false lines
      readSource o (hang (itemMarker type start alternate n) source) =
        .within (.list type (firstNumber type (start + n)) (!inside.loose)) false
          (.within .item inside.loose inside {}) {} := by
  obtain ⟨s, l, ls, first, rfl, cut, accepted, same⟩ := ofSource_hang hangs
  obtain ⟨filled, column⟩ := hangs.first s first
  have notBlank : ¬ Text.isBlank s := fun blank =>
    filled (hangs.filled s (List.mem_of_mem_head? first) blank)
  have last := hangs.getLast?_ofSource
  rw [getLast?_collected (same.imp fun _ _ h => h.isBlank_eq)] at last
  have read : Marker.read? ⟨itemMarker type start alternate n ++ s, 0⟩ = _ :=
    read?_itemMarker (fun _ => room) notBlank column
  have taken := take_itemMarker read (hangs.noRule s first) ls
  refine ⟨_, same, ?_⟩
  rw [readSource, cut, parseBlocks_cons ls (Marker.not_isBlank_of_read? read), taken,
    Layout.takeList, takeItems_accepted accepted last, parseBlocks_nil]
  rw [blockThen, if_neg (Nat.not_le.mpr limit), parseItems, parseItems]
  dsimp only
  rw [loose_within]
  rfl

end Hanging

/-- Text that hangs under the marker of an item is the only item of a list, and is in it what it is
by itself.  The list is tight unless blank lines separate the blocks of the text, which begin at the
`blockStarts` of its lines. -/
theorem parse_hang (smart : Bool) (m : Nat) {type : ListType} {start : Nat} {alternate : Bool}
    {n : Nat} (room : start + n ≤ Marker.maxStart) {source : String}
    (hangs : Hangs (itemMarker type start alternate n) source.toList) :
    (parse ⟨smart, m + 1⟩
        (String.ofList (hang (itemMarker type start alternate n) source.toList))).toOption =
      ((parse ⟨smart, m⟩ source).toOption.map fun t =>
        .node .document
          [.node (.list type (firstNumber type (start + n))
              (!separated (Line.ofSource source.toList)))
            [.node .item t.children]]) ∧
    ∀ t, parse ⟨smart, m⟩ source = .ok t →
      (blockStarts (Line.ofSource source.toList)).length = t.children.length := by
  obtain ⟨lines, elsewhere, read⟩ :=
    parseBlocks_hang ⟨smart, m + 1⟩ (Nat.succ_pos m) room hangs
  have same := elsewhere_inside smart m elsewhere
  constructor
  · rw [parse, String.toList_ofList, read, toOption_document_within, toOption_document_within,
      Option.map_map, ← same.toOption_document_eq, ← same.loose]
    change Option.map _ (parse ⟨smart, m⟩ source).toOption = _
    cases made : parse ⟨smart, m⟩ source with
    | error e => rfl
    | ok t =>
      have loose : (readSource ⟨smart, m⟩ source.toList).loose = _ :=
        loose_parseBlocks (parse_eq_ok.mp made).1
      rw [loose]
      rfl
  · intro t made
    obtain ⟨whole, rfl⟩ := parse_eq_ok.mp made
    exact length_blockStarts _ whole

/-- Lines that look like items, fences, quotes, code and lazy ones. -/
def hangingSource : String :=
  "# a\n\n- b\n12) c\n\n      code\r\n> d\nlazy\n<p>\n\n~~~\n- e"

theorem parse_hang_mixed :
    7 + 5 ≤ Marker.maxStart ∧ Hangs (itemMarker .ordered 7 true 5) hangingSource.toList ∧
      (parse ⟨true, 3⟩
          (String.ofList (hang (itemMarker .ordered 7 true 5) hangingSource.toList))).toOption =
        ((parse ⟨true, 2⟩ hangingSource).toOption.map fun t =>
          .node .document
            [.node (.list .ordered 12 (!separated (Line.ofSource hangingSource.toList)))
              [.node .item t.children]]) ∧
      ∀ t, parse ⟨true, 2⟩ hangingSource = .ok t →
        (blockStarts (Line.ofSource hangingSource.toList)).length = t.children.length := by
  have room : 7 + 5 ≤ Marker.maxStart := by decide
  have hangs : Hangs (itemMarker .ordered 7 true 5) hangingSource.toList :=
    ⟨by decide, by decide, by decide, by decide, by decide⟩
  exact ⟨room, hangs, parse_hang true 2 room hangs⟩

end MarkdownForest
