/-
# MarkdownForest.Proofs.ListRuns -- lists one after the other

A document of lists is written with a blank line between any two of them, and with the
alternate marker for a list behind one of its type that has the other.  The items hold
one text each, so each is one row: its marker and the escaped text.

* `read?_textRow`, `isRule_textRow`: a row begins an item of its list, whatever the text;
* `takeItems_textRows`: a list takes its rows and the blank line behind them, and ends in
  front of a marker of another type or with another delimiter;
* `beginsOther_next`: such a marker is the first of the list behind it;
* `write_lists`: the lines of the document are the rows of its lists (`docRows`).

So the rows of one list become the list (`parseBlocks_textList`), whatever is behind
them, `parseBlocks_lists` is the induction on the lists, and
`Forest.run_lists_read_back` says it of documents in forests.
-/
import MarkdownForest.Proofs.ContainedSources
import MarkdownForest.Proofs.SpacedItems

namespace MarkdownForest

set_option autoImplicit false

open Text CommonMark
open Line (Trimmed Verbatim)

/-! ## Rows -/

/-- The row of an item with one text. -/
def textRow (type : ListType) (start : Nat) (alternate : Bool) (n : Nat) (s : String) : List Char :=
  itemMarker type start alternate n ++ escapeLineStart s.toList

section Row

variable {type : ListType} {start : Nat} {alternate : Bool} {n : Nat} {s : String} {l : Line}

/-- A row begins in the first column. -/
theorem rest_textRow (here : l.text = textRow type start alternate n s) :
    l.indent = 0 ∧ l.rest = textRow type start alternate n s := by
  obtain ⟨c, t, begins, apart⟩ := exists_itemMarker type start alternate n
  have space : c ≠ ' ' := List.ne_of_not_mem_cons apart
  obtain ⟨text, offset⟩ := l
  obtain rfl : text = textRow type start alternate n s := here
  rw [textRow, begins]
  exact ⟨Line.indent_of_first space, Line.rest_of_first space⟩

/-- A row begins an item. -/
theorem read?_textRow (room : type = .ordered → start + n ≤ Marker.maxStart)
    (trimmed : Trimmed s.toList) (here : l.text = textRow type start alternate n s) :
    Marker.read? l = some (writtenMarker type start alternate n) := by
  have line := (Line.goesOn_escapeLineStart trimmed).trimmed
  obtain ⟨c, t, begins, full⟩ := line.first
  have space : c ≠ ' ' := ne_of_class full (by decide)
  obtain ⟨text, offset⟩ := l
  obtain rfl : text = textRow type start alternate n s := here
  exact read?_itemMarker room (line.not_blank 0) (by simpa [begins] using space)

/-- A row is no rule. -/
theorem isRule_textRow (trimmed : Trimmed s.toList) :
    isRule (textRow type start alternate n s) = false := by
  obtain ⟨c, t, begins, inert⟩ := (Line.goesOn_escapeLineStart trimmed).inert.first
  have apart : ∀ m, Line.isInert m = false → c ≠ m := fun m hm => ne_of_class inert hm
  have mem : c ∈ textRow type start alternate n s := by
    rw [textRow, begins]
    exact List.mem_append_right _ List.mem_cons_self
  exact Line.isRule_of_mem mem ⟨apart ' ' (by decide), apart '\t' (by decide),
    apart '*' (by decide), apart '-' (by decide), apart '_' (by decide)⟩

theorem take_textRow (room : type = .ordered → start + n ≤ Marker.maxStart)
    (trimmed : Trimmed s.toList) (here : l.text = textRow type start alternate n s)
    (ls : List Line) :
    Layout.take l ls = Layout.takeList (writtenMarker type start alternate n) l ls := by
  have read := read?_textRow room trimmed here
  obtain ⟨text, offset⟩ := l
  obtain rfl : text = textRow type start alternate n s := here
  exact take_itemMarker read (isRule_textRow trimmed) ls

/-- Behind its marker stands the text of the item. -/
theorem text_tail_textRow (here : l.text = textRow type start alternate n s) :
    (l.tail (writtenMarker type start alternate n).width).text = escapeLineStart s.toList := by
  rw [Line.tail, here]
  exact List.drop_left

theorem verbatim_textRow (trimmed : Trimmed s.toList) :
    Verbatim (textRow type start alternate n s) := by
  have line := (Line.goesOn_escapeLineStart trimmed).trimmed
  refine ⟨?_, untabbed_itemMarker _, ?_⟩
  · rw [textRow, List.mem_append, not_or]
    exact ⟨oneLine_itemMarker type start alternate n, line.oneLine⟩
  · rw [textRow, List.getLast?_append_of_ne_nil _ line.ne_nil]
    exact line.verbatim.noReturn

/-- Items of one list have the same type and delimiter, those of another do not. -/
theorem sameList_writtenMarker (type type' : ListType) (start start' : Nat)
    (alternate alternate' : Bool) (n n' : Nat) :
    Marker.sameList (writtenMarker type start alternate n)
        (writtenMarker type' start' alternate' n') =
      (type == type' && alternate == alternate') := by
  cases type <;> cases type' <;> cases alternate <;> cases alternate' <;> rfl

end Row

/-! ## The rows of a list -/

/-- The rows of items from place `n` on.  In a loose list a blank line is in front of each but the
first. -/
def listRows (type : ListType) (start : Nat) (alternate tight : Bool) (n : Nat) :
    List String → List (List Char)
  | [] => []
  | s :: ss =>
    (if n = 0 || tight then [] else [[]]) ++
      textRow type start alternate n s :: listRows type start alternate tight (n + 1) ss

/-- A line that begins a list of another type or with another delimiter. -/
structure BeginsOther (type : ListType) (alternate : Bool) (k : Line) : Prop where
  flush : k.indent = 0
  marker : ∃ m, Marker.read? k = some m ∧
    ∀ start n, Marker.sameList (writtenMarker type start alternate n) m = false

/-- What a list takes: one line for each text, and the blank line behind the last. -/
structure TakesRows (spaced : Bool) (ss : List String) (rest : List Line) (taken : ListLines) :
    Prop where
  items : taken.items.map (List.map Line.text) = ss.map fun s => [escapeLineStart s.toList]
  rest : taken.rest = rest
  spaced : taken.spaced = spaced
  trailingBlank : taken.trailingBlank = true

section Take

variable {type : ListType} {start : Nat} {alternate tight : Bool} {n : Nat} {s u : String}
  {ss : List String} {b k l : Line} {ks ls rest : List Line}

theorem width_writtenMarker_pos : 0 < (writtenMarker type start alternate n).width := by
  obtain ⟨front, ends⟩ := exists_eq_itemMarker type start alternate n
  change 0 < (itemMarker type start alternate n).length
  rw [ends, List.length_append]
  exact Nat.lt_add_left _ Nat.one_pos

/-- The row of an item goes on with the list of another one, and is in no item of it. -/
theorem textRow_goesOn (room : type = .ordered → start + n ≤ Marker.maxStart)
    (trimmed : Trimmed s.toList) (here : l.text = textRow type start alternate n s) (n' : Nat)
    (ls : List Line) :
    (∀ k ∈ (l :: ls).head?, ∀ e, acceptItem (writtenMarker type start alternate n') e k = none) ∧
      nextItem? (writtenMarker type start alternate n') (l :: ls) =
        some (writtenMarker type start alternate n, l, ls) := by
  obtain ⟨flush, row⟩ := rest_textRow here
  have read := read?_textRow room trimmed here
  have same : Marker.sameList (writtenMarker type start alternate n')
      (writtenMarker type start alternate n) := by
    simp [sameList_writtenMarker]
  constructor
  · intro k first e
    obtain rfl := Option.some.inj first
    refine acceptItem_marked read ?_ (.inl same)
    rw [flush]
    exact width_writtenMarker_pos
  · rw [nextItem?, read, row, isRule_textRow trimmed]
    simp [same]

/-- The last item of a list, in front of a blank line and what begins another list. -/
theorem TakesRows.last (here : l.text = textRow type start alternate n s) (blank : b.isBlank)
    (other : ∀ k ∈ rest.head?, BeginsOther type alternate k) :
    TakesRows false [s] rest
      (takeItems (writtenMarker type start alternate n) l (b :: rest)) := by
  have item : takeItem (writtenMarker type start alternate n) l (b :: rest) =
      ⟨[l.tail (writtenMarker type start alternate n).width], rest, true⟩ := by
    refine takeItem_blank blank rfl fun k hk e closed => ?_
    obtain ⟨flush, m, read, -⟩ := other k hk
    refine acceptItem_marked read ?_ (.inr closed)
    rw [flush]
    exact width_writtenMarker_pos
  have ends : nextItem? (writtenMarker type start alternate n) rest = none := by
    cases rest with
    | nil => rfl
    | cons k rest =>
      obtain ⟨-, m, read, different⟩ := other k rfl
      rw [nextItem?, read]
      simp [different]
  have none : nextItem? (writtenMarker type start alternate n)
      (takeItem (writtenMarker type start alternate n) l (b :: rest)).rest = none := by
    rw [item]
    exact ends
  rw [takeItems_none none, item]
  constructor
  · simp [text_tail_textRow here]
  · rfl
  · rfl
  · rfl

/-- An item in front of the others of its list. -/
theorem TakesRows.cons {spaced more : Bool} (here : l.text = textRow type start alternate n s)
    (item : takeItem (writtenMarker type start alternate n) l ls =
      ⟨[l.tail (writtenMarker type start alternate n).width], k :: ks, spaced⟩)
    (next : nextItem? (writtenMarker type start alternate n) (k :: ks) =
      some (writtenMarker type start alternate (n + 1), k, ks))
    (h : TakesRows more ss rest (takeItems (writtenMarker type start alternate (n + 1)) k ks)) :
    TakesRows (spaced || more) (s :: ss) rest
      (takeItems (writtenMarker type start alternate n) l ls) := by
  have goesOn : nextItem? (writtenMarker type start alternate n)
      (takeItem (writtenMarker type start alternate n) l ls).rest =
        some (writtenMarker type start alternate (n + 1), k, ks) := by
    rw [item]
    exact next
  rw [takeItems_some goesOn, item]
  constructor
  · simp [h.items, text_tail_textRow here]
  · exact h.rest
  · simp [h.spaced]
  · exact h.trailingBlank

/-- A list takes its rows, and the blank line behind them. -/
theorem takeItems_textRows (room : type = .ordered → start + n + ss.length ≤ Marker.maxStart)
    (trimmed : ∀ u ∈ s :: ss, Trimmed u.toList) (here : l.text = textRow type start alternate n s)
    (below : ls.map Line.text = listRows type start alternate tight (n + 1) ss)
    (blank : b.isBlank) (other : ∀ k ∈ rest.head?, BeginsOther type alternate k) :
    TakesRows (!tight && !ss.isEmpty) (s :: ss) rest
      (takeItems (writtenMarker type start alternate n) l (ls ++ b :: rest)) := by
  induction ss generalizing n s l ls with
  | nil =>
    obtain rfl := List.map_eq_nil_iff.mp below
    have last := TakesRows.last here blank other
    simpa using last
  | cons u us ih =>
    obtain ⟨-, more⟩ := List.forall_mem_cons.mp trimmed
    obtain ⟨next, -⟩ := List.forall_mem_cons.mp more
    have roomMore : type = .ordered → start + (n + 1) + us.length ≤ Marker.maxStart := by
      intro ordered
      have := room ordered
      rw [List.length_cons] at this
      omega
    have roomNext : type = .ordered → start + (n + 1) ≤ Marker.maxStart := fun ordered =>
      (Nat.le_add_right _ us.length).trans (roomMore ordered)
    have spaced : (!tight && !(u :: us).isEmpty) = (!tight || (!tight && !us.isEmpty)) := by
      cases tight <;> rfl
    rw [spaced]
    cases tight with
    | true =>
      obtain ⟨k, ks, rfl, row, below⟩ := List.map_eq_cons_iff.mp below
      obtain ⟨refused, goesOn⟩ := textRow_goesOn roomNext next row n (ks ++ b :: rest)
      exact .cons here (takeItem_refused fun k first e _ => refused k first e) goesOn
        (ih roomMore more row below)
    | false =>
      obtain ⟨c, cs, rfl, empty, behind⟩ := List.map_eq_cons_iff.mp below
      obtain ⟨k, ks, rfl, row, below⟩ := List.map_eq_cons_iff.mp behind
      have isBlank : c.isBlank := by
        rw [Line.isBlank, empty]
        rfl
      obtain ⟨refused, goesOn⟩ := textRow_goesOn roomNext next row n (ks ++ b :: rest)
      exact .cons here (takeItem_blank isBlank rfl fun k first e _ => refused k first e) goesOn
        (ih roomMore more row below)

end Take

/-! ## Written lists -/

/-- An item with a paragraph of one text. -/
def textItem (s : String) : Tree :=
  .node .item [.node .paragraph [.leaf (.text s)]]

/-- A list of such items.  A loose one has two of them, for a blank line to stand between; bullets
are not counted, which shows as one; the greatest number has at most nine digits. -/
structure TextList where
  type : ListType
  start : Nat
  tight : Bool
  texts : List String
  filled : texts ≠ []
  spaced : tight = false → 2 ≤ texts.length
  trimmed : ∀ s ∈ texts, Trimmed s.toList
  uncounted : type = .bullet → start = 1
  numbered : type = .ordered → start + texts.length ≤ Marker.maxStart + 1

namespace TextList

def tree (L : TextList) : Tree :=
  .node (.list L.type L.start L.tight) (L.texts.map textItem)

/-- The rows of the list, with the alternate marker or not. -/
def rows (L : TextList) (alternate : Bool) : List (List Char) :=
  listRows L.type L.start alternate L.tight 0 L.texts

/-- The first row and those below it. -/
theorem exists_rows (L : TextList) (alternate : Bool) :
    ∃ s ss, L.texts = s :: ss ∧ L.rows alternate =
      textRow L.type L.start alternate 0 s ::
        listRows L.type L.start alternate L.tight 1 ss := by
  obtain ⟨s, ss, texts⟩ := List.exists_cons_of_ne_nil L.filled
  refine ⟨s, ss, texts, ?_⟩
  rw [rows, texts]
  rfl

end TextList

section Items

variable {type : ListType} {start : Nat} {alternate tight : Bool} {n : Nat} {s : String}
  {ss : List String}

theorem hang_line {body : List Char} (trimmed : Trimmed body) (marker : List Char) :
    hang marker body = marker ++ body := by
  have filled : body.isEmpty = false := by simpa using trimmed.ne_nil
  simp [hang, filled, List.splitOn_eq_singleton trimmed.oneLine]

theorem itemsText_cons (trimmed : Trimmed s.toList) (items : List Tree) :
    itemsText type start alternate tight n (textItem s :: items) =
      (if n = 0 then [] else if tight then ['\n'] else ['\n', '\n']) ++
        (textRow type start alternate n s ++
          itemsText type start alternate tight (n + 1) items) := by
  have line := (Line.goesOn_escapeLineStart trimmed).trimmed
  have body : blocksText tight {} [.node .paragraph [.leaf (.text s)]] =
      escapeLineStart s.toList := by
    rw [← inlineText_text trimmed]
    simp [blocksText, blockText]
  rw [textItem, itemsText, body, hang_line line, textRow]
  simp only [List.append_assoc]

/-- Further items are written as their rows, each behind a line feed. -/
theorem itemsText_below (trimmed : ∀ s ∈ ss, Trimmed s.toList) (n : Nat) :
    itemsText type start alternate tight (n + 1) (ss.map textItem) ++ ['\n'] =
      '\n' :: endedLines (listRows type start alternate tight (n + 1) ss) := by
  induction ss generalizing n with
  | nil => rfl
  | cons s ss ih =>
    obtain ⟨here, more⟩ := List.forall_mem_cons.mp trimmed
    rw [List.map_cons, itemsText_cons here, List.append_assoc, List.append_assoc, ih more, listRows]
    cases tight <;> simp [endedLines]

/-- Written items end with the last character of the last text. -/
theorem getLast?_itemsText (filled : ss ≠ []) (trimmed : ∀ s ∈ ss, Trimmed s.toList) (n : Nat) :
    ∃ c, (itemsText type start alternate tight n (ss.map textItem)).getLast? = some c ∧
      isSpace c = false := by
  induction ss generalizing n with
  | nil => exact absurd rfl filled
  | cons s ss ih =>
    obtain ⟨here, more⟩ := List.forall_mem_cons.mp trimmed
    rw [List.map_cons, itemsText_cons here, List.getLast?_append, List.getLast?_append]
    by_cases last : ss = []
    · obtain ⟨c, t, e, full⟩ := here.last
      refine ⟨c, ?_, full⟩
      rw [last, List.map_nil, itemsText, textRow, List.getLast?_append, getLast?_escapeLineStart, e]
      simp
    · obtain ⟨c, e, full⟩ := ih last more (n + 1)
      exact ⟨c, by rw [e]; rfl, full⟩

end Items

namespace TextList

variable (L : TextList)

theorem blockText_tree (alternate : Bool) :
    blockText alternate L.tree ++ ['\n'] = endedLines (L.rows alternate) := by
  obtain ⟨s, ss, texts, rows⟩ := L.exists_rows alternate
  have trimmed := L.trimmed
  rw [texts] at trimmed
  obtain ⟨here, more⟩ := List.forall_mem_cons.mp trimmed
  rw [rows, tree, texts, blockText, List.map_cons, itemsText_cons here, List.append_assoc,
    List.append_assoc, itemsText_below more, endedLines_cons]
  rfl

/-! ## Documents of lists -/

/-- The sequence of blocks with one more list. -/
def after (alternate : Bool) : Sequence :=
  ⟨some .list, some L.type, alternate⟩

end TextList

/-- The rows of lists behind a sequence of blocks, with a blank line behind each list. -/
def docRows (q : Sequence) : List TextList → List (List Char)
  | [] => []
  | L :: more =>
    L.rows (q.alternates L.tree) ++ [] :: docRows (L.after (q.alternates L.tree)) more

theorem docRows_ne_nil (q : Sequence) (L : TextList) (more : List TextList) :
    docRows q (L :: more) ≠ [] := by
  simp [docRows]

theorem blocksText_cons (q : Sequence) (L : TextList) (ts : List Tree) :
    blocksText false q (L.tree :: ts) =
      (if q.previous.isSome then ['\n', '\n'] else []) ++
        (blockText (q.alternates L.tree) L.tree ++
          blocksText false (L.after (q.alternates L.tree)) ts) := by
  have after : (⟨some L.tree.kind, listTypeOf? L.tree, q.alternates L.tree⟩ : Sequence) =
      L.after (q.alternates L.tree) := rfl
  rw [blocksText, after]
  cases q.previous <;> simp [separator]

/-- Lists are written on their rows. -/
theorem blocksText_lists (q : Sequence) (L : TextList) (more : List TextList) :
    blocksText false q ((L :: more).map TextList.tree) ++ ['\n'] =
      (if q.previous.isSome then ['\n', '\n'] else []) ++
        List.intercalate ['\n'] (docRows q (L :: more)) := by
  induction more generalizing q L with
  | nil =>
    have rows : docRows q [L] = L.rows (q.alternates L.tree) ++ [[]] := rfl
    rw [rows, intercalate_closed, ← L.blockText_tree]
    simp [blocksText_cons, blocksText]
  | cons M more ih =>
    have rows : docRows q (L :: M :: more) = L.rows (q.alternates L.tree) ++
        [] :: docRows (L.after (q.alternates L.tree)) (M :: more) := rfl
    rw [rows, intercalate_append (List.cons_ne_nil _ _),
      List.intercalate_cons_of_ne_nil (docRows_ne_nil _ M more), ← L.blockText_tree, List.map_cons,
      blocksText_cons, List.append_assoc, List.append_assoc, ih]
    simp [TextList.after]

theorem getLast?_blocksText (q : Sequence) (L : TextList) (more : List TextList) :
    ∃ c, (blocksText false q ((L :: more).map TextList.tree)).getLast? = some c ∧
      isSpace c = false := by
  induction more generalizing q L with
  | nil =>
    have last : ∃ c, (itemsText L.type L.start (q.alternates L.tree) L.tight 0
        (L.texts.map textItem)).getLast? = some c ∧ isSpace c = false :=
      getLast?_itemsText L.filled L.trimmed 0
    obtain ⟨c, e, full⟩ := last
    have text : blockText (q.alternates L.tree) L.tree =
        itemsText L.type L.start (q.alternates L.tree) L.tight 0 (L.texts.map textItem) := by
      rw [TextList.tree, blockText]
    refine ⟨c, ?_, full⟩
    rw [List.map_singleton, blocksText_cons, blocksText, List.append_nil, text,
      List.getLast?_append, e]
    rfl
  | cons M more ih =>
    obtain ⟨c, e, full⟩ := ih (L.after (q.alternates L.tree)) M
    refine ⟨c, ?_, full⟩
    rw [List.map_cons, blocksText_cons, List.getLast?_append, List.getLast?_append, e]
    rfl

/-- A document of lists is the rows of all of them. -/
theorem write_lists (L : TextList) (more : List TextList) :
    write (.node .document ((L :: more).map TextList.tree)) =
      String.ofList (List.intercalate ['\n'] (docRows {} (L :: more))) := by
  have text := blocksText_lists {} L more
  obtain ⟨c, last, full⟩ := getLast?_blocksText {} L more
  have ended : endLine (blocksText false {} ((L :: more).map TextList.tree)) =
      List.intercalate ['\n'] (docRows {} (L :: more)) := by
    rw [endLine_of_last last full, text]
    rfl
  rw [write, writeBefore, ← ended]
  rfl

/-! ## Reading the lists -/

theorem verbatim_listRows {type : ListType} {start : Nat} {alternate tight : Bool}
    {ss : List String} (trimmed : ∀ s ∈ ss, Trimmed s.toList) (n : Nat) :
    ∀ row ∈ listRows type start alternate tight n ss, Verbatim row := by
  induction ss generalizing n with
  | nil => nofun
  | cons s ss ih =>
    obtain ⟨here, more⟩ := List.forall_mem_cons.mp trimmed
    intro row mem
    rcases List.mem_append.mp mem with blank | mem
    · split at blank
      · cases blank
      · rw [List.mem_singleton.mp blank]
        exact verbatim_nil
    · rcases List.mem_cons.mp mem with rfl | mem
      · exact verbatim_textRow here
      · exact ih more (n + 1) row mem

theorem verbatim_docRows (q : Sequence) (lists : List TextList) :
    ∀ row ∈ docRows q lists, Verbatim row := by
  induction lists generalizing q with
  | nil => nofun
  | cons L more ih =>
    intro row mem
    rcases List.mem_append.mp mem with mem | mem
    · exact verbatim_listRows L.trimmed 0 row mem
    · rcases List.mem_cons.mp mem with rfl | mem
      · exact verbatim_nil
      · exact ih _ row mem

theorem TextList.numbered_first (L : TextList) (ordered : L.type = .ordered) :
    L.start + 0 ≤ Marker.maxStart := by
  have := L.numbered ordered
  have := List.length_pos_iff.mpr L.filled
  omega

/-- A list takes the alternate marker exactly behind one of its type that has the other. -/
theorem alternates_after (L M : TextList) (alternate : Bool) :
    (L.after alternate).alternates M.tree = (M.type == L.type && !alternate) :=
  rfl

/-- Behind a list the next one has another type, or the other marker. -/
theorem beginsOther_next (L : TextList) (alternate : Bool) {lists : List TextList}
    {ls : List Line} (rows : ls.map Line.text = docRows (L.after alternate) lists) :
    ∀ k ∈ ls.head?, BeginsOther L.type alternate k := by
  intro k first
  cases lists with
  | nil =>
    obtain rfl := List.map_eq_nil_iff.mp rows
    cases first
  | cons M more =>
    obtain ⟨s, ss, texts, own⟩ := M.exists_rows ((L.after alternate).alternates M.tree)
    rw [docRows, own, List.cons_append] at rows
    obtain ⟨l, ls, rfl, here, -⟩ := List.map_eq_cons_iff.mp rows
    obtain rfl := Option.some.inj first
    have trimmed : Trimmed s.toList := M.trimmed s (texts ▸ List.mem_cons_self)
    have read := read?_textRow M.numbered_first trimmed here
    refine ⟨(rest_textRow here).1, _, read, fun start n => ?_⟩
    rw [sameList_writtenMarker, alternates_after]
    cases L.type <;> cases M.type <;> cases alternate <;> rfl

section Read

variable {o : ParseOptions}

/-- The lines of the items become the items. -/
theorem parseItems_texts (smart : o.smart = false) (depth : Nat) {ss : List String}
    (trimmed : ∀ s ∈ ss, Trimmed s.toList) {items : List (List Line)}
    (rows : items.map (List.map Line.text) = ss.map fun s => [escapeLineStart s.toList]) :
    parseItems o depth items = { trees := ss.map textItem } := by
  have texts : ∀ t ∈ ss.map String.toList, IsItemText t := by
    intro t ht
    obtain ⟨s, hs, rfl⟩ := List.mem_map.mp ht
    exact .inr (trimmed s hs)
  have filled : ∀ s ∈ ss, s.toList.isEmpty = false := fun s hs => by
    simpa using (trimmed s hs).ne_nil
  have row : ∀ s ∈ ss, escapeLineStart s.toList = itemText s.toList := fun s hs => by
    rw [itemText, filled s hs]
    rfl
  have tree : ∀ s ∈ ss, itemTree o.smart s.toList = textItem s := fun s hs => by
    rw [itemTree, filled s hs, smart, textItem]
    simp
  have same : items.map (List.map Line.text) =
      (ss.map String.toList).map fun t => [itemText t] := by
    rw [rows, List.map_map]
    exact List.map_congr_left fun s hs => congrArg (fun t => [t]) (row s hs)
  have trees : ss.map (itemTree o.smart ∘ String.toList) = ss.map textItem :=
    List.map_congr_left tree
  rw [parseItems_rows depth texts same, List.map_map, trees]

/-- A list takes its rows and the blank line behind them. -/
theorem TextList.takeItems_rows (L : TextList) {alternate : Bool} {b l : Line} {ls rest : List Line}
    (rows : (l :: ls).map Line.text = L.rows alternate) (blank : b.isBlank)
    (other : ∀ k ∈ rest.head?, BeginsOther L.type alternate k) :
    TakesRows (!L.tight) L.texts rest
      (takeItems (writtenMarker L.type L.start alternate 0) l (ls ++ b :: rest)) := by
  obtain ⟨s, ss, texts, split⟩ := L.exists_rows alternate
  obtain ⟨here, below⟩ := List.cons.inj (rows.trans split)
  have trimmed := L.trimmed
  have numbered := L.numbered
  have enough := L.spaced
  rw [texts] at trimmed numbered enough ⊢
  have room : L.type = .ordered → L.start + 0 + ss.length ≤ Marker.maxStart := by
    intro ordered
    have := numbered ordered
    rw [List.length_cons] at this
    omega
  have spaced : (!L.tight && !ss.isEmpty) = !L.tight := by
    cases apart : L.tight with
    | true => rfl
    | false =>
      have two : ss ≠ [] := by
        rintro rfl
        exact absurd (enough apart) (by simp)
      simpa using two
  rw [← spaced]
  exact takeItems_textRows room trimmed here below blank other

/-- The rows of a list, with a blank line behind them, become the list. -/
theorem parseBlocks_textList (room : 0 < o.maxNesting) (smart : o.smart = false) (L : TextList)
    {alternate : Bool} {b : Line} {own rest : List Line}
    (rows : own.map Line.text = L.rows alternate) (isBlank : b.isBlank)
    (other : ∀ k ∈ rest.head?, BeginsOther L.type alternate k) (any blank : Bool) :
    parseBlocks o 0 any blank (own ++ b :: rest) =
      .cons L.tree (any && blank) (parseBlocks o 0 true true rest) := by
  obtain ⟨s, ss, texts, split⟩ := L.exists_rows alternate
  obtain ⟨l, ls, rfl, here, -⟩ := List.map_eq_cons_iff.mp (rows.trans split)
  have first : Trimmed s.toList := L.trimmed s (texts ▸ List.mem_cons_self)
  have read := read?_textRow L.numbered_first first here
  obtain ⟨items, left, spaced, ends⟩ := L.takeItems_rows rows isBlank other
  have start : (writtenMarker L.type L.start alternate 0).start = L.start := by
    cases type : L.type with
    | bullet => exact (L.uncounted type).symm
    | ordered => rfl
  rw [List.cons_append, parseBlocks_cons _ (Marker.not_isBlank_of_read? read),
    take_textRow L.numbered_first first here, Layout.takeList]
  dsimp only
  rw [blockThen, if_neg (Nat.not_le.mpr room), parseItems_texts smart 1 L.trimmed items, left,
    spaced, start, ends]
  simp [Parsed.within, TextList.tree, writtenMarker]

/-- The rows of lists become the lists. -/
theorem parseBlocks_lists (room : 0 < o.maxNesting) (smart : o.smart = false) {q : Sequence}
    {lists : List TextList} {ls : List Line} (rows : ls.map Line.text = docRows q lists)
    (any blank : Bool) :
    (parseBlocks o 0 any blank ls).trees = lists.map TextList.tree ∧
      (parseBlocks o 0 any blank ls).failure = none := by
  induction lists generalizing q ls any blank with
  | nil =>
    obtain rfl := List.map_eq_nil_iff.mp rows
    rw [parseBlocks_nil]
    exact ⟨rfl, rfl⟩
  | cons L more ih =>
    obtain ⟨own, behind, rfl, front, behindRows⟩ := List.map_eq_append_iff.mp rows
    obtain ⟨b, rest, rfl, empty, further⟩ := List.map_eq_cons_iff.mp behindRows
    have isBlank : b.isBlank := by
      rw [Line.isBlank, empty]
      rfl
    obtain ⟨trees, whole⟩ := ih further true true
    rw [parseBlocks_textList room smart L front isBlank (beginsOther_next L _ further)]
    constructor
    · rw [Parsed.cons, trees, List.map_cons]
    · exact whole

end Read

/-- A document of lists is read back from its text. -/
theorem parse_write_lists (m : Nat) (lists : List TextList) :
    parse ⟨false, m + 1⟩ (write (.node .document (lists.map TextList.tree))) =
      .ok (.node .document (lists.map TextList.tree)) := by
  cases lists with
  | nil =>
    have nothing : Tree.nesting (.node .document []) ≤ m + 1 := Nat.zero_le _
    exact parse_write_plain nofun ((Tree.nesting_le_iff _ _).mp nothing)
  | cons L more =>
    have verbatim := verbatim_docRows {} (L :: more)
    have rows : (Line.ofSource (List.intercalate ['\n'] (docRows {} (L :: more)))).map Line.text =
        docRows {} (L :: more) := by
      rw [Line.ofSource, List.splitOn_intercalate _ (fun row h => (verbatim row h).oneLine)
        (docRows_ne_nil {} L more)]
      exact Line.map_text_number verbatim 0
    obtain ⟨trees, whole⟩ :=
      parseBlocks_lists (o := ⟨false, m + 1⟩) (Nat.succ_pos m) rfl rows false false
    rw [write_lists, parse_eq_ok, String.toList_ofList, readSource, trees]
    exact ⟨whole, rfl⟩

namespace Forest

/-- A document of lists, in whatever forest, is written as text that any forest reads as a document
showing the same: every list is by itself again, with its type, its start and its items, tight or
not, whatever the texts are. -/
theorem run_lists_read_back (m : Nat) (lists : List TextList) :
    ReadsBackAs ⟨false, m + 1⟩ (.node .document (lists.map TextList.tree))
      (.node .document (lists.map TextList.tree)) :=
  readsBackAs_of_parse rfl (parse_write_lists m lists)

/-- Lists of both types one behind the other, at the least and the greatest number, with texts that
look like markers, rules, headers, fences and tags. -/
def thornyLists : List TextList :=
  [{ type := .bullet, start := 1, tight := true, texts := ["- d", "1. y", "***"], filled := by simp,
      spaced := nofun, trimmed := by decide, uncounted := fun _ => rfl, numbered := nofun },
    { type := .bullet, start := 1, tight := false, texts := ["---", "* # a"], filled := by simp,
      spaced := fun _ => by decide, trimmed := by decide, uncounted := fun _ => rfl,
      numbered := nofun },
    { type := .bullet, start := 1, tight := true, texts := ["+"], filled := by simp,
      spaced := nofun, trimmed := by decide, uncounted := fun _ => rfl, numbered := nofun },
    { type := .ordered, start := 9, tight := true, texts := ["~~~", "10) x"], filled := by simp,
      spaced := nofun, trimmed := by decide, uncounted := nofun, numbered := fun _ => by decide },
    { type := .ordered, start := 999999998, tight := false, texts := ["<div>", "> q"],
      filled := by simp, spaced := fun _ => by decide, trimmed := by decide, uncounted := nofun,
      numbered := fun _ => by decide },
    { type := .ordered, start := 0, tight := true, texts := ["0. \\"], filled := by simp,
      spaced := nofun, trimmed := by decide, uncounted := nofun, numbered := fun _ => by decide }]

theorem thornyLists_read_back :
    write (.node .document (thornyLists.map TextList.tree)) =
        "- \\- d\n- 1\\. y\n- \\*\\*\\*\n\n* \\---\n\n* \\* # a\n\n- \\+\n\n" ++
          "9. \\~~~\n10. 10\\) x\n\n999999998) \\<div>\n\n999999999) \\> q\n\n" ++
          "0. 0\\. \\\\\n" ∧
      parse ⟨false, 1⟩ (write (.node .document (thornyLists.map TextList.tree))) =
        .ok (.node .document (thornyLists.map TextList.tree)) :=
  ⟨by decide +kernel, (run_lists_read_back 0 thornyLists).1⟩

end Forest

end MarkdownForest
