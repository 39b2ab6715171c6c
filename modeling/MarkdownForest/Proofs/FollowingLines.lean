/-
# MarkdownForest.Proofs.FollowingLines -- lines that follow a block

A block that stops within its lines reads none of those that follow, and a block
that is open at a blank line stops there, unless it is code or a list.  There is
one lemma for each loop that looks ahead; `Layout.take_stops` puts them together.

So a text and another one behind a blank line are read one after the other
(`parseBlocks_append`, `parse_append`).
-/
import MarkdownForest.Proofs.Nesting
import MarkdownForest.Proofs.Placement
import MarkdownForest.Proofs.SourceLines

namespace MarkdownForest

set_option autoImplicit false

open Text

variable {ls more : List Line}

/-! ## Look-ahead -/

/-- Lines begin with a blank one, if with any. -/
def BeginsBlank (lines : List Line) : Prop :=
  ∀ l ∈ lines.head?, l.isBlank

section Loops

theorem takeWhile_stops (p : Line → Bool) (ls more : List Line)
    (stops : ls.dropWhile p ≠ [] ∨ ∀ l ∈ more.head?, p l = false) :
    (ls ++ more).takeWhile p = ls.takeWhile p ∧
      (ls ++ more).dropWhile p = ls.dropWhile p ++ more := by
  induction ls with
  | nil =>
    have refused : ∀ l ∈ more.head?, p l = false := stops.resolve_left fun h => h rfl
    cases more with
    | nil => exact ⟨rfl, rfl⟩
    | cons l more => simp [refused l rfl]
  | cons l ls ih =>
    cases hl : p l with
    | false => simp [hl]
    | true =>
      rw [List.dropWhile_cons_of_pos hl] at stops
      obtain ⟨front, rest⟩ := ih stops
      simp [hl, front, rest]

theorem collect_stops (accept : OpenEnd → Line → Option Line) (e : OpenEnd) (ls more : List Line)
    (stops : (collect accept e ls).2 ≠ [] ∨ ∀ l ∈ more.head?, ∀ e, accept e l = none) :
    collect accept e (ls ++ more) =
      ((collect accept e ls).1, (collect accept e ls).2 ++ more) := by
  induction ls generalizing e with
  | nil =>
    have refused : ∀ l ∈ more.head?, ∀ e, accept e l = none := stops.resolve_left fun h => h rfl
    cases more with
    | nil => rfl
    | cons l more => simp [collect, refused l rfl]
  | cons l ls ih =>
    cases hl : accept e l with
    | none => simp [collect, hl]
    | some inside =>
      simp only [collect, hl] at stops
      simp [collect, hl, ih _ stops]

/-- When all lines are accepted, collecting goes on with those that follow. -/
theorem collect_goesOn (accept : OpenEnd → Line → Option Line) (e : OpenEnd) (ls more : List Line)
    (all : (collect accept e ls).2 = []) :
    collect accept e (ls ++ more) =
      ((collect accept e ls).1 ++
          (collect accept ((collect accept e ls).1.foldl OpenEnd.push e) more).1,
        (collect accept ((collect accept e ls).1.foldl OpenEnd.push e) more).2) := by
  induction ls generalizing e with
  | nil => rfl
  | cons l ls ih =>
    cases hl : accept e l with
    | none => simp [collect, hl] at all
    | some inside =>
      simp only [collect, hl] at all
      simp [collect, hl, ih _ all]

theorem takeParagraph_stops (ls more : List Line)
    (stops : (takeParagraph ls).2.2 ≠ [] ∨ BeginsBlank more) :
    takeParagraph (ls ++ more) =
      ((takeParagraph ls).1, (takeParagraph ls).2.1, (takeParagraph ls).2.2 ++ more) := by
  induction ls with
  | nil =>
    have blank : BeginsBlank more := stops.resolve_left fun h => h rfl
    cases more with
    | nil => rfl
    | cons l more => simp [takeParagraph, blank l rfl]
  | cons l ls ih =>
    simp only [List.cons_append, takeParagraph] at stops ⊢
    split
    · rfl
    · rename_i filled
      split
      · rfl
      · rename_i plain
        split
        · rfl
        · rename_i goesOn
          rw [if_neg filled, plain] at stops
          dsimp only at stops
          rw [if_neg goesOn] at stops
          rw [ih stops]

end Loops

theorem acceptQuoted_blank {l : Line} (hl : l.isBlank) (e : OpenEnd) : acceptQuoted e l = none := by
  simp [acceptQuoted, Line.not_isQuoted_of_isBlank hl, hl]

/-! ## Items -/

section Items

variable {m : Marker} {l : Line}

theorem takeItem_stops (more : List Line) (stops : (takeItem m l ls).rest ≠ []) :
    takeItem m l (ls ++ more) =
      { takeItem m l ls with rest := (takeItem m l ls).rest ++ more } := by
  have found := collect_stops (acceptItem m) (({} : OpenEnd).push (l.tail m.width)) ls more
    (.inl stops)
  simp [takeItem, found]

theorem nextItem?_append (filled : ls ≠ []) :
    nextItem? m (ls ++ more) =
      (nextItem? m ls).map fun next => (next.1, next.2.1, next.2.2 ++ more) := by
  obtain ⟨k, ks, rfl⟩ := List.exists_cons_of_ne_nil filled
  simp only [List.cons_append, nextItem?]
  cases Marker.read? k with
  | none => rfl
  | some n =>
    dsimp only
    split <;> rfl

/-- An item in front of another is read the same, and so is the marker of the other. -/
theorem takeItem_next {n : Marker} {k : Line} {ks : List Line} (more : List Line)
    (h : nextItem? m (takeItem m l ls).rest = some (n, k, ks)) :
    takeItem m l (ls ++ more) =
        { takeItem m l ls with rest := (takeItem m l ls).rest ++ more } ∧
      nextItem? m (takeItem m l (ls ++ more)).rest = some (n, k, ks ++ more) := by
  have filled : (takeItem m l ls).rest ≠ [] := by
    intro none
    rw [none] at h
    cases h
  have here := takeItem_stops more filled
  refine ⟨here, ?_⟩
  rw [here, nextItem?_append filled, h]
  rfl

theorem takeItems_stops (more : List Line) (stops : (takeItems m l ls).rest ≠ []) :
    takeItems m l (ls ++ more) =
      { takeItems m l ls with rest := (takeItems m l ls).rest ++ more } := by
  fun_induction takeItems m l ls with
  | case1 m l ls item hn =>
    have here := takeItem_stops more stops
    have next : nextItem? m (takeItem m l (ls ++ more)).rest = none := by
      rw [here, nextItem?_append stops, hn]
      rfl
    rw [takeItems_none next, here]
  | case2 m l ls item n k ks hn _ found ih =>
    obtain ⟨here, next⟩ := takeItem_next more hn
    rw [takeItems_some next, here, ih stops]

end Items

/-! ## One block -/

namespace Layout

variable {l : Line}

theorem takeFenced_stops {f : Fence} {indent : Nat}
    (closes : (ls.dropWhile fun k => !f.closedBy k) ≠ []) :
    takeFenced f indent (ls ++ more) =
      { takeFenced f indent ls with rest := (takeFenced f indent ls).rest ++ more } := by
  obtain ⟨inside, rest⟩ := takeWhile_stops _ ls more (.inl closes)
  obtain ⟨close, after, split⟩ := List.exists_cons_of_ne_nil closes
  simp [takeFenced, inside, rest, split]

/-- The lines that indented code runs through, blank ones at its end included. -/
def isDeep (k : Line) : Bool :=
  k.isBlank || 4 ≤ k.indent

theorem takeIndented_eq (l : Line) (ls : List Line) :
    takeIndented l ls =
      { layout := .code [] (endedLines
          ((l :: dropEndWhile Line.isBlank (ls.takeWhile isDeep)).map fun k => (k.strip 4).text))
        rest := ls.drop (dropEndWhile Line.isBlank (ls.takeWhile isDeep)).length } :=
  rfl

/-- Indented code leaves the blank lines that it ran through at last. -/
theorem rest_takeIndented (l : Line) (ls : List Line) :
    ∃ blanks, (takeIndented l ls).rest = blanks ++ ls.dropWhile isDeep ∧
      ∀ k ∈ blanks, k.isBlank := by
  let through := ls.takeWhile isDeep
  refine ⟨(through.reverse.takeWhile Line.isBlank).reverse, ?_, fun k hk => ?_⟩
  · have split : ls = through ++ ls.dropWhile isDeep := List.takeWhile_append_dropWhile.symm
    change ls.drop (dropEndWhile Line.isBlank through).length = _
    conv => lhs; rw [split]
    rw [List.drop_append_of_le_length (length_dropEndWhile_le _ _), drop_dropEndWhile]
  · exact List.mem_takeWhile_imp (List.mem_reverse.mp hk)

/-- Lines are left behind a block, and those that follow them are not part of it: something stands on
the lines that are left, or the next one is neither blank nor deep. -/
def Leaves (rest more : List Line) : Prop :=
  rest ≠ [] ∧ ((∃ k ∈ rest, ¬ k.isBlank) ∨ ∀ k ∈ more.head?, isDeep k = false)

theorem leaves_of_filled {rest : List Line} (h : ∃ k ∈ rest, ¬ k.isBlank) (more : List Line) :
    Leaves rest more := by
  obtain ⟨k, mem, filled⟩ := h
  exact ⟨List.ne_nil_of_mem mem, .inl ⟨k, mem, filled⟩⟩

theorem takeIndented_stops
    (stops : (∃ k ∈ (takeIndented l ls).rest, ¬ k.isBlank) ∨ ∀ k ∈ more.head?, isDeep k = false) :
    takeIndented l (ls ++ more) =
      { takeIndented l ls with rest := (takeIndented l ls).rest ++ more } := by
  have ends : ls.dropWhile isDeep ≠ [] ∨ ∀ k ∈ more.head?, isDeep k = false := by
    refine stops.imp_left fun left none => ?_
    obtain ⟨blanks, rest, blank⟩ := rest_takeIndented l ls
    obtain ⟨k, mem, filled⟩ := left
    rw [rest, none, List.append_nil] at mem
    exact filled (blank k mem)
  have inside := (takeWhile_stops _ ls more ends).1
  have short : (dropEndWhile Line.isBlank (ls.takeWhile isDeep)).length ≤ ls.length :=
    (length_dropEndWhile_le _ _).trans (List.takeWhile_prefix _).length_le
  rw [takeIndented_eq, takeIndented_eq, inside, List.drop_append_of_le_length short]

theorem rest_takeText : (takeText l ls).rest = (takeParagraph ls).2.2 := by
  simp only [takeText]
  cases (takeParagraph ls).2.1 <;> rfl

theorem kind_takeText (l : Line) (ls : List Line) :
    (takeText l ls).layout.kind = .paragraph ∨ (takeText l ls).layout.kind = .header := by
  simp only [takeText]
  cases (takeParagraph ls).2.1 with
  | none => exact .inl rfl
  | some level => exact .inr rfl

/-- A block that leaves lines reads none of those that follow, and a block other than code and lists
reads none from a blank one on. -/
theorem take_stops
    (stops : Leaves (take l ls).rest more ∨
      BeginsBlank more ∧ (take l ls).layout.kind ≠ .list ∧ (take l ls).layout.kind ≠ .codeBlock) :
    take l (ls ++ more) = { take l ls with rest := (take l ls).rest ++ more } := by
  -- That lines are left is all that the loops need, but indented code leaves the blank lines at
  -- the very end of the lines as well, and takes them when it goes on.
  cases opening l with
  | indented opens =>
    rw [opens l.offset ls] at stops ⊢
    rw [opens l.offset (ls ++ more)]
    exact takeIndented_stops (stops.resolve_right fun h => h.2.2 rfl).2
  | fenced f fence opens =>
    rw [opens l.offset ls] at stops ⊢
    rw [opens l.offset (ls ++ more)]
    have left := (stops.resolve_right fun h => h.2.2 rfl).1
    exact takeFenced_stops fun none => left (by simp [takeFenced, none])
  | header level text opens =>
    rw [opens l.offset ls, opens l.offset (ls ++ more)]
  | quote opens =>
    rw [opens l.offset ls] at stops ⊢
    rw [opens l.offset (ls ++ more)]
    have found := collect_stops acceptQuoted (({} : OpenEnd).push l.unquoted) ls more ?_
    · simp [takeQuote, found]
    · exact stops.imp And.left fun other k hk e => acceptQuoted_blank (other.1 k hk) e
  | rule opens =>
    rw [opens l.offset ls, opens l.offset (ls ++ more)]
  | list m read opens =>
    rw [opens l.offset ls] at stops ⊢
    rw [opens l.offset (ls ++ more)]
    have left := (stops.resolve_right fun h => h.2.1 rfl).1
    simp [takeList, takeItems_stops more left]
  | html opens =>
    rw [opens l.offset ls] at stops ⊢
    rw [opens l.offset (ls ++ more)]
    obtain ⟨inside, rest⟩ := takeWhile_stops (fun k => !k.isBlank) ls more <|
      stops.imp And.left fun other k hk => by simpa using other.1 k hk
    simp [takeHtml, inside, rest]
  | text opens =>
    rw [opens l.offset ls] at stops ⊢
    rw [opens l.offset (ls ++ more)]
    have found := takeParagraph_stops ls more ?_
    · simp only [takeText, found]
      cases (takeParagraph ls).2.1 <;> rfl
    · exact stops.imp (fun left => rest_takeText ▸ left.1) fun other => other.1

end Layout

/-! ## Runs of blocks -/

section Runs

variable {o : ParseOptions} {depth : Nat} {any blank : Bool}

/-- What stands before blocks tells only whether they are loose. -/
theorem parseBlocks_flags (any' blank' : Bool) (lines : List Line) :
    (parseBlocks o depth any blank lines).trees = (parseBlocks o depth any' blank' lines).trees ∧
      (parseBlocks o depth any blank lines).failure =
        (parseBlocks o depth any' blank' lines).failure := by
  fun_induction blockStarts lines generalizing any blank any' blank' with
  | case1 =>
    rw [parseBlocks_nil, parseBlocks_nil]
    exact ⟨rfl, rfl⟩
  | case2 l ls hl ih =>
    rw [parseBlocks_blank hl, parseBlocks_blank hl]
    exact ih any' true
  | case3 l ls hl _ ih =>
    rw [parseBlocks_cons ls hl, parseBlocks_cons ls hl]
    cases makesOne_blockThen o depth (Layout.take l ls).layout with
    | tree t _ eq =>
      rw [eq, eq]
      exact ⟨rfl, rfl⟩
    | stop ts e trees failed => exact ⟨by rw [trees, trees], by rw [failed, failed]⟩

/-- The blocks of lines and those of more lines behind a blank line, when the last block of the
first is neither code nor a list. -/
theorem parseBlocks_append {ks more : List Line} (behind : BeginsBlank more)
    (whole : (parseBlocks o depth any blank ks).failure = none)
    (last : ∀ t ∈ (parseBlocks o depth any blank ks).trees.getLast?,
      t.kind ≠ .list ∧ t.kind ≠ .codeBlock) :
    (parseBlocks o depth any blank (ks ++ more)).trees =
        (parseBlocks o depth any blank ks).trees ++ (parseBlocks o depth false false more).trees ∧
      (parseBlocks o depth any blank (ks ++ more)).failure =
        (parseBlocks o depth false false more).failure := by
  fun_induction blockStarts ks generalizing any blank with
  | case1 =>
    rw [parseBlocks_nil]
    exact parseBlocks_flags false false more
  | case2 l ls hl ih =>
    rw [parseBlocks_blank hl] at whole last ⊢
    rw [List.cons_append, parseBlocks_blank hl]
    exact ih whole last
  | case3 l ls hl _ ih =>
    rw [parseBlocks_cons ls hl] at whole last ⊢
    cases makesOne_blockThen o depth (Layout.take l ls).layout with
    | stop ts e trees failed =>
      rw [failed] at whole
      cases whole
    | tree t kind eq =>
      rw [eq] at whole last ⊢
      -- The block is the last one when it leaves only blank lines.
      have stops : Layout.Leaves (Layout.take l ls).rest more ∨ BeginsBlank more ∧
          (Layout.take l ls).layout.kind ≠ .list ∧
          (Layout.take l ls).layout.kind ≠ .codeBlock := by
        by_cases rest : ∀ k ∈ (Layout.take l ls).rest, k.isBlank
        · rw [parseBlocks_blanks rest] at last
          exact .inr ⟨behind, kind ▸ last t rfl⟩
        · exact .inl (Layout.leaves_of_filled (by simpa using rest) more)
      have last_rest : ∀ u ∈ (parseBlocks o depth true (Layout.take l ls).trailingBlank
          (Layout.take l ls).rest).trees.getLast?, u.kind ≠ .list ∧ u.kind ≠ .codeBlock := by
        intro u hu
        refine last u ?_
        rw [Parsed.cons, List.getLast?_cons, Option.mem_def.mp hu]
        rfl
      obtain ⟨trees, failure⟩ := ih whole last_rest
      rw [List.cons_append, parseBlocks_cons _ hl, Layout.take_stops stops, eq]
      exact ⟨congrArg (t :: ·) trees, failure⟩

end Runs

/-! ## Whole sources -/

/-- The error that stands `n` bytes further on. -/
def ParseError.moved (n : Nat) : ParseError → ParseError
  | nestingTooDeep position limit => nestingTooDeep (position + n) limit
  | invalidUtf8 position => invalidUtf8 (position + n)

/-- The lines of a source behind another and a blank line. -/
theorem Line.ofSource_behind_blank (s t : List Char) :
    ofSource (s ++ '\n' :: '\n' :: t) =
      ofSource s ++ ⟨[], utf8Length s + 1⟩ :: number (utf8Length s + 2) (t.splitOn '\n') := by
  rw [ofSource_append, ← List.nil_append ('\n' :: t), List.splitOn_append_cons_self,
    List.splitOn_nil, List.singleton_append, number]
  rfl

/-- A container `n` bytes further on. -/
def NestingTooDeep.moved (n : Nat) (e : NestingTooDeep) : NestingTooDeep :=
  { e with position := e.position + n }

/-- Lines further on are read as the same trees, and the reading stops as far on. -/
theorem parseBlocks_moved (o : ParseOptions) (any blank : Bool) (n : Nat)
    (raws : List (List Char)) :
    (parseBlocks o 0 any blank (Line.number n raws)).trees =
        (parseBlocks o 0 false false (Line.number 0 raws)).trees ∧
      (parseBlocks o 0 any blank (Line.number n raws)).failure =
        (parseBlocks o 0 false false (Line.number 0 raws)).failure.map (.moved n) := by
  have elsewhere := Line.number_moved n 0 raws
  rw [Nat.zero_add] at elsewhere
  have steady : Steady fun x y => y = x + n := fun x y k h => by
    dsimp only at h ⊢
    omega
  have same : Parsed.Elsewhere (fun x y => y = x + n)
      (parseBlocks o 0 false false (Line.number 0 raws))
      (parseBlocks o 0 false false (Line.number n raws)) :=
    blocks_elsewhere o.smart o.maxNesting 0 steady 0 false false _ _ elsewhere
  have limit := (readInduction_limit o).blocks 0 false false
  obtain ⟨trees, failure⟩ : (parseBlocks o 0 any blank (Line.number n raws)).trees = _ ∧
      (parseBlocks o 0 any blank (Line.number n raws)).failure = _ :=
    parseBlocks_flags false false _
  refine ⟨trees.trans same.trees.symm, failure.trans ?_⟩
  have here := limit (Line.number 0 raws)
  have further := limit (Line.number n raws)
  have stops := same.failure
  generalize (parseBlocks o 0 false false (Line.number 0 raws)).failure = x,
    (parseBlocks o 0 false false (Line.number n raws)).failure = y at stops here further
  cases stops with
  | none => rfl
  | @some e e' position =>
    have limits : e'.limit = e.limit := (further e' rfl).trans (here e rfl).symm
    obtain ⟨_, _⟩ := e'
    simp only at position limits
    rw [position, limits]
    rfl

/-- Behind a text that ends with neither code nor a list, and a blank line, another text is read as
it is by itself. -/
theorem parse_append {o : ParseOptions} {a : String} {t : Tree} (read : parse o a = .ok t)
    (last : ∀ u ∈ t.children.getLast?, u.kind ≠ .list ∧ u.kind ≠ .codeBlock) (b : String) :
    parse o (a ++ "\n\n" ++ b) =
      match parse o b with
      | .ok u => .ok (.node .document (t.children ++ u.children))
      | .error e => .error (e.moved (a.utf8ByteSize + 2)) := by
  obtain ⟨whole, rfl⟩ := parse_eq_ok.mp read
  have joined : (a ++ "\n\n" ++ b).toList = a.toList ++ '\n' :: '\n' :: b.toList := by simp
  have blank : Line.isBlank ⟨[], utf8Length a.toList + 1⟩ := rfl
  have behind : BeginsBlank (⟨[], utf8Length a.toList + 1⟩ ::
      Line.number (utf8Length a.toList + 2) (b.toList.splitOn '\n')) := by
    rintro l ⟨⟩
    exact blank
  obtain ⟨trees, failure⟩ := parseBlocks_append behind whole last
  obtain ⟨trees', failure'⟩ := parseBlocks_moved o false true (utf8Length a.toList + 2)
    (b.toList.splitOn '\n')
  rw [parseBlocks_blank blank, trees'] at trees
  rw [parseBlocks_blank blank, failure'] at failure
  rw [← Line.ofSource_behind_blank, ← joined] at trees failure
  change (readSource o _).trees = _ ++ (readSource o b.toList).trees at trees
  change (readSource o _).failure = (readSource o b.toList).failure.map _ at failure
  rw [parse, parse, Parsed.document, Parsed.document, Parsed.error?, Parsed.error?, failure,
    ← utf8Length_toList]
  cases (readSource o b.toList).failure with
  | none => exact congrArg (fun ts => Except.ok (Tree.node .document ts)) trees
  | some e => rfl

/-- A lazy line and raw HTML are open at the blank line; what follows looks as if it went on with
them.  Under a limit of two levels it is read; under a limit of one level its list stops the
reading. -/
theorem parse_append_open :
    let a := "> a\nb\n\n<p>\nc"
    let b := "d\n===\n> - e"
    let quote : Tree := .node .blockQuote
      [.node .paragraph [.leaf (.text "a"), .leaf .softbreak, .leaf (.text "b")]]
    let item : Tree := .node .item [.node .paragraph [.leaf (.text "e")]]
    let t : Tree := .node .document [quote, .leaf (.html "<p>\nc\n")]
    let u : Tree := .node .document [.node (.header 1) [.leaf (.text "d")],
      .node .blockQuote [.node (.list .bullet 1 true) [item]]]
    (∀ v ∈ t.children.getLast?, v.kind ≠ .list ∧ v.kind ≠ .codeBlock) ∧
      (parse ⟨false, 2⟩ a = .ok t ∧ parse ⟨false, 2⟩ b = .ok u ∧
        parse ⟨false, 2⟩ (a ++ "\n\n" ++ b) = .ok (.node .document (t.children ++ u.children))) ∧
      (parse ⟨false, 1⟩ a = .ok t ∧ parse ⟨false, 1⟩ b = .error (.nestingTooDeep 8 1) ∧
        parse ⟨false, 1⟩ (a ++ "\n\n" ++ b) = .error (.nestingTooDeep 22 1)) := by
  intro a b quote item t u
  have last : ∀ v ∈ t.children.getLast?, v.kind ≠ .list ∧ v.kind ≠ .codeBlock := by
    rintro v ⟨⟩
    decide
  have deep : parse ⟨false, 2⟩ a = .ok t ∧ parse ⟨false, 2⟩ b = .ok u := by decide +kernel
  have flat : parse ⟨false, 1⟩ a = .ok t ∧ parse ⟨false, 1⟩ b = .error (.nestingTooDeep 8 1) := by
    decide +kernel
  have goesOn := parse_append deep.1 last b
  have stops := parse_append flat.1 last b
  rw [deep.2] at goesOn
  rw [flat.2] at stops
  exact ⟨last, ⟨deep.1, deep.2, goesOn⟩, flat.1, flat.2, stops⟩

end MarkdownForest
