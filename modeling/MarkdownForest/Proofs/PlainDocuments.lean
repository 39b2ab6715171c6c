/-
# MarkdownForest.Proofs.PlainDocuments -- plain documents read back

A plain block is a paragraph of texts and breaks, a code block, a rule, or a quote
of plain blocks.  Its lines, as they are written, are read as the block in front of
a blank line, whatever texts and code it has and however deep it is nested:

* paragraphs and code blocks by `Line.take_prose` and `take_codeBlock`;
* the lines of a quote lose their markers one by one and are then the lines of its
  blocks (`take_quoted`);
* a blank line stands between two blocks, and none of them takes it (`read_blocks`).

`read_written` puts these together by induction on the block, and
`parse_write_plain` says it of whole documents.
-/
import MarkdownForest.Proofs.EscapedLines
import MarkdownForest.Proofs.FencedCode
import MarkdownForest.Proofs.Isolation
import MarkdownForest.Proofs.Nesting
import MarkdownForest.Proofs.Serializing
import MarkdownForest.Proofs.SourceLines

namespace MarkdownForest

set_option autoImplicit false

open Text CommonMark
open Line (Verbatim)

/-! ## Plain blocks -/

/-- A block of texts, code, rules and quotes.  The info string of code is trimmed and on one line;
the code is lines, each with its line feed. -/
inductive PlainBlock : Tree → Prop
  | paragraph {ts : List Tree} (prose : Prose ts) : PlainBlock (.node .paragraph ts)
  | code {info : String} {lines : List (List Char)} (line : '\n' ∉ info.toList)
      (trimmed : trim info.toList = info.toList) (verbatim : ∀ s ∈ lines, Verbatim s) :
      PlainBlock (.leaf (.codeBlock info (String.ofList (endedLines lines))))
  | rule : PlainBlock (.leaf .hrule)
  | quote {ts : List Tree} (inside : ∀ t ∈ ts, PlainBlock t) : PlainBlock (.node .blockQuote ts)

theorem PlainBlock.listTypeOf?_eq {t : Tree} (h : PlainBlock t) : listTypeOf? t = none := by
  cases h <;> rfl

/-- The lines of a block as they are written. -/
def blockLines (t : Tree) : List (List Char) :=
  (blockText false t).splitOn '\n'

/-- The lines of blocks one after the other. -/
def rowLines (ts : List Tree) : List (List Char) :=
  (blocksText false {} ts).splitOn '\n'

theorem blockLines_code {info : String} {lines : List (List Char)} (line : '\n' ∉ info.toList)
    (h : ∀ s ∈ lines, '\n' ∉ s) :
    blockLines (.leaf (.codeBlock info (String.ofList (endedLines lines)))) =
      codeOpening info.toList (endedLines lines) ::
        (lines ++ [codeClosing info.toList (endedLines lines)]) := by
  rw [blockLines, Tree.leaf, blockText, String.toList_ofList, splitOn_codeBlock line h]

theorem rowLines_nil : rowLines [] = [[]] := rfl

theorem rowLines_singleton {t : Tree} (h : PlainBlock t) : rowLines [t] = blockLines t := by
  simp [rowLines, blockLines, blocksText, Sequence.alternates, h.listTypeOf?_eq]

/-- A blank line stands between two blocks. -/
theorem rowLines_cons_cons {t u : Tree} (ht : PlainBlock t) (hu : PlainBlock u) (ts : List Tree) :
    rowLines (t :: u :: ts) = blockLines t ++ [] :: rowLines (u :: ts) := by
  have text : blocksText false {} (t :: u :: ts) =
      blockText false t ++ '\n' :: ([] ++ '\n' :: blocksText false {} (u :: ts)) := by
    simp [blocksText, Sequence.alternates, ht.listTypeOf?_eq, hu.listTypeOf?_eq, separator]
  rw [rowLines, text, List.splitOn_append_cons_self, List.splitOn_append_cons_self,
    List.splitOn_nil, List.singleton_append]
  rfl

/-! ## Quoted lines -/

/-- A line of a quote's contents as it is written. -/
def quotedLine (s : List Char) : List Char :=
  if s.isEmpty then ['>'] else '>' :: ' ' :: s

theorem Line.isQuoted_quotedLine (s : List Char) (offset : Nat) :
    (⟨quotedLine s, offset⟩ : Line).isQuoted := by
  cases s <;> rfl

theorem Line.unquoted_quotedLine (s : List Char) (offset : Nat) :
    (⟨quotedLine s, offset⟩ : Line).unquoted.text = s := by
  cases s with
  | nil => rfl
  | cons c s => simp [quotedLine, Line.unquoted, Line.indent, Line.tail]

/-- Lines written as quoted have markers, and are the lines of the contents without them. -/
theorem unquoted_quotedLines {ls : List Line} {ss : List (List Char)}
    (h : ls.map Line.text = ss.map quotedLine) :
    (∀ l ∈ ls, l.isQuoted) ∧ (ls.map Line.unquoted).map Line.text = ss := by
  induction ls generalizing ss with
  | nil =>
    obtain rfl : ss = [] := List.map_eq_nil_iff.mp h.symm
    exact ⟨nofun, rfl⟩
  | cons l ls ih =>
    obtain ⟨s, ss, rfl, here, more⟩ := List.map_eq_cons_iff.mp h.symm
    obtain ⟨quoted, texts⟩ := ih more.symm
    obtain ⟨text, offset⟩ := l
    obtain rfl : quotedLine s = text := here
    constructor
    · exact List.forall_mem_cons.mpr ⟨Line.isQuoted_quotedLine s offset, quoted⟩
    · rw [List.map_cons, List.map_cons, Line.unquoted_quotedLine, texts]

theorem verbatim_quotedLine {s : List Char} (h : Verbatim s) : Verbatim (quotedLine s) := by
  cases s with
  | nil => exact ⟨by decide, by decide, by decide⟩
  | cons c s =>
    constructor
    · simpa [quotedLine] using h.oneLine
    · simp [quotedLine]
    · simpa [quotedLine, List.getLast?_cons] using h.noReturn

/-- Quoted text is cut into the lines of the text, each of them quoted. -/
theorem splitOn_quoteLines (s : List Char) :
    (quoteLines s).splitOn '\n' = (s.splitOn '\n').map quotedLine := by
  rw [show quoteLines s = List.intercalate ['\n'] ((s.splitOn '\n').map quotedLine) from rfl,
    List.splitOn_intercalate]
  · intro line hl feed
    obtain ⟨k, hk, rfl⟩ := List.mem_map.mp hl
    unfold quotedLine at feed
    split at feed
    · simp at feed
    · exact Line.not_mem_of_mem_splitOn hk (by simpa using feed)
  · simp

theorem blockLines_quote (ts : List Tree) :
    blockLines (.node .blockQuote ts) = (rowLines ts).map quotedLine := by
  rw [blockLines, blockText, splitOn_quoteLines]
  rfl

theorem collect_quoted {ls rest : List Line} (h : ∀ l ∈ ls, l.isQuoted)
    (hr : ∀ l ∈ rest.head?, l.isBlank) (e : OpenEnd) :
    collect acceptQuoted e (ls ++ rest) = (ls.map Line.unquoted, rest) := by
  refine collect_accepted (fun l hl e => ?_) (fun l hl e => ?_) e
  · simp [acceptQuoted, h l hl]
  · simp [acceptQuoted, Line.not_isQuoted_of_isBlank (hr l hl), hr l hl]

/-- Quoted lines up to a blank line are one quote of the lines without their markers. -/
theorem take_quoted {l : Line} {ls rest : List Line} (h : ∀ k ∈ l :: ls, k.isQuoted)
    (hr : ∀ k ∈ rest.head?, k.isBlank) :
    Layout.take l (ls ++ rest) =
      { layout := .quote l.offset ((l :: ls).map Line.unquoted), rest } := by
  obtain ⟨here, more⟩ := List.forall_mem_cons.mp h
  obtain ⟨indent, first⟩ : l.indent < 4 ∧ l.rest.head? = some '>' := by
    simpa [Line.isQuoted] using here
  obtain ⟨t, begins⟩ : ∃ t, l.rest = '>' :: t := by
    cases hr : l.rest with
    | nil => simp [hr] at first
    | cons c t =>
      rw [hr, List.head?_cons, Option.some.injEq] at first
      exact ⟨t, by rw [first]⟩
  have noFence : Fence.open? l.rest = none := begins ▸ Line.open?_of_first (by decide) (by decide)
  have noHeader : header? l.rest = none := begins ▸ Line.header?_of_first (by decide)
  rw [Layout.take, if_neg (Nat.not_le.mpr indent), noFence]
  dsimp only
  rw [noHeader]
  dsimp only
  rw [if_pos first, Layout.takeQuote, collect_quoted more hr]
  rfl

/-! ## Lines as they stand -/

/-- The lines of blocks are those of each and blank ones. -/
theorem forall_mem_rowLines {p : List Char → Prop} {ts : List Tree} (plain : ∀ t ∈ ts, PlainBlock t)
    (blank : p []) (each : ∀ t ∈ ts, ∀ s ∈ blockLines t, p s) : ∀ s ∈ rowLines ts, p s := by
  induction ts with
  | nil => simpa [rowLines_nil] using blank
  | cons t ts ih =>
    obtain ⟨plain_t, plain_ts⟩ := List.forall_mem_cons.mp plain
    obtain ⟨each_t, each_ts⟩ := List.forall_mem_cons.mp each
    cases ts with
    | nil => rwa [rowLines_singleton plain_t]
    | cons u ts =>
      intro s hs
      rw [rowLines_cons_cons plain_t (plain_ts u List.mem_cons_self)] at hs
      rcases List.mem_append.mp hs with hs | hs
      · exact each_t s hs
      · rcases List.mem_cons.mp hs with rfl | hs
        · exact blank
        · exact ih plain_ts each_ts s hs

theorem verbatim_nil : Verbatim [] :=
  ⟨by decide, by decide, by decide⟩

/-- Every line of a plain block is cut out of the source as it stands. -/
theorem PlainBlock.verbatim {t : Tree} (h : PlainBlock t) : ∀ s ∈ blockLines t, Verbatim s := by
  induction h with
  | @paragraph ts prose =>
    intro s hs
    rw [blockLines, blockText, Line.splitOn_prose prose] at hs
    exact (Line.goesOn_proseLines prose s hs).trimmed.verbatim
  | @code info lines line trimmed verbatim =>
    rw [blockLines_code line fun s hs => (verbatim s hs).oneLine]
    intro s hs
    rcases List.mem_cons.mp hs with rfl | hs
    · exact verbatim_codeOpening line trimmed _
    · rcases List.mem_append.mp hs with hs | hs
      · exact verbatim s hs
      · rw [List.mem_singleton.mp hs]
        exact verbatim_codeClosing _ _
  | rule =>
    intro s hs
    rw [show blockLines (.leaf .hrule) = [['*', '*', '*']] from rfl, List.mem_singleton] at hs
    rw [hs]
    exact ⟨by decide, by decide, by decide⟩
  | @quote ts inside ih =>
    have lines := forall_mem_rowLines inside verbatim_nil ih
    rw [blockLines_quote]
    intro s hs
    obtain ⟨k, hk, rfl⟩ := List.mem_map.mp hs
    exact verbatim_quotedLine (lines k hk)

theorem verbatim_rowLines {ts : List Tree} (plain : ∀ t ∈ ts, PlainBlock t) :
    ∀ s ∈ rowLines ts, Verbatim s :=
  forall_mem_rowLines plain verbatim_nil fun t ht => (plain t ht).verbatim

/-! ## Reading written lines -/

/-- Lines with these texts are read as the block `t` in front of a blank line or the end. -/
def ReadAs (o : ParseOptions) (depth : Nat) (texts : List (List Char)) (t : Tree) : Prop :=
  ∀ (ls rest : List Line) (any blank : Bool), ls.map Line.text = texts →
    (∀ l ∈ rest.head?, l.isBlank) →
      parseBlocks o depth any blank (ls ++ rest) =
        .cons t (any && blank) (parseBlocks o depth true false rest)

section Read

variable {o : ParseOptions} {depth : Nat} {t : Tree} {ts : List Tree}

/-- Blocks of which each is read as itself are read as a row. -/
theorem read_blocks (plain : ∀ t ∈ ts, PlainBlock t)
    (each : ∀ t ∈ ts, ReadAs o depth (blockLines t) t) {ls rest : List Line}
    (lines : ls.map Line.text = rowLines ts) (hr : ∀ l ∈ rest, l.isBlank) (any blank : Bool) :
    (parseBlocks o depth any blank (ls ++ rest)).trees = ts ∧
      (parseBlocks o depth any blank (ls ++ rest)).failure = none := by
  induction ts generalizing ls any blank with
  | nil =>
    have blanks : ∀ l ∈ ls ++ rest, l.isBlank := by
      intro l hl
      rcases List.mem_append.mp hl with hl | hl
      · have text : l.text ∈ rowLines [] := lines ▸ List.mem_map_of_mem hl
        rw [rowLines_nil, List.mem_singleton] at text
        simp [Line.isBlank, text, Text.isBlank]
      · exact hr l hl
    rw [parseBlocks_blanks blanks]
    exact ⟨rfl, rfl⟩
  | cons t ts ih =>
    have here := each t List.mem_cons_self
    cases ts with
    | nil =>
      rw [rowLines_singleton (plain t List.mem_cons_self)] at lines
      rw [here ls rest any blank lines fun l hl => hr l (List.mem_of_mem_head? hl),
        parseBlocks_blanks hr]
      exact ⟨rfl, rfl⟩
    | cons u ts =>
      have plain_t := plain t List.mem_cons_self
      have plain_u := plain u (List.mem_cons_of_mem _ List.mem_cons_self)
      rw [rowLines_cons_cons plain_t plain_u, List.map_eq_append_iff] at lines
      obtain ⟨ks, js, rfl, first, more⟩ := lines
      obtain ⟨l, js, rfl, between, more⟩ := List.map_eq_cons_iff.mp more
      have blank_l : l.isBlank := by simp [Line.isBlank, between, Text.isBlank]
      have rest_blank : ∀ k ∈ (l :: (js ++ rest)).head?, k.isBlank := by
        intro k hk
        cases hk
        exact blank_l
      obtain ⟨trees, ok⟩ := ih (fun v hv => plain v (List.mem_cons_of_mem _ hv))
        (fun v hv => each v (List.mem_cons_of_mem _ hv)) more true true
      rw [List.append_assoc, List.cons_append, here ks _ any blank first rest_blank,
        parseBlocks_blank blank_l]
      exact ⟨congrArg (t :: ·) trees, ok⟩

/-- A block without blocks inside. -/
theorem read_leaf {x : Layout} {l : Line} {ls rest : List Line} (filled : ¬ l.isBlank)
    (taken : Layout.take l ls = { layout := x, rest })
    (notQuote : ∀ offset inner, x ≠ .quote offset inner)
    (notList : ∀ offset m items spaced, x ≠ .list offset m items spaced) (any blank : Bool) :
    parseBlocks o depth any blank (l :: ls) =
      .cons (x.leafTree o.smart) (any && blank) (parseBlocks o depth true false rest) := by
  rw [parseBlocks_leaf filled (by rwa [taken]) (by rwa [taken]), taken]

theorem read_paragraph (prose : Prose ts) (smart : o.smart = false) :
    ReadAs o depth (blockLines (.node .paragraph ts)) (.node .paragraph ts) := by
  intro ls rest any blank lines hr
  have texts : ls.map Line.text = proseLines ts := by
    rw [lines, blockLines, blockText, Line.splitOn_prose prose]
  obtain ⟨l, ls, rfl⟩ := List.exists_cons_of_ne_nil fun e : ls = [] =>
    prose.proseLines_ne_nil (by rw [← texts, e, List.map_nil])
  have first : l.text ∈ proseLines ts := texts ▸ List.mem_cons_self
  have filled := (Line.goesOn_proseLines prose _ first).trimmed.not_blank l.offset
  have tree : (Layout.paragraph (inlineText ts)).leafTree o.smart = .node .paragraph ts := by
    rw [Layout.leafTree, smart, inlineTrees_prose prose]
  rw [List.cons_append, read_leaf filled (Line.take_prose prose texts hr) (by simp) (by simp), tree]

theorem read_code {info : String} {lines : List (List Char)} (line : '\n' ∉ info.toList)
    (trimmed : trim info.toList = info.toList) (verbatim : ∀ s ∈ lines, Verbatim s) :
    ReadAs o depth (blockLines (.leaf (.codeBlock info (String.ofList (endedLines lines)))))
      (.leaf (.codeBlock info (String.ofList (endedLines lines)))) := by
  intro ls rest any blank texts hr
  rw [blockLines_code line fun s hs => (verbatim s hs).oneLine] at texts
  obtain ⟨l, ls, rfl, opening, more⟩ := List.map_eq_cons_iff.mp texts
  obtain ⟨inside, ls, rfl, code, last⟩ := List.map_eq_append_iff.mp more
  obtain ⟨close, rfl, closing⟩ := List.map_eq_singleton_iff.mp last
  have filled : ¬ l.isBlank := by
    obtain ⟨t, begins⟩ := exists_codeOpening info.toList (endedLines lines)
    simp [Line.isBlank, opening, begins, Text.isBlank, codeMark_isNotBlank]
  have taken := take_codeBlock trimmed opening code closing rest
  rw [List.cons_append, List.append_assoc, List.singleton_append,
    read_leaf filled taken (by simp) (by simp), Layout.leafTree, String.ofList_toList]

theorem read_rule : ReadAs o depth (blockLines (.leaf .hrule)) (.leaf .hrule) := by
  intro ls rest any blank lines hr
  have texts : ls.map Line.text = [['*', '*', '*']] := lines
  obtain ⟨⟨text, offset⟩, rfl, rfl⟩ := List.map_eq_singleton_iff.mp texts
  have taken : Layout.take ⟨['*', '*', '*'], offset⟩ rest = { layout := .rule, rest } := rfl
  have filled : ¬ (⟨['*', '*', '*'], offset⟩ : Line).isBlank := Bool.false_ne_true
  exact read_leaf filled taken (by simp) (by simp) any blank

/-- Quotes lose their markers, and their contents are read one level deeper. -/
theorem read_quote (plain : ∀ t ∈ ts, PlainBlock t) (room : depth < o.maxNesting)
    (each : ∀ t ∈ ts, ReadAs o (depth + 1) (blockLines t) t) :
    ReadAs o depth (blockLines (.node .blockQuote ts)) (.node .blockQuote ts) := by
  intro ls rest any blank lines hr
  rw [blockLines_quote] at lines
  obtain ⟨l, ls, rfl⟩ := List.exists_cons_of_ne_nil fun e : ls = [] =>
    List.splitOn_ne_nil '\n' (blocksText false {} ts) (by simpa [e, rowLines] using lines.symm)
  obtain ⟨quoted, texts⟩ := unquoted_quotedLines lines
  have taken := take_quoted quoted hr
  have filled : ¬ l.isBlank := by
    intro blank
    have := quoted l List.mem_cons_self
    rw [Line.not_isQuoted_of_isBlank blank] at this
    exact Bool.false_ne_true this
  have ends : ∀ k ∈ ([] : List Line), k.isBlank := nofun
  obtain ⟨trees, ok⟩ := read_blocks plain each texts ends false false
  rw [List.append_nil] at trees ok
  rw [List.cons_append, parseBlocks_quote filled (by rw [taken]), if_neg (Nat.not_le.mpr room),
    taken, Parsed.within, ok, trees]

/-- The lines of a plain block are read as the block, if it nests within the limit. -/
theorem read_written (h : PlainBlock t) (smart : o.smart = false)
    (fits : depth + t.nesting ≤ o.maxNesting) : ReadAs o depth (blockLines t) t := by
  induction h generalizing depth with
  | paragraph prose => exact read_paragraph prose smart
  | code line trimmed verbatim => exact read_code line trimmed verbatim
  | rule => exact read_rule
  | @quote ts inside ih =>
    rw [Tree.nesting] at fits
    have one : (Content.blockQuote.kind.nests).toNat = 1 := rfl
    refine read_quote inside (by omega) fun t ht => ih t ht ?_
    have := Tree.nesting_le_nestingList ht
    omega

end Read

/-! ## Whole documents -/

/-- The lines of a source that ends its last line, or has nothing on it. -/
theorem splitOn_endLine (s : List Char) :
    ∃ blanks, (endLine s).splitOn '\n' = s.splitOn '\n' ++ blanks ∧ ∀ k ∈ blanks, k = [] := by
  unfold endLine
  split
  · exact ⟨[], (List.append_nil _).symm, nofun⟩
  · refine ⟨[[]], ?_, by simp⟩
    rw [List.splitOn_append_cons_self, List.splitOn_nil]

/-- A source that does not end with white space gets its last line ended. -/
theorem endLine_of_last {c : Char} {s : List Char} (last : s.getLast? = some c)
    (full : isSpace c = false) : endLine s = s ++ ['\n'] := by
  have feed : c ≠ '\n' := ne_of_class full (by decide)
  have filled : s ≠ [] := by
    rintro rfl
    cases last
  simp [endLine, filled, last, feed]

/-- A document of plain blocks is read back from its text, if it nests within the limit. -/
theorem parse_write_plain {ts : List Tree} {m : Nat} (plain : ∀ t ∈ ts, PlainBlock t)
    (fits : (Tree.node .document ts).NestsWithin m) :
    parse ⟨false, m⟩ (write (.node .document ts)) = .ok (.node .document ts) := by
  obtain ⟨blanks, cut, empty⟩ := splitOn_endLine (blocksText false {} ts)
  have verbatim : ∀ s ∈ rowLines ts ++ blanks, Verbatim s := by
    intro s hs
    rcases List.mem_append.mp hs with hs | hs
    · exact verbatim_rowLines plain s hs
    · rw [empty s hs]
      exact verbatim_nil
  have lines : (Line.ofSource (write (.node .document ts)).toList).map Line.text =
      rowLines ts ++ blanks := by
    rw [write, writeBefore, String.toList_ofList]
    change (Line.ofSource (endLine (blocksText false {} ts))).map Line.text = _
    rw [Line.ofSource, cut]
    exact Line.map_text_number verbatim 0
  obtain ⟨ls, rest, whole, row, after⟩ := List.map_eq_append_iff.mp lines
  have blank : ∀ l ∈ rest, l.isBlank := by
    intro l hl
    have text : l.text = [] := empty _ (after ▸ List.mem_map_of_mem hl)
    simp [Line.isBlank, text, Text.isBlank]
  have room : Tree.nestingList ts ≤ m := by
    have := (Tree.nesting_le_iff m _).mpr fits
    rw [Tree.nesting] at this
    omega
  have each : ∀ t ∈ ts, ReadAs ⟨false, m⟩ 0 (blockLines t) t := by
    intro t ht
    have := Tree.nesting_le_nestingList ht
    exact read_written (plain t ht) rfl (by dsimp only; omega)
  obtain ⟨trees, ok⟩ := read_blocks plain each row blank false false
  rw [← whole] at trees ok
  exact parse_eq_ok.mpr ⟨ok, by rw [readSource, trees]⟩

/-! ## Documents in forests -/

namespace Forest

variable {f : Forest} {x : NodeId} {t : Tree}

/-- Of a block the next sibling tells nothing. -/
theorem commonMark_of_block (shown : f.snapshot x = .ok t) (block : t.kind.isBlock) :
    f.commonMark x = .ok (write t) := by
  obtain ⟨hx, -⟩ := snapshot_ok.mp shown
  rw [commonMark, next_eq hx, ok_bind, shown, ok_bind]
  simp only [write, writeBefore, block, if_true]
  rfl

/-- The tree `D` is written as text that is read as `E`: as a tree, and as the nodes of forests that
show it.  Such a node is written alike in every forest, by recursion and along links, and any forest
reads what is written as a node that shows `E`. -/
def ReadsBackAs (o : ParseOptions) (D E : Tree) : Prop :=
  parse o (write D) = .ok E ∧
    ∀ (rs rs' : List Request) (x : NodeId), (run rs).snapshot x = .ok D →
      (run rs).commonMark x = .ok (write D) ∧
        LinkWriter.commonMark (run rs) x = .ok (write D) ∧
        ∃ y g, (run rs').read o (write D) = (.ok y, g) ∧ g.snapshot y = .ok E

theorem readsBackAs_of_parse {o : ParseOptions} {D E : Tree} (block : D.kind.isBlock)
    (parsed : parse o (write D) = .ok E) : ReadsBackAs o D E := by
  refine ⟨parsed, fun rs rs' x shown => ?_⟩
  have written := commonMark_of_block shown block
  have linked := (sound_run rs).linkCommonMark_eq (snapshot_ok.mp shown).1
  exact ⟨written, linked.trans written, (sound_run rs').read_of_parse parsed⟩

/-- A node that shows a document of plain blocks, in whatever forest, is written as text that any
forest reads as a document showing the same. -/
theorem run_reads_back {ts : List Tree} {m : Nat} (plain : ∀ t ∈ ts, PlainBlock t)
    (fits : (Tree.node .document ts).NestsWithin m) :
    parse ⟨false, m⟩ (write (.node .document ts)) = .ok (.node .document ts) ∧
      ∀ (rs rs' : List Request) (x : NodeId),
        (run rs).snapshot x = .ok (.node .document ts) →
          (run rs).commonMark x = .ok (write (.node .document ts)) ∧
          LinkWriter.commonMark (run rs) x = .ok (write (.node .document ts)) ∧
          ∃ y g, (run rs').read ⟨false, m⟩ (write (.node .document ts)) = (.ok y, g) ∧
            g.snapshot y = .ok (.node .document ts) := by
  have parsed := parse_write_plain plain fits
  refine ⟨parsed, fun rs rs' x shown => ?_⟩
  have written := commonMark_of_block shown rfl
  have linked := (sound_run rs).linkCommonMark_eq (snapshot_ok.mp shown).1
  exact ⟨written, linked.trans written, (sound_run rs').read_of_parse parsed⟩

/-- Text with every mark that could open something, an empty quote, and code with both fences. -/
def thornyBlocks : List Tree :=
  [.node .blockQuote
    [.node .paragraph
      [.leaf (.text "12. *a* _b_ [c](d) ![e] <f> `g` \\"), .leaf .linebreak, .leaf (.text "---"),
        .leaf .softbreak, .leaf (.text "# > + = ~~~ !")],
      .node .blockQuote [],
      .leaf (.codeBlock "~`" (String.ofList (endedLines ["~~~~".toList, [], "> \t```".toList])))],
    .leaf .hrule]

theorem thornyBlocks_plain : ∀ t ∈ thornyBlocks, PlainBlock t := by
  have prose : Prose [.leaf (.text "12. *a* _b_ [c](d) ![e] <f> `g` \\"), .leaf .linebreak,
      .leaf (.text "---"), .leaf .softbreak, .leaf (.text "# > + = ~~~ !")] :=
    .more (by decide) (.inr rfl) (.more (by decide) (.inl rfl) (.last (by decide)))
  have code : PlainBlock
      (.leaf (.codeBlock "~`"
        (String.ofList (endedLines ["~~~~".toList, [], "> \t```".toList])))) :=
    .code (by decide) (by decide) (by decide)
  have quote : PlainBlock (.node .blockQuote []) := .quote nofun
  intro t ht
  rcases List.mem_cons.mp ht with rfl | ht
  · refine .quote fun u hu => ?_
    rcases List.mem_cons.mp hu with rfl | hu
    · exact .paragraph prose
    rcases List.mem_cons.mp hu with rfl | hu
    · exact quote
    · rw [List.mem_singleton.mp hu]
      exact code
  · rw [List.mem_singleton.mp ht]
    exact .rule

theorem thornyBlocks_read_back :
    (∀ t ∈ thornyBlocks, PlainBlock t) ∧ (Tree.node .document thornyBlocks).NestsWithin 2 ∧
      parse ⟨false, 2⟩ (write (.node .document thornyBlocks)) =
        .ok (.node .document thornyBlocks) := by
  have fits : (Tree.node .document thornyBlocks).NestsWithin 2 := by decide
  exact ⟨thornyBlocks_plain, fits, (run_reads_back thornyBlocks_plain fits).1⟩

end Forest

end MarkdownForest
