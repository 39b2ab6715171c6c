/-
# MarkdownForest.Proofs.LazyContinuation -- lines that go on with a paragraph

Whether lines leave a paragraph open is decided line by line
(`endsInParagraph`), and the reading decides it block by block (`LeavesOpen`).
For lines that have no marker of a quote or item, open no raw HTML and are no
underline the two agree (`endsInParagraph_iff`).  For other lines they need not:
an underline makes a header of the paragraph, and counts as one more line of it.

`parseBlocks_lazy` says what becomes of a line that opens no block behind any
lines: they grow by it, in the paragraph at their end, exactly when they leave it
open and all the containers around it take the line.
-/
import MarkdownForest.Proofs.OpenParagraphs

namespace MarkdownForest

set_option autoImplicit false

open Text

/-! ## What lines leave open, one by one -/

/-- A line without a marker that opens no raw HTML and underlines nothing. -/
structure Line.Plain (k : Line) : Prop where
  unquoted : k.isQuoted = false
  unmarked : Marker.read? k = none
  noUnderline : underline? k = none
  noHtml : k.indent < 4 → opensHtml k.rest = false

namespace OpenEnd

variable {e : OpenEnd} {l : Line} {ls rest : List Line}

/-- Neither a fence nor a paragraph is open. -/
def Closed (e : OpenEnd) : Prop :=
  e.fence = none ∧ e.paragraph = false

theorem closed_start : Closed {} :=
  ⟨rfl, rfl⟩

theorem Closed.inParagraph (h : e.Closed) : e.inParagraph = false := by
  rw [OpenEnd.inParagraph, h.2, Bool.false_and]

theorem push_fence {f : Fence} (fence : e.fence = some f) (l : Line) :
    e.push l = { fence := if f.closedBy l then none else some f, count := e.count + 1 } := by
  simp only [push, fence]

theorem push_blank (fence : e.fence = none) (blank : l.isBlank) :
    e.push l = { count := e.count + 1 } := by
  simp only [push, fence, if_pos blank]

theorem push_deep (fence : e.fence = none) (filled : ¬ l.isBlank) (deep : 4 ≤ l.indent) :
    e.push l = { paragraph := e.paragraph, count := e.count + 1 } := by
  simp only [push, fence, if_neg filled, if_pos deep]

/-- A line that is neither blank nor deep decides by itself. -/
theorem push_shallow (fence : e.fence = none) (filled : ¬ l.isBlank) (shallow : ¬ 4 ≤ l.indent)
    (unmarked : Marker.read? l = none) :
    e.push l =
      match Fence.open? l.rest with
      | some f => { fence := some f, count := e.count + 1 }
      | none =>
        { paragraph := !((header? l.rest).isSome || isRule l.rest), count := e.count + 1 } := by
  simp only [push, fence, if_neg filled, if_neg shallow, unmarked]
  cases Fence.open? l.rest with
  | some f => rfl
  | none => cases (header? l.rest).isSome || isRule l.rest <;> rfl

theorem closed_foldl_deep (closed : e.Closed) (deep : ∀ k ∈ ls, Layout.isDeep k) :
    (ls.foldl push e).Closed := by
  induction ls generalizing e with
  | nil => exact closed
  | cons l ls ih =>
    obtain ⟨here, more⟩ := List.forall_mem_cons.mp deep
    refine ih ?_ more
    by_cases blank : l.isBlank
    · rw [push_blank closed.1 blank]
      exact closed_start
    · have indented : 4 ≤ l.indent := by simpa [Layout.isDeep, blank] using here
      rw [push_deep closed.1 blank indented]
      exact ⟨rfl, closed.2⟩

/-- Line by line the open end comes to `rest` with nothing open; if `rest` is the end of the lines,
then a paragraph is open or not. -/
def ReadsTo (e : OpenEnd) (lines rest : List Line) (paragraph : Bool) : Prop :=
  if rest = [] then (lines.foldl push e).inParagraph = paragraph
  else ∃ e', e'.Closed ∧ lines.foldl push e = rest.foldl push e'

theorem Closed.readsTo {e' : OpenEnd} (h : e'.Closed) {lines : List Line}
    (eq : lines.foldl push e = rest.foldl push e') : ReadsTo e lines rest false := by
  unfold ReadsTo
  split
  · rename_i none
    rw [eq, none]
    exact h.inParagraph
  · exact ⟨e', h, eq⟩

/-- Code goes on up to the line that closes its fence. -/
theorem readsTo_fenced {f : Fence} (fence : e.fence = some f) (ls : List Line) :
    ReadsTo e ls ((ls.dropWhile fun k => !f.closedBy k).drop 1) false := by
  induction ls generalizing e with
  | nil => simp [ReadsTo, OpenEnd.inParagraph, fence]
  | cons l ls ih =>
    have step := push_fence fence l
    cases closes : f.closedBy l with
    | false =>
      rw [closes, if_neg Bool.false_ne_true] at step
      rw [List.dropWhile_cons_of_pos (by simp [closes])]
      have goesOn : (e.push l).fence = some f := by rw [step]
      exact ih goesOn
    | true =>
      rw [closes, if_pos rfl] at step
      rw [List.dropWhile_cons_of_neg (by simp [closes])]
      have closed : (e.push l).Closed := by
        rw [step]
        exact ⟨rfl, rfl⟩
      exact closed.readsTo rfl

end OpenEnd

open OpenEnd (Closed ReadsTo)

section Plain

variable {e : OpenEnd} {l : Line} {ls rest : List Line}

/-- A plain line opens a block if a fence, a header or a rule begins there. -/
theorem Line.Plain.startsBlock_eq (h : l.Plain) (shallow : ¬ 4 ≤ l.indent) :
    startsBlock l = ((Fence.open? l.rest).isSome || (header? l.rest).isSome || isRule l.rest) := by
  have unquoted := h.unquoted
  have narrow : l.indent < 4 := by omega
  simp only [isQuoted, narrow, decide_true, Bool.true_and] at unquoted
  simp [startsBlock, narrow, unquoted, h.unmarked]

theorem startsBlock_deep (deep : 4 ≤ l.indent) : startsBlock l = false := by
  have wide : ¬ l.indent < 4 := by omega
  simp [startsBlock, wide]

/-- A paragraph goes on up to a line that ends it; if none does, it is open. -/
theorem readsTo_paragraph (fence : e.fence = none) (paragraph : e.paragraph = true)
    (plain : ∀ k ∈ ls, k.Plain) :
    (takeParagraph ls).2.1 = none ∧ ReadsTo e ls (takeParagraph ls).2.2 true := by
  induction ls generalizing e with
  | nil =>
    refine ⟨rfl, ?_⟩
    simp [takeParagraph, ReadsTo, OpenEnd.inParagraph, fence, paragraph]
  | cons l ls ih =>
    obtain ⟨here, more⟩ := List.forall_mem_cons.mp plain
    simp only [takeParagraph, here.noUnderline]
    by_cases blank : l.isBlank
    · rw [if_pos blank]
      refine ⟨rfl, ?_⟩
      refine ⟨{ count := e.count }, OpenEnd.closed_start, ?_⟩
      rw [List.foldl_cons, List.foldl_cons, OpenEnd.push_blank fence blank,
        OpenEnd.push_blank rfl blank]
    rw [if_neg blank]
    by_cases deep : 4 ≤ l.indent
    · rw [startsBlock_deep deep, if_neg Bool.false_ne_true]
      have step := OpenEnd.push_deep fence blank deep
      exact ih (by rw [step]) (by rw [step]; exact paragraph) more
    have step := OpenEnd.push_shallow fence blank deep here.unmarked
    by_cases opens : startsBlock l
    · rw [if_pos opens]
      refine ⟨rfl, { count := e.count }, OpenEnd.closed_start, ?_⟩
      rw [List.foldl_cons, List.foldl_cons, step,
        OpenEnd.push_shallow rfl blank deep here.unmarked]
    · rw [if_neg opens]
      rw [here.startsBlock_eq deep, Bool.or_assoc, Bool.not_eq_true, Bool.or_eq_false_iff] at opens
      rw [Option.isSome_eq_false_iff.mp opens.1 |> Option.isNone_iff_eq_none.mp, opens.2] at step
      exact ih (by rw [step]) (by rw [step]; rfl) more

theorem readsTo_indented (closed : e.Closed) (deep : Layout.isDeep l) (ls : List Line) :
    ReadsTo e (l :: ls) (Layout.takeIndented l ls).rest false := by
  rw [Layout.takeIndented_eq]
  let kept := dropEndWhile Line.isBlank (ls.takeWhile Layout.isDeep)
  have front : kept <+: ls := (prefix_dropEndWhile _ _).trans (List.takeWhile_prefix _)
  have inside : ∀ k ∈ l :: kept, Layout.isDeep k := by
    refine List.forall_mem_cons.mpr ⟨deep, fun k hk => ?_⟩
    exact List.mem_takeWhile_imp ((prefix_dropEndWhile _ _).subset hk)
  refine (OpenEnd.closed_foldl_deep closed inside).readsTo ?_
  rw [← List.foldl_append, List.cons_append]
  have split := List.prefix_iff_eq_append.mp front
  exact congrArg (fun ks => (l :: ks).foldl OpenEnd.push e) split.symm

/-- Line by line the open end comes to the end of a block with nothing open but a paragraph. -/
theorem readsTo_take (closed : e.Closed) (filled : ¬ l.isBlank) (plain : ∀ k ∈ l :: ls, k.Plain) :
    ReadsTo e (l :: ls) (Layout.take l ls).rest ((Layout.take l ls).layout.kind == .paragraph) := by
  obtain ⟨here, more⟩ := List.forall_mem_cons.mp plain
  unfold Layout.take
  by_cases deep : 4 ≤ l.indent
  · rw [if_pos deep]
    exact readsTo_indented closed (by simp [Layout.isDeep, deep]) ls
  rw [if_neg deep]
  have step := OpenEnd.push_shallow closed.1 filled deep here.unmarked
  cases fence : Fence.open? l.rest with
  | some f =>
    rw [fence] at step
    exact OpenEnd.readsTo_fenced (e := e.push l) (by rw [step]) ls
  | none =>
  rw [fence] at step
  cases header : header? l.rest with
  | some found =>
    rw [header] at step
    have closes : (e.push l).Closed := by
      rw [step]
      exact ⟨rfl, rfl⟩
    exact closes.readsTo rfl
  | none =>
  rw [header] at step
  have shallow : l.indent < 4 := by omega
  have unquoted := here.unquoted
  simp only [Line.isQuoted, shallow, decide_true, Bool.true_and, decide_eq_false_iff_not]
    at unquoted
  dsimp only at step ⊢
  rw [if_neg unquoted]
  by_cases rule : isRule l.rest
  · rw [if_pos rule]
    have closes : (e.push l).Closed := by
      rw [step, rule]
      exact ⟨rfl, rfl⟩
    exact closes.readsTo rfl
  · have goesOn : (e.push l).fence = none ∧ (e.push l).paragraph = true := by
      rw [step, Bool.not_eq_true _ |>.mp rule]
      exact ⟨rfl, rfl⟩
    obtain ⟨level, reads⟩ := readsTo_paragraph goesOn.1 goesOn.2 more
    rw [if_neg rule, here.unmarked]
    dsimp only
    rw [here.noHtml shallow, if_neg Bool.false_ne_true]
    simp only [Layout.takeText, level]
    exact reads

/-- Where the open end of plain lines is a paragraph, they leave one open. -/
theorem leavesOpen_of_inParagraph (closed : e.Closed) {lines : List Line}
    (plain : ∀ k ∈ lines, k.Plain) (ends : (lines.foldl OpenEnd.push e).inParagraph) :
    ∃ texts, LeavesOpen lines ⟨texts, []⟩ := by
  fun_induction blockStarts lines generalizing e with
  | case1 =>
    rw [List.foldl_nil, closed.inParagraph] at ends
    cases ends
  | case2 l ls empty ih =>
    rw [List.foldl_cons, OpenEnd.push_blank closed.1 empty] at ends
    obtain ⟨texts, opens⟩ := ih ⟨rfl, rfl⟩ (List.forall_mem_cons.mp plain).2 ends
    exact ⟨texts, .blank empty opens⟩
  | case3 l ls filled _ ih =>
    have reads := readsTo_take closed filled plain
    unfold OpenEnd.ReadsTo at reads
    split at reads
    · rename_i all
      rw [ends] at reads
      exact ⟨_, .paragraph filled (beq_iff_eq.mp reads.symm) all⟩
    · obtain ⟨e', closed', eq⟩ := reads
      rw [eq] at ends
      obtain ⟨texts, opens⟩ := ih closed' (Layout.forall_rest_take plain) ends
      exact ⟨texts, .after filled opens⟩

theorem inParagraph_of_leavesOpen (closed : e.Closed) {lines : List Line} {p : OpenParagraph}
    (plain : ∀ k ∈ lines, k.Plain) (opens : LeavesOpen lines p) :
    (lines.foldl OpenEnd.push e).inParagraph := by
  induction opens generalizing e with
  | blank empty _ ih =>
    rw [List.foldl_cons, OpenEnd.push_blank closed.1 empty]
    exact ih ⟨rfl, rfl⟩ (List.forall_mem_cons.mp plain).2
  | @after l ls p filled more ih =>
    have reads := readsTo_take closed filled plain
    obtain ⟨e', closed', eq⟩ := (if_neg more.ne_nil).mp reads
    rw [eq]
    exact ih closed' (Layout.forall_rest_take plain)
  | paragraph filled opens all =>
    have reads := readsTo_take closed filled plain
    rw [opens] at reads
    exact (if_pos all).mp reads
  | quote _ opens _ _ _ =>
    have unquoted := (List.forall_mem_cons.mp plain).1.unquoted
    rw [(Layout.take_eq_quote opens).1] at unquoted
    cases unquoted
  | item _ opens _ _ _ _ =>
    have unmarked := (List.forall_mem_cons.mp plain).1.unmarked
    rw [(Layout.take_eq_list opens).1] at unmarked
    cases unmarked

/-- Behind plain lines the line-by-line decision is that of the reading. -/
theorem endsInParagraph_iff {lines : List Line} (plain : ∀ k ∈ lines, k.Plain) {b : Line}
    (noUnderline : underline? b = none) :
    endsInParagraph lines ↔ ∃ p, LeavesOpen lines p ∧ p.Takes b := by
  constructor
  · intro ends
    obtain ⟨texts, opens⟩ := leavesOpen_of_inParagraph OpenEnd.closed_start plain ends
    exact ⟨_, opens, noUnderline, nofun⟩
  · rintro ⟨p, opens, -⟩
    exact inParagraph_of_leavesOpen OpenEnd.closed_start plain opens

end Plain

/-! ## Lines without their indentation -/

namespace Line

variable (l : Line)

theorem text_unindented : (l.strip l.indent).text = l.rest := by
  have whole : l.text.takeWhile (· == ' ') ++ l.rest = l.text := List.takeWhile_append_dropWhile
  rw [strip, Nat.min_self, tail, ← whole]
  exact List.drop_left

theorem indent_rest : l.rest.takeWhile (· == ' ') = [] ∧ l.rest.dropWhile (· == ' ') = l.rest := by
  have first : ∀ c ∈ l.rest.head?, ¬ (c == ' ') := by
    intro c hc
    have stops := List.head?_dropWhile_not (· == ' ') l.text
    rw [show l.text.dropWhile (· == ' ') = l.rest from rfl, Option.mem_def.mp hc] at stops
    simpa using stops
  cases text : l.rest with
  | nil => exact ⟨rfl, rfl⟩
  | cons c s =>
    rw [text] at first
    exact ⟨List.takeWhile_cons_of_neg (first c rfl), List.dropWhile_cons_of_neg (first c rfl)⟩

theorem indent_unindented : (l.strip l.indent).indent = 0 := by
  rw [indent, text_unindented, l.indent_rest.1]
  rfl

theorem rest_unindented : (l.strip l.indent).rest = l.rest := by
  rw [rest, text_unindented, l.indent_rest.2]

theorem trimStart_unindented : trimStart (l.strip l.indent).text = trimStart l.text := by
  have spaces : ∀ c ∈ List.replicate l.indent ' ', isSpace c := by
    intro c hc
    rw [List.eq_of_mem_replicate hc]
    decide
  rw [text_unindented, ← l.indent_append_rest, trimStart, trimStart,
    List.dropWhile_append_of_pos spaces]

variable {l}

/-- A line that is not deep opens the same with and without its indentation. -/
theorem startsBlock_unindented (shallow : l.indent < 4) :
    startsBlock (l.strip l.indent) = startsBlock l := by
  have narrow : ¬ 4 ≤ l.indent := Nat.not_le.mpr shallow
  -- Only the column at which an item begins is another.
  have marker : (Marker.read? (l.strip l.indent)).any
        (fun m => !m.empty && (m.type == .bullet || m.start == 1)) =
      (Marker.read? l).any fun m => !m.empty && (m.type == .bullet || m.start == 1) := by
    rw [Marker.read?, Marker.read?, indent_unindented, rest_unindented, if_neg (by decide),
      if_neg narrow]
    cases Marker.head? l.rest with
    | none => rfl
    | some found =>
      dsimp only
      split <;> rfl
  rw [startsBlock, startsBlock, marker, indent_unindented, rest_unindented]
  simp [shallow]

end Line

/-! ## What a lazy line does -/

/-- A line that opens no block, without its indentation, behind any lines.  If they leave a
paragraph open, all containers around it take the line, and the line is no underline, then the
paragraph has one line more and all else that is read is the same.  Under no other condition do the
lines grow in a paragraph alone.  Behind plain lines the condition is what they say one by one. -/
theorem parseBlocks_lazy (o : ParseOptions) (depth : Nat) (lines : List Line) {l : Line}
    (filled : ¬ l.isBlank) (opens : startsBlock l = false)
    (deep : 4 ≤ l.indent → startsBlock (l.strip l.indent) = false) :
    let b := l.strip l.indent
    let before := parseBlocks o depth false false lines
    let after := parseBlocks o depth false false (lines ++ [b])
    (∀ e, before.failure = some e → after.failure = some e) ∧
      (before.failure = none → ∀ p, LeavesOpen lines p → p.Takes b →
        Parsed.Amends (inlineTrees o.smart (paragraphText p.texts))
            (inlineTrees o.smart (paragraphText (p.texts ++ [trimStart l.text]))) before after ∧
          after.loose = before.loose) ∧
      (∀ is js, Parsed.Amends is js before after → ∃ p, LeavesOpen lines p ∧ p.Takes b) ∧
      (underline? b = none → (∀ k ∈ lines, k.Plain) →
        (endsInParagraph lines ↔ ∃ p, LeavesOpen lines p ∧ p.Takes b)) := by
  intro b before after
  have hb : b.Lazy :=
    { filled := by rw [Line.isBlank_strip]; exact filled
      flush := l.indent_unindented
      opens := by
        by_cases shallow : l.indent < 4
        · rw [Line.startsBlock_unindented shallow]
          exact opens
        · exact deep (Nat.le_of_not_lt shallow) }
  refine ⟨?_, ?_, ?_, ?_⟩
  · intro e failed
    exact failure_lazy hb depth false false lines failed
  · intro whole p leaves takes
    rw [← l.trimStart_unindented]
    exact leaves.grows hb takes whole
  · intro is js grows
    exact LeavesOpen.of_amends hb depth false false lines grows
  · intro noUnderline plain
    exact endsInParagraph_iff plain noUnderline

/-- A quote around an item that ends in a paragraph, and a line without markers: item, list and
quote take it, so the paragraph is found open. -/
theorem parseBlocks_lazy_nested :
    let lines : List Line := [⟨"> - a".toList, 0⟩]
    let l : Line := ⟨"   b".toList, 6⟩
    (¬ l.isBlank ∧ startsBlock l = false ∧
        (4 ≤ l.indent → startsBlock (l.strip l.indent) = false)) ∧
      (parseBlocks {} 0 false false (lines ++ [l.strip l.indent])).trees =
        [.node .blockQuote [.node (.list .bullet 1 true) [.node .item [.node .paragraph
          [.leaf (.text "a"), .leaf .softbreak, .leaf (.text "b")]]]]] ∧
      ∃ p, LeavesOpen lines p ∧ p.Takes (l.strip l.indent) := by
  intro lines l
  have filled : ¬ l.isBlank := by decide
  have opens : startsBlock l = false := by decide
  have deep : 4 ≤ l.indent → startsBlock (l.strip l.indent) = false := by decide
  have trees : (parseBlocks {} 0 false false lines).trees = [.node .blockQuote
      [.node (.list .bullet 1 true) [.node .item [.node .paragraph [.leaf (.text "a")]]]]] := by
    decide +kernel
  have trees' : (parseBlocks {} 0 false false (lines ++ [l.strip l.indent])).trees =
      [.node .blockQuote [.node (.list .bullet 1 true) [.node .item [.node .paragraph
        [.leaf (.text "a"), .leaf .softbreak, .leaf (.text "b")]]]]] := by
    decide +kernel
  have grows : Parsed.Amends [.leaf (.text "a")]
      [.leaf (.text "a"), .leaf .softbreak, .leaf (.text "b")]
      (parseBlocks {} 0 false false lines)
      (parseBlocks {} 0 false false (lines ++ [l.strip l.indent])) := by
    refine ⟨by decide +kernel, by decide +kernel, ?_⟩
    rw [trees, trees']
    exact .inside [] _ (.inside [] _ (.inside [] _ (.paragraph [])))
  obtain ⟨-, -, only, -⟩ := parseBlocks_lazy {} 0 lines filled opens deep
  exact ⟨⟨filled, opens, deep⟩, trees', only _ _ grows⟩

/-- An underline opens no block, and the lines above it end in a paragraph; but it makes a header of
that, in a quote as well, where it is taken for one more line. -/
theorem parse_lazy_underline :
    let lines : List Line := [⟨"text".toList, 2⟩]
    let l : Line := ⟨"===".toList, 7⟩
    let before := parseBlocks {} 1 false false lines
    let after := parseBlocks {} 1 false false (lines ++ [l.strip l.indent])
    ¬ l.isBlank ∧ startsBlock l = false ∧ endsInParagraph lines ∧
      before.trees = [.node .paragraph [.leaf (.text "text")]] ∧
      after.trees = [.node (.header 1) [.leaf (.text "text")]] ∧
      (∀ is js, ¬ Parsed.Amends is js before after) ∧
      parse {} "> text\n===" =
        .ok (.node .document [.node .blockQuote [.node (.header 1) [.leaf (.text "text")]]]) := by
  intro lines l before after
  have trees : before.trees = [.node .paragraph [.leaf (.text "text")]] := by decide +kernel
  have trees' : after.trees = [.node (.header 1) [.leaf (.text "text")]] := by decide +kernel
  refine ⟨by decide, by decide, by decide, trees, trees', fun is js grows => ?_, by decide +kernel⟩
  have changed := grows.trees
  rw [trees, trees'] at changed
  cases changed.same_content

end MarkdownForest
