/-
# MarkdownForest.Proofs.ItemCode -- fenced code inside an item

The lines of fenced code that hangs under the marker of an item pass two loops: the
item takes its lines, before it is known that they are code, and the fence takes what
the item made of them.

* `accept_indented`: the item takes every line that stands two columns in, and of a
  line of nothing but white space it leaves nothing (`blanked`);
* `take_itemCode`: what it took is code with these lines;
* `parse_itemCode`: so the code is read as it stands but for such lines, and exactly
  as it stands if there are none but empty ones.
-/
import MarkdownForest.Proofs.ContainedSources
import MarkdownForest.Proofs.FinalNewline

namespace MarkdownForest

set_option autoImplicit false

open Text CommonMark
open Line (Verbatim)

/-! ## Sources -/

/-- Code between fences in an item, the lines of the code and the closing fence two columns in. -/
def itemCode (lines : List (List Char)) : List Char :=
  List.intercalate ['\n'] ("- ```".toList :: (lines ++ ["```".toList]).map (' ' :: ' ' :: ·))

/-- A document of one item with code in it. -/
def itemCodeDocument (literal : List Char) : Tree :=
  .node .document [.node (.list .bullet 1 true)
    [.node .item [.leaf (.codeBlock "" (String.ofList literal))]]]

/-- Lines of code that nothing in them ends, and no tab. -/
def IsCodeLine (s : List Char) : Prop :=
  '\n' ∉ s ∧ '\t' ∉ s ∧ '\r' ∉ s ∧ '\x60' ∉ s

instance (s : List Char) : Decidable (IsCodeLine s) :=
  inferInstanceAs (Decidable (_ ∧ _))

/-- What is left in an item of a line. -/
def blanked (s : List Char) : List Char :=
  if Text.isBlank s then [] else s

section Lines

variable {s : List Char} {lines : List (List Char)}

theorem blanked_eq_self : blanked s = s ↔ (Text.isBlank s → s = []) := by
  unfold blanked
  split
  · rename_i blank
    exact ⟨fun e _ => e.symm, fun empty => (empty blank).symm⟩
  · rename_i filled
    exact iff_of_true rfl fun blank => absurd blank filled

theorem mem_blanked {c : Char} (h : c ∈ blanked s) : c ∈ s := by
  unfold blanked at h
  split at h
  · cases h
  · exact h

/-- A line of code stays as it is in the source. -/
theorem verbatim_indented (h : IsCodeLine s) : Verbatim (' ' :: ' ' :: s) := by
  obtain ⟨feed, tab, carriage, -⟩ := h
  refine ⟨by simp [feed], fun mem => ?_, fun last => ?_⟩
  · have inside := (List.takeWhile_prefix _).subset mem
    simp [tab] at inside
  · have inside := List.mem_of_getLast? last
    simp [carriage] at inside

/-- The code is told by its lines, so it stays if its lines do. -/
theorem endedLines_blanked (plain : ∀ s ∈ lines, IsCodeLine s) :
    endedLines (lines.map blanked) = endedLines lines ↔
      ∀ s ∈ lines, Text.isBlank s → s = [] := by
  have left : ∀ s ∈ lines.map blanked, '\n' ∉ s := by
    intro t ht feed
    obtain ⟨s, hs, rfl⟩ := List.mem_map.mp ht
    exact (plain s hs).1 (mem_blanked feed)
  have each : lines.map blanked = lines ↔ ∀ s ∈ lines, Text.isBlank s → s = [] := by
    conv in lines.map blanked = lines => rhs; rw [← List.map_id lines]
    simp only [List.map_inj_left, id, blanked_eq_self]
  rw [← each]
  constructor
  · intro same
    have cut := splitOn_endedLines left
    rw [same, splitOn_endedLines fun s hs => (plain s hs).1] at cut
    exact (List.append_cancel_right cut).symm
  · intro stay
    rw [stay]

end Lines

/-! ## Reading the item -/

/-- The marker on the first line. -/
def codeMarker : Marker :=
  writtenMarker .bullet 1 false 0

theorem ofSource_itemCode {lines : List (List Char)} (plain : ∀ s ∈ lines, IsCodeLine s) :
    (Line.ofSource (itemCode lines)).map Line.text =
      "- ```".toList :: (lines ++ ["```".toList]).map (' ' :: ' ' :: ·) := by
  have verbatim : ∀ s ∈ "- ```".toList :: (lines ++ ["```".toList]).map (' ' :: ' ' :: ·),
      Verbatim s := by
    intro t ht
    rcases List.mem_cons.mp ht with rfl | ht
    · decide
    · obtain ⟨s, hs, rfl⟩ := List.mem_map.mp ht
      rcases List.mem_append.mp hs with hs | hs
      · exact verbatim_indented (plain s hs)
      · rw [List.mem_singleton.mp hs]
        decide
  rw [itemCode, Line.ofSource, List.splitOn_intercalate _ (fun s hs => (verbatim s hs).oneLine)
    (List.cons_ne_nil _ _)]
  exact Line.map_text_number verbatim 0

/-- The item takes lines that stand two columns in, and of each what `blanked` leaves. -/
theorem accept_indented {ls : List Line} {ss : List (List Char)}
    (lines : ls.map Line.text = ss.map (' ' :: ' ' :: ·)) :
    (∀ k ∈ ls, ∀ e, acceptItem codeMarker e k = some (k.unhung 2)) ∧
      (ls.map (Line.unhung 2)).map Line.text = ss.map blanked := by
  induction ls generalizing ss with
  | nil =>
    obtain rfl : ss = [] := List.map_eq_nil_iff.mp lines.symm
    exact ⟨nofun, rfl⟩
  | cons l ls ih =>
    obtain ⟨s, ss, rfl, here, more⟩ := List.map_eq_cons_iff.mp lines.symm
    obtain ⟨accepted, texts⟩ := ih more.symm
    obtain ⟨first, text⟩ :=
      accept_unhung (m := codeMarker) (l := l) (k := 2) rfl here.symm fun _ => rfl
    have left : (l.unhung 2).text = blanked s := text
    constructor
    · exact List.forall_mem_cons.mpr ⟨first, accepted⟩
    · rw [List.map_cons, List.map_cons, texts, left, List.map_cons]

/-- No line of the code makes the fences longer. -/
theorem codeFence_blanked {lines : List (List Char)} (plain : ∀ s ∈ lines, IsCodeLine s) :
    codeFence [] (endedLines (lines.map blanked)) = 3 := by
  have free : '\x60' ∉ endedLines (lines.map blanked) := by
    intro mem
    obtain ⟨t, ht, mem⟩ := List.mem_flatMap.mp mem
    obtain ⟨s, hs, rfl⟩ := List.mem_map.mp ht
    rcases List.mem_append.mp mem with mem | mem
    · exact (plain s hs).2.2.2 (mem_blanked mem)
    · exact absurd (List.mem_singleton.mp mem) (by decide)
  have mark : codeMark [] = '\x60' := rfl
  rw [codeFence, mark, longestRun_of_not_mem free]
  rfl

/-- All lines are those of one item, and in it they are fenced code. -/
theorem take_itemCode {lines : List (List Char)} (plain : ∀ s ∈ lines, IsCodeLine s) {l : Line}
    {ls : List Line} (first : l.text = "- ```".toList)
    (more : ls.map Line.text = (lines ++ ["```".toList]).map (' ' :: ' ' :: ·)) :
    takeItems codeMarker l ls = ⟨[l.tail 2 :: ls.map (Line.unhung 2)], [], false, false⟩ ∧
      Layout.take (l.tail 2) (ls.map (Line.unhung 2)) =
        { layout := .code [] (endedLines (lines.map blanked)), rest := [] } := by
  have fence := codeFence_blanked plain
  obtain ⟨accepted, texts⟩ := accept_indented more
  rw [List.map_append, List.map_singleton] at texts
  obtain ⟨code, closing, split, inside, last⟩ := List.map_eq_append_iff.mp texts
  obtain ⟨close, rfl, ends⟩ := List.map_eq_singleton_iff.mp last
  constructor
  · refine takeItems_accepted accepted ?_
    have filled : close.isBlank = false := by
      rw [Line.isBlank, ends]
      decide
    change (l.tail 2 :: ls.map (Line.unhung 2)).getLast?.any Line.isBlank = false
    rw [split, ← List.cons_append, List.getLast?_concat]
    exact filled
  · have opening : (l.tail 2).text = codeOpening [] (endedLines (lines.map blanked)) := by
      rw [codeOpening, fence, Line.tail, first]
      rfl
    have closing : close.text = codeClosing [] (endedLines (lines.map blanked)) := by
      rw [codeClosing, fence, ends]
      decide
    rw [split]
    exact take_codeBlock rfl opening inside closing []

section Parse

variable {o : ParseOptions} {lines : List (List Char)}

/-- The source is one list of one item of code, and its last line ends that. -/
theorem readSource_itemCode (limit : 0 < o.maxNesting) (plain : ∀ s ∈ lines, IsCodeLine s) :
    (readSource o (itemCode lines)).failure = none ∧
      Tree.node .document (readSource o (itemCode lines)).trees =
        itemCodeDocument (endedLines (lines.map blanked)) ∧
      endsInFence (Line.ofSource (itemCode lines)) = false := by
  obtain ⟨l, ls, cut, first, more⟩ := List.map_eq_cons_iff.mp (ofSource_itemCode plain)
  obtain ⟨items, code⟩ := take_itemCode plain first more
  obtain ⟨text, offset⟩ := l
  obtain rfl : text = "- ```".toList := first
  have taken : Layout.take ⟨"- ```".toList, offset⟩ ls =
      Layout.takeList codeMarker ⟨"- ```".toList, offset⟩ ls := rfl
  have filled : ¬ (⟨"- ```".toList, offset⟩ : Line).isBlank := Bool.false_ne_true
  have inside : ¬ ((⟨"- ```".toList, offset⟩ : Line).tail 2).isBlank := Bool.false_ne_true
  have read : readSource o (itemCode lines) =
      { trees := (itemCodeDocument (endedLines (lines.map blanked))).children } := by
    rw [readSource, cut, parseBlocks_cons ls filled, taken, Layout.takeList, items,
      parseBlocks_nil, blockThen, if_neg (Nat.not_le.mpr limit), parseItems, parseItems,
      parseBlocks_cons _ inside, code, parseBlocks_nil, blockThen_leaf (by simp [Layout.kind])]
    rfl
  have ends : endsInFence (Line.ofSource (itemCode lines)) = false := by
    rw [cut, endsInFence, blockStarts_cons filled, taken, Layout.takeList, items, blockStarts]
    rfl
  rw [read]
  exact ⟨rfl, rfl, ends⟩

end Parse

/-- Code inside an item, with a line feed behind its last line or not: the source is a tight list of
one item, the only block of which is code without an info string, of the lines as they stand in the
item, and of an empty one for each line of nothing but white space.  So the code is what stands in
the item exactly if there are no such lines but empty ones. -/
theorem parse_itemCode {o : ParseOptions} (limit : 0 < o.maxNesting) {lines : List (List Char)}
    (plain : ∀ s ∈ lines, IsCodeLine s) {after : List Char} (hafter : after = [] ∨ after = ['\n']) :
    parse o (String.ofList (itemCode lines ++ after)) =
        .ok (itemCodeDocument (endedLines (lines.map blanked))) ∧
      (parse o (String.ofList (itemCode lines ++ after)) =
          .ok (itemCodeDocument (endedLines lines)) ↔
        ∀ s ∈ lines, Text.isBlank s → s = []) := by
  obtain ⟨ok, trees, closed⟩ := readSource_itemCode limit plain
  have read : parse o (String.ofList (itemCode lines ++ after)) =
      .ok (itemCodeDocument (endedLines (lines.map blanked))) := by
    rw [parse_eq_ok, String.toList_ofList]
    rcases hafter with rfl | rfl
    · rw [List.append_nil]
      exact ⟨ok, trees.symm⟩
    · have longer : Line.ofSource (itemCode lines ++ ['\n']) =
          Line.ofSource (itemCode lines) ++ [⟨[], utf8Length (itemCode lines) + 1⟩] := by
        rw [Line.ofSource_append, List.splitOn_nil]
        rfl
      obtain ⟨failure, same⟩ := parseBlocks_snoc o 0 false false
        (b := ⟨[], utf8Length (itemCode lines) + 1⟩) rfl (Line.ofSource (itemCode lines))
      have kept := same ok
      rw [if_neg (by simp [closed])] at kept
      rw [readSource, longer, failure, kept]
      exact ⟨ok, trees.symm⟩
  refine ⟨read, ?_⟩
  rw [read, ← endedLines_blanked plain]
  simp [itemCodeDocument, Tree.leaf, String.ofList_inj]

/-- Fences, markers and quotes that are code, with an empty line and one that is not. -/
def thornyCode : List (List Char) :=
  ["- a".toList, [], "    > ~~~".toList, "\u00a0".toList, " 1. b ".toList]

theorem parse_itemCode_thorny :
    0 < ({} : ParseOptions).maxNesting ∧ (∀ s ∈ thornyCode, IsCodeLine s) ∧
      itemCode thornyCode = "- ```\n  - a\n  \n      > ~~~\n  \u00a0\n   1. b \n  ```".toList ∧
      parse {} (String.ofList (itemCode thornyCode ++ ['\n'])) =
        .ok (itemCodeDocument "- a\n\n    > ~~~\n\n 1. b \n".toList) := by
  have limit : 0 < ({} : ParseOptions).maxNesting := by decide
  have code : ∀ s ∈ thornyCode, IsCodeLine s := by decide
  have written : itemCode thornyCode =
      "- ```\n  - a\n  \n      > ~~~\n  \u00a0\n   1. b \n  ```".toList := by decide
  have literal : endedLines (thornyCode.map blanked) =
      "- a\n\n    > ~~~\n\n 1. b \n".toList := by decide
  refine ⟨limit, code, written, ?_⟩
  rw [← literal]
  exact (parse_itemCode limit code (.inr rfl)).1

/-- Three of the spaces on the first line of the code are part of it, and are lost. -/
theorem parse_blankCode :
    parse {} "- ```\n     \n  x\n  ```" = .ok (itemCodeDocument "\nx\n".toList) ∧
      itemCode ["   ".toList, "x".toList] = "- ```\n     \n  x\n  ```".toList ∧
      ¬ ∀ lines : List (List Char), lines ≠ [] → (∀ s ∈ lines, IsCodeLine s) →
        parse {} (String.ofList (itemCode lines)) = .ok (itemCodeDocument (endedLines lines)) := by
  have read : parse {} "- ```\n     \n  x\n  ```" = .ok (itemCodeDocument "\nx\n".toList) := by
    decide +kernel
  have written : String.ofList (itemCode ["   ".toList, "x".toList]) =
      "- ```\n     \n  x\n  ```" := by
    decide
  refine ⟨read, by decide, fun all => ?_⟩
  have whole := all ["   ".toList, "x".toList] (by decide) (by decide)
  rw [written, read] at whole
  revert whole
  decide

end MarkdownForest
