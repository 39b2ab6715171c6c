/-
# MarkdownForest.Proofs.FinalNewline -- a line feed at the end of a source

A line feed at the end of a source is the beginning of one more line, which is
empty.  Every block takes it for nothing (`Layout.take_snoc`), also when it is
open there and however deep containers are, but one: code whose fence no line
closes gets an empty line more.  `parse_lineFeed` says what becomes of the
document.
-/
import MarkdownForest.Proofs.FollowingLines

namespace MarkdownForest

set_option autoImplicit false

open Text

/-! ## Open fences -/

/-- The first line opens a fence that none of the others closes. -/
def staysOpen : List Line → Bool
  | [] => false
  | l :: ls => l.fence?.any fun f => !ls.any f.closedBy

/-- The last block of the lines is code whose fence no line closes. -/
def endsInFence (lines : List Line) : Bool :=
  (blockStarts lines).getLast?.any staysOpen

/-- The last of the trees is code, which has one more empty line in the other ones. -/
def GainsLine (ts ts' : List Tree) : Prop :=
  ∃ front info literal, ts = front ++ [.leaf (.codeBlock info literal)] ∧
    ts' = front ++ [.leaf (.codeBlock info (literal ++ "\n"))]

theorem GainsLine.cons {ts ts' : List Tree} (h : GainsLine ts ts') (t : Tree) :
    GainsLine (t :: ts) (t :: ts') := by
  obtain ⟨front, info, literal, rfl, rfl⟩ := h
  exact ⟨t :: front, info, literal, rfl, rfl⟩

theorem endsInFence_blank {l : Line} (hl : l.isBlank) (ls : List Line) :
    endsInFence (l :: ls) = endsInFence ls := by
  rw [endsInFence, blockStarts_blank hl, endsInFence]

theorem endsInFence_last {l : Line} {ls : List Line} (hl : ¬ l.isBlank)
    (last : ∀ k ∈ (Layout.take l ls).rest, k.isBlank) :
    endsInFence (l :: ls) = staysOpen (l :: ls) := by
  rw [endsInFence, blockStarts_cons hl, blockStarts_eq_nil.mpr last]
  rfl

theorem endsInFence_more {l : Line} {ls : List Line} (hl : ¬ l.isBlank)
    (more : ¬ ∀ k ∈ (Layout.take l ls).rest, k.isBlank) :
    endsInFence (l :: ls) = endsInFence (Layout.take l ls).rest := by
  have filled : blockStarts (Layout.take l ls).rest ≠ [] := blockStarts_eq_nil.not.mpr more
  obtain ⟨s, starts, eq⟩ := List.exists_cons_of_ne_nil filled
  rw [endsInFence, blockStarts_cons hl, endsInFence, eq, List.getLast?_cons_cons]

/-! ## One more blank line -/

section Blank

variable {l b : Line} {ls : List Line}

theorem forall_blank_concat (hb : b.isBlank) (h : ∀ k ∈ ls, k.isBlank) :
    ∀ k ∈ ls ++ [b], k.isBlank :=
  List.forall_mem_append.mpr ⟨h, List.forall_mem_singleton.mpr hb⟩

/-- An item does not keep a blank line at its end. -/
theorem takeItem_snoc (hb : b.isBlank) (m : Marker) (l : Line) (ls : List Line)
    (h : ∀ k ∈ (takeItem m l ls).rest, k.isBlank) :
    (takeItem m l (ls ++ [b])).lines = (takeItem m l ls).lines ∧
      ∀ k ∈ (takeItem m l (ls ++ [b])).rest, k.isBlank := by
  -- If all lines are taken, the blank one is refused, or it is taken and cut off again.
  by_cases all : (takeItem m l ls).rest = []
  · have found := collect_goesOn (acceptItem m) (({} : OpenEnd).push (l.tail m.width)) ls [b] all
    generalize List.foldl OpenEnd.push _ _ = e' at found
    simp only [takeItem, found]
    cases taken : acceptItem m e' b with
    | none => simp [collect, taken, hb]
    | some inside =>
      have blank : inside.isBlank := isBlank_acceptItem taken ▸ hb
      simp [collect, taken, dropEndWhile_concat blank]
  · rw [takeItem_stops [b] all]
    exact ⟨rfl, forall_blank_concat hb h⟩

theorem nextItem?_blank {m : Marker} (h : ∀ k ∈ ls, k.isBlank) : nextItem? m ls = none := by
  cases ls with
  | nil => rfl
  | cons k ks =>
    have none : Marker.read? k = none := Option.eq_none_iff_forall_ne_some.mpr fun n read =>
      Marker.not_isBlank_of_read? read (h k List.mem_cons_self)
    simp [nextItem?, none]

theorem takeItems_snoc (hb : b.isBlank) (m : Marker) (l : Line) (ls : List Line)
    (h : ∀ k ∈ (takeItems m l ls).rest, k.isBlank) :
    (takeItems m l (ls ++ [b])).items = (takeItems m l ls).items ∧
      (takeItems m l (ls ++ [b])).spaced = (takeItems m l ls).spaced ∧
      ∀ k ∈ (takeItems m l (ls ++ [b])).rest, k.isBlank := by
  fun_induction takeItems m l ls with
  | case1 m l ls item hn =>
    obtain ⟨lines, rest⟩ := takeItem_snoc hb m l ls h
    rw [takeItems_none (nextItem?_blank rest), lines]
    exact ⟨rfl, rfl, rest⟩
  | case2 m l ls item n k ks hn _ found ih =>
    obtain ⟨here, next⟩ := takeItem_next [b] hn
    obtain ⟨items, spaced, rest⟩ := ih h
    rw [takeItems_some next, here]
    exact ⟨congrArg (_ :: ·) items, congrArg (_ || ·) spaced, rest⟩

namespace Layout

theorem takeIndented_snoc (hb : b.isBlank) (h : ∀ k ∈ (takeIndented l ls).rest, k.isBlank) :
    (takeIndented l (ls ++ [b])).layout = (takeIndented l ls).layout ∧
      ∀ k ∈ (takeIndented l (ls ++ [b])).rest, k.isBlank := by
  have all : ls.dropWhile isDeep = [] := by
    obtain ⟨blanks, rest, -⟩ := rest_takeIndented l ls
    cases ends : ls.dropWhile isDeep with
    | nil => rfl
    | cons k ks =>
      have blank : k.isBlank := h k (by simp [rest, ends])
      have stops := List.head?_dropWhile_not isDeep ls
      simp [ends, isDeep, blank] at stops
  have through : ls.takeWhile isDeep = ls := by
    simpa [all] using List.takeWhile_append_dropWhile (p := isDeep) (l := ls)
  have through' : (ls ++ [b]).takeWhile isDeep = ls ++ [b] := by
    rw [List.takeWhile_append_of_pos (List.dropWhile_eq_nil_iff.mp all),
      List.takeWhile_cons_of_pos (by simp [isDeep, hb]), List.takeWhile_nil]
  rw [takeIndented_eq, through] at h
  rw [takeIndented_eq, takeIndented_eq, through, through', dropEndWhile_concat hb,
    List.drop_append_of_le_length (length_dropEndWhile_le _ _)]
  exact ⟨rfl, forall_blank_concat hb h⟩

/-- The last block takes one more blank line for nothing, unless it is code that stays open. -/
theorem take_snoc (hb : b.isBlank) (last : ∀ k ∈ (take l ls).rest, k.isBlank)
    (closed : staysOpen (l :: ls) = false) :
    (take l (ls ++ [b])).layout = (take l ls).layout ∧
      ∀ k ∈ (take l (ls ++ [b])).rest, k.isBlank := by
  have behind : BeginsBlank [b] := by
    rintro k ⟨⟩
    exact hb
  have other : (take l ls).layout.kind ≠ .list → (take l ls).layout.kind ≠ .codeBlock →
      (take l (ls ++ [b])).layout = (take l ls).layout ∧
        ∀ k ∈ (take l (ls ++ [b])).rest, k.isBlank := by
    intro notList notCode
    rw [take_stops (.inr ⟨behind, notList, notCode⟩)]
    exact ⟨rfl, forall_blank_concat hb last⟩
  cases opening l with
  | indented opens =>
    rw [opens l.offset ls] at last ⊢
    rw [opens l.offset (ls ++ [b])]
    exact takeIndented_snoc hb last
  | fenced f fence opens =>
    obtain ⟨k, mem, close⟩ : ∃ k ∈ ls, f.closedBy k := by
      simpa [staysOpen, fence] using closed
    have closes : (ls.dropWhile fun k => !f.closedBy k) ≠ [] := fun none => by
      simpa [close] using List.dropWhile_eq_nil_iff.mp none k mem
    rw [opens l.offset ls] at last ⊢
    rw [opens l.offset (ls ++ [b]), takeFenced_stops closes]
    exact ⟨rfl, forall_blank_concat hb last⟩
  | list m read opens =>
    rw [opens l.offset ls] at last ⊢
    rw [opens l.offset (ls ++ [b])]
    obtain ⟨items, spaced, rest⟩ := takeItems_snoc hb m l ls last
    exact ⟨by simp only [takeList, items, spaced], rest⟩
  | header level text opens =>
    exact other (by simp [opens l.offset ls, kind]) (by simp [opens l.offset ls, kind])
  | quote opens =>
    exact other (by simp [opens l.offset ls, takeQuote, kind])
      (by simp [opens l.offset ls, takeQuote, kind])
  | rule opens =>
    exact other (by simp [opens l.offset ls, kind]) (by simp [opens l.offset ls, kind])
  | html opens =>
    exact other (by simp [opens l.offset ls, takeHtml, kind])
      (by simp [opens l.offset ls, takeHtml, kind])
  | text opens =>
    rcases kind_takeText l ls with is | is
    all_goals exact other (by simp [opens l.offset ls, is]) (by simp [opens l.offset ls, is])

end Layout

end Blank

/-! ## Runs of blocks and whole sources -/

section Runs

variable {b : Line}

/-- Code that stays open takes an empty line as one of its own. -/
theorem take_staysOpen (hb : b.text = []) {l : Line} {ls : List Line}
    (stays : staysOpen (l :: ls)) :
    ∃ info literal, (Layout.take l ls).layout = .code info literal ∧
      Layout.take l (ls ++ [b]) = { layout := .code info (literal ++ ['\n']), rest := [] } := by
  obtain ⟨f, fence, never⟩ : ∃ f, l.fence? = some f ∧ ∀ k ∈ ls, f.closedBy k = false := by
    simpa [staysOpen, Option.any_eq_true] using stays
  obtain ⟨indent, opens⟩ := Line.fence?_eq_some.mp fence
  have take_eq : ∀ ls, Layout.take l ls = Layout.takeFenced f l.indent ls := fun ls => by
    rw [Layout.take, if_neg indent, opens]
  have never_b : f.closedBy b = false :=
    Fence.not_closedBy_blank opens (by simp [Line.isBlank, hb, Text.isBlank])
  have inside : ls.takeWhile (fun k => !f.closedBy k) = ls :=
    List.takeWhile_eq_self_iff.mpr fun k hk => by simp [never k hk]
  have inside' : (ls ++ [b]).takeWhile (fun k => !f.closedBy k) = ls ++ [b] :=
    List.takeWhile_eq_self_iff.mpr (by simpa [or_imp, forall_and, never_b] using never)
  have rest : (ls ++ [b]).dropWhile (fun k => !f.closedBy k) = [] :=
    List.dropWhile_eq_nil_iff.mpr (by simpa [or_imp, forall_and, never_b] using never)
  have empty : (b.strip l.indent).text = [] := by simp [Line.strip, Line.tail, hb]
  refine ⟨_, _, by rw [take_eq, Layout.takeFenced, inside], ?_⟩
  rw [take_eq, Layout.takeFenced, inside', rest]
  simp [endedLines, empty]

/-- What an empty line makes of the blocks in front of it. -/
theorem parseBlocks_snoc (o : ParseOptions) (depth : Nat) (any blank : Bool) (hb : b.text = [])
    (lines : List Line) :
    (parseBlocks o depth any blank (lines ++ [b])).failure =
        (parseBlocks o depth any blank lines).failure ∧
      ((parseBlocks o depth any blank lines).failure = none →
        if endsInFence lines then
          GainsLine (parseBlocks o depth any blank lines).trees
            (parseBlocks o depth any blank (lines ++ [b])).trees
        else
          (parseBlocks o depth any blank (lines ++ [b])).trees =
            (parseBlocks o depth any blank lines).trees) := by
  have blank_b : b.isBlank := by simp [Line.isBlank, hb, Text.isBlank]
  fun_induction blockStarts lines generalizing any blank with
  | case1 =>
    rw [List.nil_append, parseBlocks_blank blank_b, parseBlocks_nil, parseBlocks_nil]
    exact ⟨rfl, fun _ => by simp [endsInFence, blockStarts]⟩
  | case2 l ls hl ih =>
    rw [List.cons_append, parseBlocks_blank hl, parseBlocks_blank hl, endsInFence_blank hl]
    exact ih any true
  | case3 l ls hl _ ih =>
    rw [List.cons_append, parseBlocks_cons ls hl, parseBlocks_cons _ hl]
    -- Only the last block, which leaves nothing but blank lines, comes upon the empty line.
    by_cases last : ∀ k ∈ (Layout.take l ls).rest, k.isBlank
    · rw [endsInFence_last hl last, parseBlocks_blanks last]
      by_cases stays : staysOpen (l :: ls)
      · obtain ⟨info, literal, here, longer⟩ := take_staysOpen hb stays
        rw [here, longer, if_pos stays, parseBlocks_nil]
        exact ⟨rfl, fun _ => ⟨[], String.ofList info, String.ofList literal, rfl,
          by simp [blockThen, Layout.leafTree, Parsed.cons]⟩⟩
      · rw [Bool.not_eq_true] at stays
        obtain ⟨same, rest⟩ := Layout.take_snoc blank_b last stays
        rw [same, parseBlocks_blanks rest, if_neg (by simp [stays])]
        exact ⟨rfl, fun _ => rfl⟩
    · have left := Layout.leaves_of_filled (by simpa using last) [b]
      rw [endsInFence_more hl last, Layout.take_stops (.inl left)]
      cases makesOne_blockThen o depth (Layout.take l ls).layout with
      | stop ts e trees failed =>
        exact ⟨by rw [failed, failed], fun whole => by simp [failed] at whole⟩
      | tree t kind eq =>
        rw [eq, eq]
        obtain ⟨failure, trees⟩ := ih true (Layout.take l ls).trailingBlank
        refine ⟨failure, fun whole => ?_⟩
        have more := trees whole
        by_cases ends : endsInFence (Layout.take l ls).rest
        · rw [if_pos ends] at more ⊢
          exact more.cons t
        · rw [if_neg ends] at more ⊢
          exact congrArg (t :: ·) more

end Runs

/-- A line feed at the end of a source changes nothing unless the source ends in code whose fence no
line closes; that code gets one more empty line. -/
theorem parse_lineFeed (o : ParseOptions) (source : String) :
    if endsInFence (Line.ofSource source.toList) then
      match parse o source with
      | .error e => parse o (source ++ "\n") = .error e
      | .ok t => ∃ front info literal,
          t = .node .document (front ++ [.leaf (.codeBlock info literal)]) ∧
            parse o (source ++ "\n") =
              .ok (.node .document (front ++ [.leaf (.codeBlock info (literal ++ "\n"))]))
    else parse o (source ++ "\n") = parse o source := by
  have joined : (source ++ "\n").toList = source.toList ++ '\n' :: [] := by simp
  have lines : Line.ofSource (source ++ "\n").toList =
      Line.ofSource source.toList ++ [⟨[], utf8Length source.toList + 1⟩] := by
    rw [joined, Line.ofSource_append, List.splitOn_nil]
    rfl
  obtain ⟨failure, trees⟩ := parseBlocks_snoc o 0 false false
    (b := ⟨[], utf8Length source.toList + 1⟩) rfl (Line.ofSource source.toList)
  rw [← lines] at failure trees
  change (readSource o _).failure = (readSource o source.toList).failure at failure
  cases stop : (readSource o source.toList).failure with
  | some e =>
    have error : parse o source = .error (.nestingTooDeep e.position e.limit) := by
      rw [parse, Parsed.document, Parsed.error?, stop]
      rfl
    have error' : parse o (source ++ "\n") = .error (.nestingTooDeep e.position e.limit) := by
      rw [parse, Parsed.document, Parsed.error?, failure, stop]
      rfl
    rw [error, error']
    split <;> rfl
  | none =>
    have whole := trees stop
    have read : parse o source = .ok (.node .document (readSource o source.toList).trees) :=
      parse_eq_ok.mpr ⟨stop, rfl⟩
    have read' : parse o (source ++ "\n") =
        .ok (.node .document (readSource o (source ++ "\n").toList).trees) :=
      parse_eq_ok.mpr ⟨failure.trans stop, rfl⟩
    by_cases ends : endsInFence (Line.ofSource source.toList)
    · rw [if_pos ends] at whole ⊢
      obtain ⟨front, info, literal, here, longer⟩ := whole
      rw [read, read']
      exact ⟨front, info, literal, congrArg _ here,
        congrArg (fun ts => Except.ok (Tree.node .document ts)) longer⟩
    · rw [if_neg ends] at whole ⊢
      rw [read, read']
      exact congrArg (fun ts => Except.ok (Tree.node .document ts)) whole

/-- The empty line is one of the code. -/
theorem parse_openFence :
    parse {} "```\ncode" = .ok (.node .document [.leaf (.codeBlock "" "code\n")]) ∧
      parse {} ("```\ncode" ++ "\n") =
        .ok (.node .document [.leaf (.codeBlock "" "code\n\n")]) ∧
      ¬ ∀ (o : ParseOptions) (source : String),
        (parse o (source ++ "\n")).toOption = (parse o source).toOption := by
  have read : parse {} "```\ncode" =
      .ok (.node .document [.leaf (.codeBlock "" "code\n")]) := by decide +kernel
  have read' : parse {} ("```\ncode" ++ "\n") =
      .ok (.node .document [.leaf (.codeBlock "" "code\n\n")]) := by decide +kernel
  refine ⟨read, read', fun same => ?_⟩
  have equal := same {} "```\ncode"
  rw [read, read', Except.toOption, Except.toOption, Option.some.injEq] at equal
  revert equal
  decide

end MarkdownForest
