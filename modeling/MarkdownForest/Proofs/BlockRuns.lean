/-
# MarkdownForest.Proofs.BlockRuns -- lines as a run of blocks

Reading takes one block after another off the lines, and blank lines between
them.  What kind of block it takes hangs on the text of the first line alone
(`Layout.Opening`), and what it makes of a block does not hang on the blocks
after it (`makesOne_blockThen`).

`blockStarts` are the places where blocks begin.  A blank line separates two
blocks when the second stands right behind it (`separated`), since no block ends
with a blank line but a list that gives its last blank lines back
(`Layout.endsBehind_take`).  That is when the reading finds the lines loose
(`loose_parseBlocks`).
-/
import MarkdownForest.Proofs.TextLines
import Mathlib.Data.List.Forall2
import Mathlib.Data.List.Infix
import Mathlib.Data.List.TakeWhile

namespace MarkdownForest

set_option autoImplicit false

open Text

variable {o : ParseOptions} {depth : Nat} {any blank : Bool}

/-! ## What a line opens -/

/-- The fence that a line opens. -/
def Line.fence? (l : Line) : Option Fence :=
  if 4 ≤ l.indent then none else Fence.open? l.rest

theorem Line.fence?_eq_some {l : Line} {f : Fence} :
    l.fence? = some f ↔ ¬ 4 ≤ l.indent ∧ Fence.open? l.rest = some f := by
  by_cases deep : 4 ≤ l.indent <;> simp [fence?, deep]

namespace Layout

/-- What the block is that begins with the line `l`: its text decides, wherever the line is and
whatever follows. -/
inductive Opening (l : Line) : Prop
  | indented (opens : ∀ n ls, take ⟨l.text, n⟩ ls = takeIndented ⟨l.text, n⟩ ls)
  | fenced (f : Fence) (fence : l.fence? = some f)
      (opens : ∀ n ls, take ⟨l.text, n⟩ ls = takeFenced f l.indent ls)
  | header (level : Nat) (text : List Char)
      (opens : ∀ n ls, take ⟨l.text, n⟩ ls = { layout := .header level text, rest := ls })
  | quote (opens : ∀ n ls, take ⟨l.text, n⟩ ls = takeQuote ⟨l.text, n⟩ ls)
  | rule (opens : ∀ n ls, take ⟨l.text, n⟩ ls = { layout := .rule, rest := ls })
  | list (m : Marker) (read : Marker.read? l = some m)
      (opens : ∀ n ls, take ⟨l.text, n⟩ ls = takeList m ⟨l.text, n⟩ ls)
  | html (opens : ∀ n ls, take ⟨l.text, n⟩ ls = takeHtml ⟨l.text, n⟩ ls)
  | text (opens : ∀ n ls, take ⟨l.text, n⟩ ls = takeText ⟨l.text, n⟩ ls)

theorem opening (l : Line) : Opening l := by
  by_cases deep : 4 ≤ l.indent
  · exact .indented fun n ls => if_pos deep
  have shallow : ∀ n ls, take ⟨l.text, n⟩ ls = _ := fun n ls => if_neg deep
  cases fence : Fence.open? l.rest with
  | some f =>
    refine .fenced f (Line.fence?_eq_some.mpr ⟨deep, fence⟩) fun n ls => ?_
    rw [shallow, show Fence.open? (⟨l.text, n⟩ : Line).rest = some f from fence]
    rfl
  | none =>
  replace shallow : ∀ n ls, take ⟨l.text, n⟩ ls = _ := fun n ls => by
    rw [shallow, show Fence.open? (⟨l.text, n⟩ : Line).rest = none from fence]
  cases header : header? l.rest with
  | some found =>
    refine .header found.1 found.2 fun n ls => ?_
    rw [shallow, show header? (⟨l.text, n⟩ : Line).rest = some found from header]
  | none =>
  replace shallow : ∀ n ls, take ⟨l.text, n⟩ ls = _ := fun n ls => by
    rw [shallow, show header? (⟨l.text, n⟩ : Line).rest = none from header]
  by_cases quote : l.rest.head? = some '>'
  · exact .quote fun n ls => (shallow n ls).trans (if_pos quote)
  replace shallow : ∀ n ls, take ⟨l.text, n⟩ ls = _ := fun n ls =>
    (shallow n ls).trans (if_neg quote)
  by_cases rule : isRule l.rest
  · exact .rule fun n ls => (shallow n ls).trans (if_pos rule)
  replace shallow : ∀ n ls, take ⟨l.text, n⟩ ls = _ := fun n ls =>
    (shallow n ls).trans (if_neg rule)
  cases marker : Marker.read? l with
  | some m =>
    refine .list m marker fun n ls => ?_
    rw [shallow, show Marker.read? ⟨l.text, n⟩ = some m from marker]
  | none =>
  replace shallow : ∀ n ls, take ⟨l.text, n⟩ ls = _ := fun n ls => by
    rw [shallow, show Marker.read? ⟨l.text, n⟩ = none from marker]
  by_cases html : opensHtml l.rest
  · exact .html fun n ls => (shallow n ls).trans (if_pos html)
  · exact .text fun n ls => (shallow n ls).trans (if_neg html)

/-- The kind of the node that a block becomes. -/
def kind : Layout → Kind
  | code _ _ => .codeBlock
  | header _ _ => .header
  | rule => .hrule
  | html _ => .html
  | paragraph _ => .paragraph
  | quote _ _ => .blockQuote
  | list _ _ _ _ => .list

end Layout

/-! ## One block and the blocks after it -/

/-- What is made of a block in front of what more was made; `separated` tells of blank lines before
it. -/
def blockThen (o : ParseOptions) (depth : Nat) (x : Layout) (separated : Bool) (more : Parsed) :
    Parsed :=
  match x with
  | .quote offset inner =>
    if o.maxNesting ≤ depth then .fail ⟨offset, o.maxNesting⟩
    else .within .blockQuote separated (parseBlocks o (depth + 1) false false inner) more
  | .list offset m items spaced =>
    if o.maxNesting ≤ depth then .fail ⟨offset, o.maxNesting⟩
    else
      let inside := parseItems o (depth + 1) items
      .within (.list m.type m.start (!spaced && !inside.loose)) separated inside more
  | x => .cons (x.leafTree o.smart) separated more

theorem parseBlocks_nil : parseBlocks o depth any blank [] = {} := by
  rw [parseBlocks]

theorem parseBlocks_cons {l : Line} (ls : List Line) (hl : ¬ l.isBlank) :
    parseBlocks o depth any blank (l :: ls) =
      blockThen o depth (Layout.take l ls).layout (any && blank)
        (parseBlocks o depth true (Layout.take l ls).trailingBlank (Layout.take l ls).rest) := by
  cases h : (Layout.take l ls).layout with
  | quote offset inner => exact parseBlocks_quote hl h
  | list offset m items spaced => exact parseBlocks_list hl h
  | _ =>
    rw [parseBlocks_leaf hl (by simp [h]) (by simp [h]), h]
    rfl

theorem blockThen_leaf {x : Layout} (other : x.kind ≠ .blockQuote ∧ x.kind ≠ .list)
    (separated : Bool) (more : Parsed) :
    blockThen o depth x separated more = .cons (x.leafTree o.smart) separated more := by
  cases x with
  | quote _ _ => exact absurd rfl other.1
  | list _ _ _ _ => exact absurd rfl other.2
  | _ => rfl

/-- What a block becomes in front of the blocks after it: one tree, or a stop whatever they are. -/
inductive MakesOne (k : Kind) (made : Bool → Parsed → Parsed) : Prop
  | tree (t : Tree) (kind : t.kind = k)
      (eq : ∀ separated more, made separated more = .cons t separated more)
  | stop (ts : List Tree) (e : NestingTooDeep)
      (trees : ∀ separated more, (made separated more).trees = ts)
      (failed : ∀ separated more, (made separated more).failure = some e)

theorem makesOne_container {k : Kind} {c : Content} (hk : c.kind = k) (full : Prop)
    [Decidable full] (e : NestingTooDeep) (inside : Parsed) :
    MakesOne k fun separated more => if full then .fail e else .within c separated inside more := by
  by_cases h : full
  · simp only [h, if_true]
    exact .stop [] e (fun _ _ => rfl) fun _ _ => rfl
  · simp only [h, if_false]
    cases failed : inside.failure with
    | none =>
      exact .tree (.node c inside.trees) hk fun separated more => by simp [Parsed.within, failed]
    | some e =>
      refine .stop [.node c inside.trees] e (fun _ _ => ?_) fun _ _ => ?_
      all_goals simp [Parsed.within, failed, Parsed.cons, Parsed.fail]

theorem makesOne_blockThen (o : ParseOptions) (depth : Nat) (x : Layout) :
    MakesOne x.kind (blockThen o depth x) := by
  cases x with
  | quote offset inner =>
    exact makesOne_container (c := .blockQuote) rfl (o.maxNesting ≤ depth) _ _
  | list offset m items spaced =>
    let inside := parseItems o (depth + 1) items
    exact makesOne_container (c := .list m.type m.start (!spaced && !inside.loose)) rfl
      (o.maxNesting ≤ depth) _ inside
  | _ => exact .tree _ rfl fun _ _ => rfl

/-! ## Where blocks begin -/

/-- The lines from the first line of each block on. -/
def blockStarts (lines : List Line) : List (List Line) :=
  match lines with
  | [] => []
  | l :: ls =>
    if l.isBlank then blockStarts ls
    else
      have := Layout.weight_rest_lt l ls
      (l :: ls) :: blockStarts (Layout.take l ls).rest
termination_by Line.weight lines
decreasing_by
  · simp only [Line.weight_cons]
    omega
  · assumption

/-- The line in front of the end `rest` of `lines` is blank. -/
def standsBehindBlank (lines rest : List Line) : Bool :=
  (lines.take (lines.length - rest.length)).getLast?.any Line.isBlank

/-- A blank line stands between two blocks, one right after the other. -/
def separated (lines : List Line) : Bool :=
  (blockStarts lines).tail.any (standsBehindBlank lines)

theorem standsBehindBlank_append (front rest : List Line) :
    standsBehindBlank (front ++ rest) rest = front.getLast?.any Line.isBlank := by
  simp [standsBehindBlank]

theorem blockStarts_blank {l : Line} (hl : l.isBlank) (ls : List Line) :
    blockStarts (l :: ls) = blockStarts ls := by
  rw [blockStarts, if_pos hl]

theorem blockStarts_cons {l : Line} (hl : ¬ l.isBlank) (ls : List Line) :
    blockStarts (l :: ls) = (l :: ls) :: blockStarts (Layout.take l ls).rest := by
  rw [blockStarts, if_neg hl]

theorem blockStarts_eq_nil {ls : List Line} : blockStarts ls = [] ↔ ∀ l ∈ ls, l.isBlank := by
  induction ls with
  | nil => simp [blockStarts]
  | cons l ls ih =>
    by_cases hl : l.isBlank
    · rw [blockStarts_blank hl, ih, List.forall_mem_cons]
      simp [hl]
    · rw [blockStarts_cons hl, List.forall_mem_cons]
      simp [hl]

/-- There is a tree for every place where a block begins. -/
theorem length_blockStarts (lines : List Line)
    (whole : (parseBlocks o depth any blank lines).failure = none) :
    (blockStarts lines).length = (parseBlocks o depth any blank lines).trees.length := by
  fun_induction blockStarts lines generalizing any blank with
  | case1 =>
    rw [parseBlocks_nil]
    rfl
  | case2 l ls hl ih =>
    rw [parseBlocks_blank hl] at whole ⊢
    exact ih whole
  | case3 l ls hl _ ih =>
    rw [parseBlocks_cons ls hl] at whole ⊢
    cases makesOne_blockThen o depth (Layout.take l ls).layout with
    | tree t _ eq =>
      rw [eq] at whole ⊢
      exact congrArg Nat.succ (ih whole)
    | stop _ e _ failed =>
      rw [failed] at whole
      cases whole

/-! ## How blocks end -/

/-- Up to their end `rest` the lines are some, the last of which is blank or not. -/
def EndsBehind (blank : Bool) (lines rest : List Line) : Prop :=
  ∃ front k, lines = front ++ k :: rest ∧ k.isBlank = blank

theorem EndsBehind.standsBehindBlank {b : Bool} {lines rest : List Line}
    (h : EndsBehind b lines rest) (front : List Line) :
    standsBehindBlank (front ++ lines) rest = b := by
  obtain ⟨more, k, rfl, rfl⟩ := h
  have split : front ++ (more ++ k :: rest) = (front ++ more ++ [k]) ++ rest := by simp
  rw [split, standsBehindBlank_append, List.getLast?_concat]
  rfl

theorem EndsBehind.trans {b : Bool} {lines rest rest' : List Line} (front : List Line)
    (h : EndsBehind b rest rest') (split : lines = front ++ rest) : EndsBehind b lines rest' := by
  obtain ⟨more, k, rfl, hk⟩ := h
  exact ⟨front ++ more, k, by rw [split, List.append_assoc], hk⟩

/-- What is taken after a line that is not blank. -/
theorem endsBehind_taken {l : Line} (hl : ¬ l.isBlank) (taken rest : List Line) :
    EndsBehind (taken.getLast?.any Line.isBlank) (l :: (taken ++ rest)) rest := by
  rcases List.eq_nil_or_concat taken with rfl | ⟨front, k, rfl⟩
  · exact ⟨[], l, rfl, by simpa using hl⟩
  · exact ⟨l :: front, k, by simp, by simp⟩

theorem endsBehind_filled {l : Line} (hl : ¬ l.isBlank) (taken rest : List Line)
    (h : ∀ k ∈ taken, ¬ k.isBlank) :
    EndsBehind false (l :: (taken ++ rest)) rest := by
  have last : taken.getLast?.any Line.isBlank = false := by
    cases e : taken.getLast? with
    | none => rfl
    | some k => simpa using h k (List.mem_of_getLast? e)
  exact last ▸ endsBehind_taken hl taken rest

/-- The lines that are collected, beside what they are inside. -/
theorem collect_taken (accept : OpenEnd → Line → Option Line) (e : OpenEnd) (ls : List Line) :
    ∃ taken, ls = taken ++ (collect accept e ls).2 ∧
      List.Forall₂ (fun l inside => ∃ e, accept e l = some inside) taken
        (collect accept e ls).1 := by
  induction ls generalizing e with
  | nil => exact ⟨[], rfl, .nil⟩
  | cons l ls ih =>
    simp only [collect]
    split
    · exact ⟨[], rfl, .nil⟩
    · rename_i inside accepted
      obtain ⟨taken, split, each⟩ := ih (e.push inside)
      exact ⟨l :: taken, congrArg (l :: ·) split, .cons ⟨e, accepted⟩ each⟩

/-- Lines that are accepted whatever is open are collected up to the first refused one. -/
theorem collect_accepted {accept : OpenEnd → Line → Option Line} {bare : Line → Line}
    {ls rest : List Line} (accepted : ∀ l ∈ ls, ∀ e, accept e l = some (bare l))
    (refused : ∀ l ∈ rest.head?, ∀ e, accept e l = none) (e : OpenEnd) :
    collect accept e (ls ++ rest) = (ls.map bare, rest) := by
  induction ls generalizing e with
  | nil =>
    cases rest with
    | nil => rfl
    | cons l rest => simp [collect, refused l rfl e]
  | cons l ls ih =>
    obtain ⟨here, more⟩ := List.forall_mem_cons.mp accepted
    simp [collect, here, ih more]

/-- The part that is cut off the end begins with the last element. -/
theorem length_dropEndWhile_lt {α : Type} (p : α → Bool) (s : List α) :
    decide ((dropEndWhile p s).length < s.length) = s.getLast?.any p := by
  rcases List.eq_nil_or_concat s with rfl | ⟨t, c, rfl⟩
  · rfl
  · cases hc : p c with
    | false => simp [dropEndWhile, hc]
    | true =>
      have := length_dropEndWhile_le p t
      simp [dropEndWhile, hc] at this ⊢
      omega

theorem dropEndWhile_eq_self {α : Type} {p : α → Bool} {s : List α}
    (h : s.getLast?.any p = false) : dropEndWhile p s = s := by
  have same := length_dropEndWhile_lt p s
  rw [h, decide_eq_false_iff_not, Nat.not_lt] at same
  exact List.IsPrefix.eq_of_length_le (prefix_dropEndWhile p s) same

theorem getLast?_dropEndWhile {α : Type} (p : α → Bool) (s : List α) :
    (dropEndWhile p s).getLast?.any p = false := by
  rw [dropEndWhile, List.getLast?_reverse]
  have := List.head?_dropWhile_not p s.reverse
  cases h : (s.reverse.dropWhile p).head? with
  | none => rfl
  | some c => simpa [h] using this

/-- What is cut off the end is what `p` holds of. -/
theorem drop_dropEndWhile {α : Type} (p : α → Bool) (s : List α) :
    s.drop (dropEndWhile p s).length = (s.reverse.takeWhile p).reverse := by
  have split : dropEndWhile p s ++ (s.reverse.takeWhile p).reverse = s := by
    rw [dropEndWhile, ← List.reverse_append, List.takeWhile_append_dropWhile, List.reverse_reverse]
  calc s.drop (dropEndWhile p s).length
      = (dropEndWhile p s ++ (s.reverse.takeWhile p).reverse).drop (dropEndWhile p s).length := by
        rw [split]
    _ = (s.reverse.takeWhile p).reverse := List.drop_left

theorem dropEndWhile_concat {α : Type} {p : α → Bool} {c : α} (hc : p c) (s : List α) :
    dropEndWhile p (s ++ [c]) = dropEndWhile p s := by
  simp [dropEndWhile, hc]

/-- Taking spaces off leaves a line blank, or not. -/
theorem Line.isBlank_strip (l : Line) (n : Nat) : (l.strip n).isBlank = l.isBlank := by
  have text := l.indent_append_rest
  have left : (l.strip n).text = List.replicate (l.indent - min l.indent n) ' ' ++ l.rest := by
    rw [strip, tail]
    conv => lhs; rw [← text]
    have short : min l.indent n ≤ (List.replicate l.indent ' ').length := by
      rw [List.length_replicate]
      exact Nat.min_le_left _ _
    rw [List.drop_append_of_le_length short, List.drop_replicate]
  have spaces : ∀ k, Text.isBlank (List.replicate k ' ') := by
    intro k
    simp [Text.isBlank, show isSpace ' ' by decide]
  rw [isBlank, isBlank, left, ← text, isBlank_append, isBlank_append, spaces, spaces]

/-- The line in front of an end of lines, of those collected and of what they are inside. -/
theorem getLast?_collected {ls ks : List Line}
    (h : List.Forall₂ (fun l k => l.isBlank = k.isBlank) ls ks) :
    ls.getLast?.any Line.isBlank = ks.getLast?.any Line.isBlank := by
  have reversed := List.rel_reverse h
  rw [← List.head?_reverse, ← List.head?_reverse]
  generalize ls.reverse = ls', ks.reverse = ks' at reversed
  cases reversed with
  | nil => rfl
  | cons same _ => exact same

/-- No paragraph is open behind a blank line. -/
theorem inParagraph_blank {k : Line} (blank : k.isBlank) (e : OpenEnd) :
    (e.push k).inParagraph = false := by
  unfold OpenEnd.push
  dsimp only
  cases e.fence with
  | some f => rfl
  | none =>
    dsimp only
    rw [if_pos blank]
    rfl

theorem isBlank_acceptItem {m : Marker} {e : OpenEnd} {l k : Line}
    (h : acceptItem m e l = some k) : l.isBlank = k.isBlank := by
  unfold acceptItem at h
  split at h
  · rename_i blank
    split at h
    · cases h
    · cases h
      exact blank
  · split at h
    · cases h
      exact (l.isBlank_strip _).symm
    · split at h
      · cases h
      · split at h
        · cases h
          exact (l.isBlank_strip _).symm
        · cases h

theorem Line.not_isQuoted_of_isBlank {l : Line} (h : l.isBlank) : l.isQuoted = false := by
  rw [Bool.eq_false_iff]
  intro quoted
  have first : l.rest.head? = some '>' := (by simpa [Line.isQuoted] using quoted : _ ∧ _).2
  have mem : '>' ∈ l.text :=
    (List.dropWhile_suffix _).mem (List.mem_of_mem_head? (Option.mem_def.mpr first))
  have space : isSpace '>' := List.all_eq_true.mp h _ mem
  exact absurd space (by decide)

theorem not_isBlank_of_acceptQuoted {e : OpenEnd} {l k : Line} (h : acceptQuoted e l = some k) :
    ¬ l.isBlank := by
  intro blank
  have quoted : l.isQuoted = false := Line.not_isQuoted_of_isBlank blank
  simp [acceptQuoted, quoted, blank] at h

theorem takeParagraph_taken (ls : List Line) :
    ∃ taken, ls = taken ++ (takeParagraph ls).2.2 ∧ ∀ k ∈ taken, ¬ k.isBlank := by
  induction ls with
  | nil => exact ⟨[], rfl, nofun⟩
  | cons l ls ih =>
    obtain ⟨taken, split, filled⟩ := ih
    simp only [takeParagraph]
    split
    · exact ⟨[], rfl, nofun⟩
    · rename_i here
      split
      · exact ⟨[l], rfl, by simpa using here⟩
      · split
        · exact ⟨[], rfl, nofun⟩
        · exact ⟨l :: taken, congrArg (l :: ·) split, List.forall_mem_cons.mpr ⟨here, filled⟩⟩

theorem Fence.of_open? {s : List Char} {f : Fence} (h : Fence.open? s = some f) :
    isSpace f.mark = false ∧ 3 ≤ f.length := by
  have ofMark : ∀ {mark : Char}, isSpace mark = false → Fence.ofMark? mark s = some f →
      isSpace f.mark = false ∧ 3 ≤ f.length := by
    intro mark ink h
    unfold Fence.ofMark? at h
    dsimp only at h
    split at h
    · cases h
    · rename_i long
      cases h
      simp only [Bool.or_eq_true, decide_eq_true_eq, not_or] at long
      exact ⟨ink, Nat.le_of_not_lt long.1⟩
  unfold Fence.open? at h
  split at h
  · exact ofMark (by decide) h
  · exact ofMark (by decide) h
  · cases h

/-- A blank line closes no fence. -/
theorem Fence.not_closedBy_blank {s : List Char} {f : Fence} (h : Fence.open? s = some f) {l : Line}
    (hl : l.isBlank) : f.closedBy l = false := by
  obtain ⟨ink, long⟩ := Fence.of_open? h
  have run : runLength f.mark l.rest = 0 := by
    cases hr : l.rest with
    | nil => rfl
    | cons c t =>
      have mem : c ∈ l.text := (List.dropWhile_suffix _).mem (hr ▸ List.mem_cons_self)
      have space : isSpace c := List.all_eq_true.mp hl c mem
      have other : c ≠ f.mark := ne_of_class space ink
      simp [runLength, other]
  have short : ¬ f.length ≤ 0 := by omega
  simp [closedBy, run, short]

theorem endsBehind_takeItem {l : Line} (hl : ¬ l.isBlank) (m : Marker) (ls : List Line) :
    EndsBehind (takeItem m l ls).trailingBlank (l :: ls) (takeItem m l ls).rest := by
  obtain ⟨taken, split, each⟩ :=
    collect_taken (acceptItem m) (({} : OpenEnd).push (l.tail m.width)) ls
  have last := getLast?_collected (each.imp fun _ _ taken => taken.elim fun _ => isBlank_acceptItem)
  have trailing : (takeItem m l ls).trailingBlank = taken.getLast?.any Line.isBlank := by
    rw [last]
    exact length_dropEndWhile_lt _ _
  have ends := endsBehind_taken hl taken (takeItem m l ls).rest
  rwa [← trailing, show taken ++ (takeItem m l ls).rest = ls from split.symm] at ends

theorem not_isDigit_of_isSpace {c : Char} (h : isSpace c) : c.isDigit = false := by
  simp [isSpace, within, spaceRanges] at h
  simp only [Char.isDigit, Bool.and_eq_false_iff, decide_eq_false_iff_not, ge_iff_le,
    UInt32.le_iff_toNat_le]
  change ¬ 48 ≤ c.toNat ∨ ¬ c.toNat ≤ 57
  omega

/-- A line with the marker of an item is not blank. -/
theorem Marker.not_isBlank_of_read? {l : Line} {m : Marker} (h : Marker.read? l = some m) :
    ¬ l.isBlank := by
  intro blank
  have none : Marker.head? l.rest = none := by
    cases hr : l.rest with
    | nil => rfl
    | cons c t =>
      have mem : c ∈ l.text := (List.dropWhile_suffix _).mem (hr ▸ List.mem_cons_self)
      have space : isSpace c := List.all_eq_true.mp blank c mem
      have apart : ∀ d, isSpace d = false → c ≠ d := fun d hd => ne_of_class space hd
      simp [head?, apart '-' (by decide), apart '+' (by decide), apart '*' (by decide),
        not_isDigit_of_isSpace space]
  rw [read?, none] at h
  split at h <;> cases h

theorem endsBehind_takeItems {m : Marker} {l : Line} (hl : ¬ l.isBlank) (ls : List Line) :
    EndsBehind (takeItems m l ls).trailingBlank (l :: ls) (takeItems m l ls).rest := by
  fun_induction takeItems m l ls with
  | case1 m l ls item hn => exact endsBehind_takeItem hl m ls
  | case2 m l ls item n k ks hn _ more ih =>
    obtain ⟨rest, read⟩ := nextItem?_eq_some hn
    obtain ⟨front, split⟩ := rest_takeItem_suffix m l ls
    refine (ih (Marker.not_isBlank_of_read? read)).trans (l :: front) ?_
    rw [List.cons_append, ← rest, split]

namespace Layout

/-- In front of lines that are not all blank, a block ends with a line that is not blank, unless it
tells that it ends with blank ones. -/
theorem endsBehind_take {l : Line} {ls : List Line} (hl : ¬ l.isBlank)
    (more : ¬ ∀ k ∈ (take l ls).rest, k.isBlank) :
    EndsBehind (take l ls).trailingBlank (l :: ls) (take l ls).rest := by
  have here : EndsBehind false (l :: ls) ls := endsBehind_filled hl [] ls nofun
  cases opening l with
  | indented opens =>
    rw [opens l.offset ls]
    let code := dropEndWhile Line.isBlank (ls.takeWhile fun k => k.isBlank || 4 ≤ k.indent)
    have front : code <+: ls :=
      List.IsPrefix.trans (prefix_dropEndWhile _ _) (List.takeWhile_prefix _)
    have ends := endsBehind_taken hl code (ls.drop code.length)
    rwa [getLast?_dropEndWhile, ← List.prefix_append_drop front] at ends
  | fenced f fence opens =>
    rw [opens l.offset ls] at more ⊢
    obtain ⟨-, fence⟩ := Line.fence?_eq_some.mp fence
    cases closing : ls.dropWhile fun k => !f.closedBy k with
    | nil => simp [takeFenced, closing] at more
    | cons close rest =>
      have closed : f.closedBy close := by
        have := List.head?_dropWhile_not (fun k => !f.closedBy k) ls
        simpa [closing] using this
      have filled : ¬ close.isBlank := fun blank => by
        simp [Fence.not_closedBy_blank fence blank] at closed
      refine ⟨l :: ls.takeWhile fun k => !f.closedBy k, close, ?_, Bool.eq_false_iff.mpr filled⟩
      rw [takeFenced, closing, List.cons_append]
      exact congrArg (l :: ·) (closing ▸ List.takeWhile_append_dropWhile.symm)
  | header level text opens =>
    rw [opens l.offset ls]
    exact here
  | quote opens =>
    rw [opens l.offset ls]
    obtain ⟨taken, split, each⟩ :=
      collect_taken acceptQuoted (({} : OpenEnd).push l.unquoted) ls
    have filled : ∀ k ∈ taken, ¬ k.isBlank := by
      refine ((List.forall₂_and_left (R := fun _ _ => True) _ _).mp (each.imp ?_)).1
      exact fun _ _ taken => ⟨taken.elim fun _ => not_isBlank_of_acceptQuoted, trivial⟩
    have ends := endsBehind_filled hl taken (takeQuote l ls).rest filled
    rwa [show taken ++ (takeQuote l ls).rest = ls from split.symm] at ends
  | rule opens =>
    rw [opens l.offset ls]
    exact here
  | list m read opens =>
    rw [opens l.offset ls]
    exact endsBehind_takeItems hl ls
  | html opens =>
    rw [opens l.offset ls]
    have ends := endsBehind_filled hl (ls.takeWhile fun k => !k.isBlank) (takeHtml l ls).rest
      fun k hk => by simpa using List.mem_takeWhile_imp hk
    rwa [show _ ++ (takeHtml l ls).rest = ls from List.takeWhile_append_dropWhile] at ends
  | text opens =>
    rw [opens l.offset ls]
    obtain ⟨taken, split, filled⟩ := takeParagraph_taken ls
    have ends := endsBehind_filled hl taken (takeParagraph ls).2.2 filled
    rw [← split] at ends
    unfold takeText
    dsimp only
    split <;> exact ends

end Layout

/-! ## Loose lines -/

/-- The reading finds a blank line in front of a block as it stands in the whole run of lines; the
first block does not count unless others stand before it. -/
theorem loose_of_suffix (front lines : List Line)
    (whole : (parseBlocks o depth any blank lines).failure = none)
    (hb : blank = standsBehindBlank (front ++ lines) lines) :
    (parseBlocks o depth any blank lines).loose =
      (if any then blockStarts lines else (blockStarts lines).tail).any
        (standsBehindBlank (front ++ lines)) := by
  fun_induction blockStarts lines generalizing front any blank with
  | case1 =>
    rw [parseBlocks_nil]
    cases any <;> rfl
  | case2 l ls hl ih =>
    rw [parseBlocks_blank hl] at whole ⊢
    rw [List.append_cons]
    refine ih (front ++ [l]) whole ?_
    rw [standsBehindBlank_append, List.getLast?_concat]
    exact hl.symm
  | case3 l ls hl _ ih =>
    rw [parseBlocks_cons ls hl] at whole ⊢
    cases makesOne_blockThen o depth (Layout.take l ls).layout with
    | stop _ e _ failed =>
      rw [failed] at whole
      cases whole
    | tree t _ eq =>
      rw [eq] at whole ⊢
      have more : (parseBlocks o depth true (Layout.take l ls).trailingBlank
          (Layout.take l ls).rest).loose =
          (blockStarts (Layout.take l ls).rest).any (standsBehindBlank (front ++ l :: ls)) := by
        by_cases rest : ∀ k ∈ (Layout.take l ls).rest, k.isBlank
        · rw [parseBlocks_blanks rest, blockStarts_eq_nil.mpr rest]
          rfl
        · have ends := Layout.endsBehind_take hl rest
          have behind := ends.standsBehindBlank front
          obtain ⟨taken, k, split, -⟩ := ends
          have regroup : front ++ l :: ls = (front ++ taken ++ [k]) ++ (Layout.take l ls).rest := by
            rw [split]
            simp
          rw [regroup] at behind ⊢
          exact ih _ whole behind.symm
      rw [Parsed.cons]
      dsimp only
      rw [more]
      cases any <;> simp [hb]

theorem loose_parseBlocks {lines : List Line}
    (whole : (parseBlocks o depth false false lines).failure = none) :
    (parseBlocks o depth false false lines).loose = separated lines :=
  loose_of_suffix [] lines whole (by simp [standsBehindBlank])

end MarkdownForest
