/-
# MarkdownForest.Proofs.AlternatingMarks -- how nested emphasis is written

Emphasis right inside emphasis is written with the other mark, so that the marks
of two levels do not become one run.  But an emphasis inside another is always
written with underscores, so these two do if the outer one has underscores too
(`joins`).

* `writeInlines_nested`: levels of emphasis one inside the other;
* `markUp_eq_rungs`: they are runs with alternating marks, some of two levels or
  more (`runs`);
* `write_tree`: the document with a line of nested emphasis.
-/
import MarkdownForest.CommonMark.Writer
import MarkdownForest.Proofs.NestedText

namespace MarkdownForest

set_option autoImplicit false

open Text Emphasis Scan

/-! ## Marks of nested levels -/

/-- The mark that is not `m`. -/
def other (m : Char) : Char :=
  if m = '*' then '_' else '*'

theorem other_other {m : Char} (hm : m = '*' ∨ m = '_') : other (other m) = m := by
  rcases hm with rfl | rfl <;> decide

theorem other_mark (m : Char) : other m = '*' ∨ other m = '_' := by
  unfold other
  split
  · exact .inr rfl
  · exact .inl rfl

theorem other_ne (m : Char) : other m ≠ m := by
  unfold other
  split
  · rename_i h
    rw [h]
    decide
  · rename_i h
    exact fun e => h e.symm

/-- Whether a level with the mark `m` and the first one inside it have the same mark. -/
def joins (m : Char) (l : Level) (inner : List Level) : Bool :=
  m == '_' && l == .emph && inner.head? == some .emph

/-- Text inside levels of emphasis as it is written when the outermost level has the mark `m`. -/
def markUp : Char → List Level → List Char → List Char
  | _, [], t => t
  | m, l :: ls, t => between m l.marks (markUp (if joins m l ls then m else other m) ls t)

/-- Text inside runs of the given lengths, the marks of which alternate from `m` on. -/
def rungs : Char → List Nat → List Char → List Char
  | _, [], t => t
  | m, n :: ns, t => between m n (rungs (other m) ns t)

/-- Lengths of runs when a single mark is put before the first. -/
def lengthen : List Nat → List Nat
  | [] => [1]
  | n :: ns => (n + 1) :: ns

/-- The lengths of the runs that levels are written with. -/
def runs : Char → List Level → List Nat
  | _, [] => []
  | m, l :: ls => if joins m l ls then lengthen (runs m ls) else l.marks :: runs (other m) ls

theorem joins_eq_true {m : Char} {l : Level} {ls : List Level} (h : joins m l ls) :
    m = '_' ∧ l = .emph ∧ ∃ more, ls = .emph :: more := by
  simp only [joins, Bool.and_eq_true, beq_iff_eq] at h
  exact ⟨h.1.1, h.1.2, List.head?_eq_some_iff.mp h.2⟩

theorem runs_pos {m : Char} {ls : List Level} : ∀ n ∈ runs m ls, 0 < n := by
  induction ls generalizing m with
  | nil => simp [runs]
  | cons l ls ih =>
    intro n hn
    rw [runs] at hn
    split at hn
    · cases h : runs m ls with
      | nil =>
        rw [h] at hn
        rw [List.mem_singleton.mp hn]
        exact Nat.one_pos
      | cons k ks =>
        rw [h, lengthen] at hn
        rcases List.mem_cons.mp hn with rfl | hn
        · exact Nat.succ_pos k
        · exact ih n (h ▸ List.mem_cons_of_mem k hn)
    · rcases List.mem_cons.mp hn with rfl | hn
      · exact l.marks_pos
      · exact ih n hn

theorem runs_eq_cons (m : Char) (l : Level) (ls : List Level) :
    ∃ n ns, runs m (l :: ls) = n :: ns := by
  rw [runs]
  split
  · cases runs m ls with
    | nil => exact ⟨1, [], rfl⟩
    | cons n ns => exact ⟨n + 1, ns, rfl⟩
  · exact ⟨l.marks, runs (other m) ls, rfl⟩

theorem between_between (m : Char) (a b : Nat) (t : List Char) :
    between m a (between m b t) = between m (b + a) t := by
  have left : List.replicate a m ++ List.replicate b m = List.replicate (b + a) m := by
    rw [List.replicate_append_replicate, Nat.add_comm]
  have right : List.replicate b m ++ List.replicate a m = List.replicate (b + a) m :=
    List.replicate_append_replicate
  calc between m a (between m b t)
      = List.replicate a m ++ List.replicate b m ++ t ++
          (List.replicate b m ++ List.replicate a m) := by simp only [between, List.append_assoc]
    _ = between m (b + a) t := by rw [left, right, between]

/-- Levels are written as runs with alternating marks. -/
theorem markUp_eq_rungs (m : Char) (ls : List Level) (t : List Char) :
    markUp m ls t = rungs m (runs m ls) t := by
  induction ls generalizing m with
  | nil => rfl
  | cons l ls ih =>
    rw [markUp, ih, runs]
    by_cases h : joins m l ls
    · obtain ⟨rfl, rfl, more, rfl⟩ := joins_eq_true h
      obtain ⟨n, ns, hn⟩ := runs_eq_cons '_' .emph more
      rw [if_pos h, if_pos h, hn, lengthen, rungs, rungs, between_between]
      rfl
    · rw [if_neg h, if_neg h, rungs]

theorem rungs_head? (m : Char) {ns : List Nat} (pos : ∀ n ∈ ns, 0 < n) (t : List Char) :
    (rungs m ns t).head? = if ns = [] then t.head? else some m := by
  cases ns with
  | nil => rfl
  | cons n ns =>
    obtain ⟨k, rfl⟩ := Nat.exists_eq_succ_of_ne_zero (Nat.pos_iff_ne_zero.mp (pos n (by simp)))
    rfl

theorem rungs_getLast? (m : Char) {ns : List Nat} (pos : ∀ n ∈ ns, 0 < n) (t : List Char) :
    (rungs m ns t).getLast? = if ns = [] then t.getLast? else some m := by
  cases ns with
  | nil => rfl
  | cons n ns =>
    have ne : n ≠ 0 := Nat.pos_iff_ne_zero.mp (pos n (by simp))
    rw [rungs, between, List.getLast?_append, List.getLast?_replicate, if_neg ne]
    rfl

theorem mem_rungs {m : Char} {ns : List Nat} {t : List Char} {c : Char} (hm : m = '*' ∨ m = '_')
    (h : c ∈ rungs m ns t) : c = '*' ∨ c = '_' ∨ c ∈ t := by
  induction ns generalizing m with
  | nil => exact .inr (.inr h)
  | cons n ns ih =>
    simp only [rungs, between, List.mem_append, List.mem_replicate] at h
    rcases h with (⟨-, rfl⟩ | h) | ⟨-, rfl⟩
    · exact hm.imp_right .inl
    · exact ih (other_mark m) h
    · exact hm.imp_right .inl

theorem subset_rungs (m : Char) (ns : List Nat) (t : List Char) : t ⊆ rungs m ns t := by
  induction ns generalizing m with
  | nil => exact fun _ h => h
  | cons n ns ih =>
    intro c h
    simp only [rungs, between, List.mem_append]
    exact .inl (.inr (ih (other m) h))

theorem rungs_ne_nil (m : Char) (ns : List Nat) {t : List Char} (full : t ≠ []) :
    rungs m ns t ≠ [] := by
  intro e
  have := subset_rungs m ns t
  rw [e, List.subset_nil] at this
  exact full this

/-! ## Writing -/

section Write

open CommonMark

variable {t : List Char}

theorem escapeInline_quiet (h : ∀ c ∈ t, isQuiet c) : escapeInline t = t := by
  induction t with
  | nil => rfl
  | cons c t ih =>
    have apart : ∀ d, isQuiet d = false → c ≠ d := fun d hd =>
      ne_of_class (h c List.mem_cons_self) hd
    have special : isSpecial c = false := by
      simp [isSpecial, apart '\\' (by decide), apart '\x60' (by decide), apart '*' (by decide),
        apart '_' (by decide), apart '[' (by decide), apart ']' (by decide), apart '<' (by decide)]
    have bang : c ≠ '!' := apart _ (by decide)
    simp [escapeInline, special, bang, ih fun d hd => h d (List.mem_cons_of_mem _ hd)]

/-- A line that begins with a word other than a number needs no escape there. -/
theorem escapeLineStart_quiet (h : ∀ c ∈ t, isQuiet c)
    (start : ∀ c, t.head? = some c → isWord c ∧ c.isDigit = false) : escapeLineStart t = t := by
  cases t with
  | nil => rfl
  | cons c t =>
    obtain ⟨word, digit⟩ := start c rfl
    have apart : ∀ d, isWord d = false → c ≠ d := fun d hd => ne_of_class word hd
    have opens : opensLine c = false := by
      simp [opensLine, apart '#' (by decide), apart '>' (by decide), apart '-' (by decide),
        apart '+' (by decide), apart '=' (by decide), apart '~' (by decide)]
    simp [escapeLineStart, digit, opens, escapeInline_quiet h]

theorem delimiter_star {before : Option Char} {next : Option Tree} (hb : before ≠ some '*')
    (hn : next.any isEmphasis = false) : delimiter before next = '*' := by
  have : (before == some '*') = false := by simpa using hb
  simp [delimiter, this, hn]

theorem delimiter_other {m : Char} (hm : m = '*' ∨ m = '_') :
    delimiter (some m) none = other m := by
  rcases hm with rfl | rfl <;> decide

/-- One inline, with nothing after it. -/
theorem writeInlines_one (inEmph : Bool) (p : Spot) (t : Tree) :
    writeInlines inEmph p [t] = writeInline inEmph none p t := by
  simp [writeInlines, Spot.after]

theorem writeInline_text (inEmph : Bool) (next : Option Tree) (p : Spot) (full : t ≠ []) :
    writeInline inEmph next p ((Inline.text t).toTree false) =
      ⟨escapeText p.lineStart t, false⟩ := by
  have : (String.ofList t).isEmpty = false := by
    simpa using full
  simp [Inline.toTree, Tree.leaf, writeInline, this]

theorem writeInline_around {l : Level} {inEmph : Bool} (free : l = .emph → inEmph = false)
    {p : Spot} {next : Option Tree} {m : Char} (mark : delimiter p.before next = m)
    {is : List Inline} {inside : List Char}
    (written : writeInlines (l == .emph) ⟨some m, false⟩ (Inline.toTrees false is) =
      ⟨inside, false⟩) :
    writeInline inEmph next p ((l.around is).toTree false) = ⟨between m l.marks inside, false⟩ := by
  cases l with
  | emph =>
    have written : writeInlines true ⟨some m, false⟩ (Inline.toTrees false is) = ⟨inside, false⟩ :=
      written
    simp [free rfl, Level.around, Level.marks, Inline.toTree, writeInline, mark, written, between]
  | strong =>
    have written : writeInlines false ⟨some m, false⟩ (Inline.toTrees false is) =
      ⟨inside, false⟩ := written
    simp [Level.around, Level.marks, Inline.toTree, writeInline, mark, written, between]

/-- An emphasis right inside another has underscores. -/
theorem writeInline_emph {p : Spot} {next : Option Tree} {is : List Inline} {inside : List Char}
    (written : writeInlines true ⟨some '_', false⟩ (Inline.toTrees false is) = ⟨inside, false⟩) :
    writeInline true next p ((Level.emph.around is).toTree false) =
      ⟨between '_' 1 inside, false⟩ := by
  simp [Level.around, Inline.toTree, writeInline, written, between]

/-- Levels of emphasis inside the level `l` with the mark `m`. -/
theorem writeInlines_nested (full : t ≠ []) (quiet : ∀ c ∈ t, isQuiet c) (ls : List Level)
    {m : Char} (hm : m = '*' ∨ m = '_') (l : Level) :
    writeInlines (l == .emph) ⟨some m, false⟩ (Inline.toTrees false (nested ls [.text t])) =
      ⟨markUp (if joins m l ls then m else other m) ls t, false⟩ := by
  induction ls generalizing m l with
  | nil =>
    change writeInlines _ _ [(Inline.text t).toTree false] = _
    rw [writeInlines_one, writeInline_text _ _ _ full]
    simp [escapeText, escapeInline_quiet quiet, markUp]
  | cons k ls ih =>
    have one : Inline.toTrees false (nested (k :: ls) [.text t]) =
        [(k.around (nested ls [.text t])).toTree false] := rfl
    rw [one, writeInlines_one, markUp]
    by_cases both : l = .emph ∧ k = .emph
    · -- the inner emphasis has underscores, whatever the mark of the outer one
      obtain ⟨rfl, rfl⟩ := both
      have mark : (if joins m .emph (.emph :: ls) then m else other m) = '_' := by
        rcases hm with rfl | rfl <;> rfl
      rw [mark]
      exact writeInline_emph (ih (.inr rfl) .emph)
    · have apart : joins m l (k :: ls) = false := by
        simpa [joins] using fun _ hl hk => both ⟨hl, hk⟩
      rw [apart, if_neg Bool.false_ne_true]
      refine writeInline_around (fun hk => ?_) (delimiter_other hm) (ih (other_mark m) k)
      simpa using fun hl => both ⟨hl, hk⟩

theorem toTrees_append (is js : List Inline) :
    Inline.toTrees false (is ++ js) = Inline.toTrees false is ++ Inline.toTrees false js := by
  simp [Inline.toTrees_eq_map]

/-- A text after which nothing is written. -/
theorem writeInlines_texts (p : Spot) (mid : p.lineStart = false) (quiet : ∀ c ∈ t, isQuiet c) :
    (writeInlines false p (Inline.toTrees false (texts t))).text = t := by
  by_cases h : t = []
  · simp [h, texts, Inline.toTrees, writeInlines]
  · have one : Inline.toTrees false (texts t) = [(Inline.text t).toTree false] := by
      simp [texts, h, Inline.toTrees]
    rw [one, writeInlines_one, writeInline_text _ _ _ h, mid, escapeText]
    simp [escapeInline_quiet quiet]

end Write

namespace Nested

open CommonMark

variable (s : Nested)

/-- The lengths of the runs inside the outermost one. -/
def innerRuns : List Nat :=
  runs '_' s.inner

/-- The text inside the emphasis as it is written. -/
def written : List Char :=
  between '*' s.outermost.marks (rungs '_' s.innerRuns s.inside)

theorem inside_ne_nil : s.inside ≠ [] := by
  obtain ⟨c, t, h, -⟩ := s.first
  simp [h]

theorem inlineText_inlines : inlineText (Inline.toTrees false s.inlines) = s.line s.written := by
  have inside : writeInlines (s.outermost == .emph) ⟨some '*', false⟩
      (Inline.toTrees false (nested s.inner [.text s.inside])) =
        ⟨rungs '_' s.innerRuns s.inside, false⟩ := by
    rw [writeInlines_nested s.inside_ne_nil s.quiet_inside s.inner (.inl rfl), markUp_eq_rungs]
    rfl
  have unemphasised : (Inline.toTrees false (texts s.after)).head?.any isEmphasis = false := by
    by_cases h : s.after = []
    · simp [texts, h, Inline.toTrees]
    · simp [texts, h, Inline.toTrees, Inline.toTree, Tree.leaf, isEmphasis, Tree.kind, Tree.content,
        Content.kind]
  -- what follows the text before the emphasis
  have rest : ∀ p : Spot, p.before ≠ some '*' →
      (writeInlines false p (Inline.toTrees false
        (s.outermost.around (nested s.inner [.text s.inside]) :: texts s.after))).text =
        s.written ++ s.after := fun p hp => by
    have first := writeInline_around (fun _ => rfl) (delimiter_star hp unemphasised) inside
    rw [Inline.toTrees, writeInlines, first]
    dsimp only
    rw [writeInlines_texts _ rfl s.quiet_after]
    rfl
  rw [inlineText, inlines, inlinesWith, toTrees_append]
  by_cases h : s.before = []
  · rw [h, texts, if_pos rfl, Inline.toTrees, List.nil_append, rest _ (by simp), line, h]
    rfl
  · have start : (writeInline false (Inline.toTrees false (s.outermost.around
        (nested s.inner [.text s.inside]) :: texts s.after)).head? {}
          ((Inline.text s.before).toTree false)) = ⟨s.before, false⟩ := by
      rw [writeInline_text _ _ _ h, escapeText, if_pos rfl,
        escapeLineStart_quiet s.quiet_before s.start]
    have unstarred : (Spot.after {} s.before false).before ≠ some '*' := by
      intro e
      have := s.quiet_before '*' (List.mem_of_getLast? (by simpa [Spot.after] using e))
      revert this
      decide
    rw [texts, if_neg h, Inline.toTrees, Inline.toTrees, List.singleton_append, writeInlines, start,
      line, rest _ unstarred]
    simp

theorem marked_written : Marked s.written := by
  obtain ⟨c, t, hc, word⟩ := s.first
  have pos : ∀ n ∈ s.innerRuns, 0 < n := runs_pos
  have head := rungs_head? '_' pos s.inside
  refine marked_between s.outermost.marks_pos ?_ ?_ ?_
  · by_cases h : s.innerRuns = []
    · exact ⟨c, t, by simpa [h, rungs] using hc, ne_of_class word (by decide)⟩
    · rw [if_neg h] at head
      obtain ⟨u, hu⟩ := List.head?_eq_some_iff.mp head
      exact ⟨'_', u, hu, by decide⟩
  · intro feed
    rcases mem_rungs (.inr rfl) feed with h | h | h
    · revert h
      decide
    · revert h
      decide
    · exact s.feed_not_inside h
  · exact ⟨c, subset_rungs _ _ _ (by simp [hc]), word⟩

/-- The document is written as one line. -/
theorem write_tree : write s.tree = String.ofList (s.line s.written ++ ['\n']) := by
  obtain ⟨c, t, h, space⟩ := (s.trimmed s.marked_written).last
  have feed : c ≠ '\n' := ne_of_class space (by decide)
  have text : blockText false s.tree = s.line s.written := by
    simp [tree, blockText, blocksText, ← inlineText_inlines]
  have block : s.tree.kind.isBlock := rfl
  rw [write, writeBefore, if_pos block, text, h]
  simp [endLine, feed]

end Nested

end MarkdownForest
