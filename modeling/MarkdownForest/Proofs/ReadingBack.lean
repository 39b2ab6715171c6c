/-
# MarkdownForest.Proofs.ReadingBack -- when nested emphasis reads back

A line with nested emphasis is written and read again.  Emphasis right inside
emphasis begins and ends with a mark, so the outermost one is only read as
emphasis where no word touches it; levels with the same mark must differ, or the
inner one closes the outer one; and an emphasis with underscores must not stand
right around another.

* `finish_row`: what is read when every run matches;
* `hasMark_of_touching`, `hasMark_of_unclear`: else a mark is text;
* `reads_back_iff`: the exact condition;
* `stars_read_back_iff`: the same for text between stars.
-/
import MarkdownForest.Proofs.NestedRuns

namespace MarkdownForest

set_option autoImplicit false

open Text Emphasis Scan CommonMark

/-! ## Legible levels -/

/-- No level but the innermost is among those outside it with the same mark (`same`); those in
`others` have the other mark. -/
def Fresh : List Level → List Level → List Level → Prop
  | _, _, [] => True
  | same, others, l :: ls => (ls ≠ [] → l ∉ same) ∧ Fresh others (l :: same) ls

/-- No level is written with the mark of the one around it, which is `m` for the first. -/
def Apart : Char → List Level → Prop
  | _, [] => True
  | m, l :: ls => joins m l ls = false ∧ Apart (other m) ls

/-- Levels that are read as they are written. -/
structure Legible (ls : List Level) : Prop where
  fresh : Fresh [] [] ls
  apart : Apart '*' ls

instance decidableFresh : ∀ same others ls, Decidable (Fresh same others ls)
  | _, _, [] => isTrue trivial
  | same, others, l :: ls =>
    have := decidableFresh others (l :: same) ls
    inferInstanceAs (Decidable (_ ∧ _))

instance decidableApart : ∀ m ls, Decidable (Apart m ls)
  | _, [] => isTrue trivial
  | m, _ :: ls =>
    have := decidableApart (other m) ls
    inferInstanceAs (Decidable (_ ∧ _))

instance (ls : List Level) : Decidable (Legible ls) :=
  decidable_of_iff (Fresh [] [] ls ∧ Apart '*' ls) ⟨fun h => ⟨h.1, h.2⟩, fun h => ⟨h.1, h.2⟩⟩

/-- There are two levels and two marks, and only the innermost level need not be fresh. -/
theorem Legible.length_le {ls : List Level} (h : Legible ls) : ls.length ≤ 5 := by
  have fresh := h.fresh
  rcases ls with _ | ⟨a, _ | ⟨b, _ | ⟨c, _ | ⟨d, _ | ⟨e, _ | ⟨f, ls⟩⟩⟩⟩⟩⟩
  iterate 6
    · simp
  obtain ⟨-, -, third, -, fifth, -⟩ := fresh
  have ca : c ≠ a := by simpa using third (List.cons_ne_nil _ _)
  obtain ⟨ec, ea⟩ : e ≠ c ∧ e ≠ a := by simpa using fifth (List.cons_ne_nil _ _)
  cases a <;> cases c <;> cases e <;> contradiction

example : Legible [.emph, .emph, .strong, .strong, .emph] := by decide

/-- The levels that `n` marks make are legible up to seven marks. -/
theorem legible_levelsOf (n : Nat) : Legible (levelsOf n) ↔ n ≤ 7 := by
  constructor
  · intro h
    have few := h.length_le
    rw [levelsOf, List.length_append, List.length_replicate] at few
    by_contra many
    have : n = 8 ∨ n = 9 ∨ n = 10 ∨ n = 11 := by omega
    rcases this with rfl | rfl | rfl | rfl <;> revert h <;> decide
  · intro few
    have : n = 0 ∨ n = 1 ∨ n = 2 ∨ n = 3 ∨ n = 4 ∨ n = 5 ∨ n = 6 ∨ n = 7 := by omega
    rcases this with rfl | rfl | rfl | rfl | rfl | rfl | rfl | rfl <;> decide

theorem runs_of_apart {m : Char} {ls : List Level} (h : Apart m ls) :
    runs m ls = ls.map Level.marks := by
  induction ls generalizing m with
  | nil => rfl
  | cons l ls ih =>
    have apart : ¬ joins m l ls := by simp [h.1]
    rw [runs, if_neg apart, ih h.2, List.map_cons]

/-- Two marks or more never make an emphasis right inside another. -/
theorem levelsOf_not_emphs {n : Nat} (hn : 2 ≤ n) (ks ls : List Level) :
    levelsOf n ++ ks ≠ .emph :: .emph :: ls := by
  obtain ⟨k, hk⟩ := Nat.exists_eq_add_of_le' (show 1 ≤ n / 2 by omega)
  intro e
  rw [levelsOf, hk, List.replicate_succ] at e
  split at e
  · simp at e
  · simp at e

/-- The runs make the levels again unless a run is that of two levels or more. -/
theorem flatMap_runs_eq_iff (m : Char) (ls : List Level) :
    (runs m ls).flatMap levelsOf = ls ↔ Apart m ls := by
  induction ls generalizing m with
  | nil => exact iff_of_true rfl trivial
  | cons l ls ih =>
    by_cases h : joins m l ls
    · obtain ⟨-, rfl, more, rfl⟩ := joins_eq_true h
      obtain ⟨n, ns, hn⟩ := runs_eq_cons m .emph more
      have pos : 0 < n := runs_pos n (by rw [hn]; exact List.mem_cons_self)
      refine iff_of_false ?_ fun apart => absurd h (by simp [apart.1])
      rw [runs, if_pos h, hn, lengthen, List.flatMap_cons]
      exact levelsOf_not_emphs (by omega) _ _
    · rw [runs, if_neg h, List.flatMap_cons, levelsOf_marks, List.singleton_append,
        List.cons.injEq, ih]
      simp [Apart, h]

/-! ## Fresh levels are clear -/

section Fresh

variable {m : Char} {left : List Piece} {same others ls : List Level}

/-- Of two runs of which the second may open as well, only those of equal levels match. -/
theorem opens_level (d : Delim) (l b : Level) (mark : d.mark = m) (count : d.count = l.marks)
    (orig : d.orig = l.marks) (canOpen : d.canOpen) :
    d.opens (opening m b.marks true) = decide (b = l) := by
  have pos : 0 < d.count := count ▸ l.marks_pos
  cases l <;> cases b <;>
    simp [Delim.opens, Delim.oddMatch, opening, mark, canOpen, pos, orig, Level.marks]

theorem findOpener_other {d closer : Delim} (apart : d.mark ≠ closer.mark) :
    findOpener closer (.delim d :: left) = none ↔ findOpener closer left = none := by
  have : d.opens closer = false := by simp [Delim.opens, apart]
  simp [findOpener_delim, this]

theorem findOpener_same {d closer : Delim} :
    findOpener closer (.delim d :: left) = none ↔
      d.opens closer = false ∧ findOpener closer left = none := by
  rw [findOpener_delim]
  split
  · simp [*]
  · simp [*]

theorem clear_iff_fresh (hm : m = '*' ∨ m = '_')
    (hsame : ∀ b : Level, findOpener (opening m b.marks true) left = none ↔ b ∉ same)
    (hothers : ∀ b : Level, findOpener (opening (other m) b.marks true) left = none ↔ b ∉ others) :
    Clear left m (ls.map Level.marks) ↔ Fresh same others ls := by
  induction ls generalizing left m same others with
  | nil => exact Iff.rfl
  | cons l ls ih =>
    rw [List.map_cons, Clear, Fresh, hsame, ne_eq, List.map_eq_nil_iff]
    refine and_congr_right fun _ => ih (other_mark m) (fun b => ?_) fun b => ?_
    · rw [findOpener_other (other_ne m).symm, hothers]
    · have opens := opens_level (m := m) (opening m l.marks !(ls.map Level.marks).isEmpty) l b
        rfl rfl rfl rfl
      rw [other_other hm, findOpener_same, opens, hsame, List.mem_cons, not_or,
        decide_eq_false_iff_not]

end Fresh

namespace Nested

variable (s : Nested)

/-! ## The pieces of the line -/

/-- The outermost run before the text, and the one after it. -/
def outerOpening : Delim :=
  .ofRun '*' s.outermost.marks s.before.getLast? (rungs '_' s.innerRuns s.inside).head?

def outerClosing : Delim :=
  .ofRun '*' s.outermost.marks (rungs '_' s.innerRuns s.inside).getLast? s.after.head?

/-- The pieces of the line, the texts in it cut as given. -/
def row (ts vs us : List (List Char)) : List Piece :=
  textPieces ts ++ .delim s.outerOpening ::
    (rungPieces (textPieces vs) '_' s.innerRuns ++ .delim s.outerClosing :: textPieces us)

/-- What lies on the left when the runs inside the outermost one are reached. -/
def stack (ts : List (List Char)) : List Piece :=
  .delim s.outerOpening :: (textPieces ts).reverse

theorem innerRuns_pos : ∀ n ∈ s.innerRuns, 0 < n :=
  runs_pos

theorem innerRuns_eq_nil : s.innerRuns = [] ↔ s.inner = [] := by
  unfold innerRuns
  cases s.inner with
  | nil => simp [runs]
  | cons l ls =>
    obtain ⟨n, ns, h⟩ := runs_eq_cons '_' l ls
    simp [h]

theorem becomes_written : ∃ ts vs us, ts.flatten = s.before ∧ [] ∉ ts ∧ vs.flatten = s.inside ∧
    [] ∉ vs ∧ us.flatten = s.after ∧ [] ∉ us ∧
      Becomes none (s.line s.written) [] (s.row ts vs us) := by
  obtain ⟨vs, hvs, fullvs, inner⟩ :=
    s.becomes_rungs s.innerRuns_pos (.inr rfl) s.outermost.marks_pos s.after
  obtain ⟨ts, us, hts, fullts, hus, fullus, pieces⟩ := s.becomes_line s.outermost.marks_pos
    (rungs_ne_nil '_' s.innerRuns s.inside_ne_nil) (s.rungs_unmarked s.innerRuns_pos (.inl rfl)) inner
  exact ⟨ts, vs, us, hts, fullts, hvs, fullvs, hus, fullus, pieces⟩

/-- A word stands right before or right after the emphasis. -/
def TouchesWord : Prop :=
  s.before.getLast?.any isWord ∨ s.after.head?.any isWord

/-- The outermost run opens, unless a word is before it and a mark after it. -/
theorem outerOpening_opens :
    s.outerOpening.canOpen = (s.inner.isEmpty || !s.before.getLast?.any isWord) := by
  obtain ⟨c, t, hc, word⟩ := s.first
  rw [outerOpening, rungs_head? _ s.innerRuns_pos]
  by_cases h : s.inner = []
  · rw [if_pos (s.innerRuns_eq_nil.mpr h)]
    simp [Delim.ofRun, hc, leftFlanking_before_word word, h]
  · rw [if_neg fun e => h (s.innerRuns_eq_nil.mp e)]
    simp [Delim.ofRun, leftFlanking_before_mark, h]

theorem outerClosing_closes :
    s.outerClosing.canClose = (s.inner.isEmpty || !s.after.head?.any isWord) := by
  obtain ⟨c, t, hc, word⟩ := s.last
  rw [outerClosing, rungs_getLast? _ s.innerRuns_pos]
  by_cases h : s.inner = []
  · rw [if_pos (s.innerRuns_eq_nil.mpr h)]
    simp [Delim.ofRun, hc, Delim.rightFlanking, leftFlanking_before_word word, h]
  · rw [if_neg fun e => h (s.innerRuns_eq_nil.mp e)]
    simp [Delim.ofRun, Delim.rightFlanking, leftFlanking_before_mark, h]

theorem findOpener_texts (d : Delim) (ts : List (List Char)) :
    findOpener d (textPieces ts).reverse = none :=
  findOpener_all_silent fun p hp => silent_textPieces ts p (List.mem_reverse.mp hp)

section Row

variable {s} {ts vs us : List (List Char)}

/-- If every run matches, the runs make the levels inside the outermost one. -/
theorem finish_row (clear : Clear (s.stack ts) '_' s.innerRuns)
    (free : s.inner = [] ∨ ¬ s.TouchesWord) (hts : ts.flatten = s.before) (fullts : [] ∉ ts)
    (hvs : vs.flatten = s.inside) (fullvs : [] ∉ vs) (hus : us.flatten = s.after)
    (fullus : [] ∉ us) :
    finish (resolve [] (s.row ts vs us)) = s.inlinesWith (s.innerRuns.flatMap levelsOf) := by
  have pairs : Pairs s.outerOpening s.outerClosing := by
    refine ⟨rfl, ?_, ?_, oddMatch_of_orig_eq rfl⟩
    · rw [s.outerOpening_opens]
      rcases free with h | h <;> simp_all [TouchesWord]
    · rw [s.outerClosing_closes]
      rcases free with h | h <;> simp_all [TouchesWord]
  have content : finish (rungContent (textPieces vs) s.innerRuns) =
      nested (s.innerRuns.flatMap levelsOf) [.text s.inside] := by
    rw [finish_rungContent s.innerRuns_pos, finish_textPieces fullvs, hvs, s.texts_inside]
  have outer : levelsOf s.outerClosing.count = [s.outermost] := levelsOf_marks s.outermost
  rw [row, resolve_enclosed pairs rfl s.outermost.marks_pos
      (silent_rungContent (silent_textPieces vs))
      (resolve_rungs (silent_textPieces vs) s.innerRuns_pos clear),
    content, outer, inlinesWith, ← hts, ← hus]
  exact finish_between fullts fullus (Level.around_not_text _ _)

/-- The outermost run is passed by when it is reached. -/
theorem resolve_row : resolve [] (s.row ts vs us) =
    resolve (s.stack ts)
      (rungPieces (textPieces vs) '_' s.innerRuns ++ .delim s.outerClosing :: textPieces us) := by
  rw [row, resolve_silent (silent_textPieces ts), List.append_nil,
    resolve_unopened (findOpener_texts s.outerOpening ts)]
  rfl

/-- Beside a word the outermost runs are text. -/
theorem hasMark_of_touching (deep : s.inner ≠ []) (h : s.TouchesWord) :
    HasMark (resolve [] (s.row ts vs us)) := by
  refine ⟨'*', by decide, ?_⟩
  rcases h with h | h
  · have opens : s.outerOpening.canOpen = false := by
      simp [s.outerOpening_opens, deep, h]
    rw [resolve_row]
    exact mem_text_of_left List.mem_cons_self (mem_plain_delim s.outermost.marks_pos)
      fun d e => by cases e; exact opens
  · have closes : s.outerClosing.canClose = false := by
      simp [s.outerClosing_closes, deep, h]
    have split : s.row ts vs us = (textPieces ts ++ .delim s.outerOpening ::
        rungPieces (textPieces vs) '_' s.innerRuns) ++ .delim s.outerClosing :: textPieces us := by
      simp [row]
    rw [split]
    exact mem_text_of_right closes (mem_plain_delim s.outermost.marks_pos) (silent_textPieces us)

/-- Where no word touches the emphasis, the levels inside the outermost one are clear if they are
fresh. -/
theorem clear_stack_iff (free : ¬ s.TouchesWord) (apart : Apart '_' s.inner) :
    Clear (s.stack ts) '_' s.innerRuns ↔ Fresh [] [s.outermost] s.inner := by
  have opens : s.outerOpening.canOpen := by
    simp_all [s.outerOpening_opens, TouchesWord]
  rw [innerRuns, runs_of_apart apart]
  refine clear_iff_fresh (.inr rfl) (fun b => ?_) fun b => ?_
  · refine iff_of_true ?_ List.not_mem_nil
    have apart : s.outerOpening.mark ≠ (opening '_' b.marks true).mark :=
      show '*' ≠ '_' by decide
    exact (findOpener_other apart).mpr (findOpener_texts _ ts)
  · have outer : s.outerOpening.opens (opening (other '_') b.marks true) = decide (b = s.outermost) :=
      opens_level s.outerOpening s.outermost b rfl rfl rfl opens
    rw [stack, findOpener_same, outer, List.mem_singleton, decide_eq_false_iff_not]
    exact and_iff_left (findOpener_texts _ ts)

end Row

/-! ## The condition -/

theorem plainTexts_append (ts us : List Tree) :
    Html.plainTexts (ts ++ us) = Html.plainTexts ts ++ Html.plainTexts us := by
  induction ts with
  | nil => rfl
  | cons t ts ih => simp [Html.plainTexts, ih]

theorem plainTexts_texts (t : List Char) :
    Html.plainTexts (Inline.toTrees false (texts t)) = t := by
  by_cases h : t = []
  · simp [h, texts, Inline.toTrees, Html.plainTexts]
  · simp [h, texts, Inline.toTrees, Inline.toTree, Html.plainTexts, Html.plainText,
      Html.plainContent, Tree.leaf, Content.kind, Kind.isLeaf]

theorem plainText_around (l : Level) (is : List Inline) :
    Html.plainText ((l.around is).toTree false) = Html.plainTexts (Inline.toTrees false is) := by
  cases l <;>
    simp [Level.around, Inline.toTree, Html.plainText, Html.plainContent, Content.kind, Kind.isLeaf]

theorem plainTexts_nested (ls : List Level) (is : List Inline) :
    Html.plainTexts (Inline.toTrees false (nested ls is)) =
      Html.plainTexts (Inline.toTrees false is) := by
  induction ls with
  | nil => rfl
  | cons l ls ih =>
    rw [nested, Inline.toTrees, Inline.toTrees, Html.plainTexts, Html.plainTexts, plainText_around,
      ih, List.append_nil]

/-- The plain text of the line has no mark. -/
theorem plainTexts_inlines : Html.plainTexts (Inline.toTrees false s.inlines) =
    s.before ++ (s.inside ++ s.after) := by
  rw [inlines, inlinesWith, toTrees_append, plainTexts_append, Inline.toTrees, Html.plainTexts,
    plainTexts_texts, plainText_around, plainTexts_nested, ← texts_inside, plainTexts_texts,
    plainTexts_texts]

/-- A mark that is text was none before. -/
theorem toTrees_ne_of_hasMark {ps : List Piece} (h : HasMark ps) :
    Inline.toTrees false (finish ps) ≠ Inline.toTrees false s.inlines := by
  obtain ⟨m, mark, mem⟩ := h
  intro e
  have same := congrArg Html.plainTexts e
  rw [plainTexts_finish, plainTexts_inlines] at same
  rw [same, ← List.append_assoc] at mem
  have := s.quiet m mem
  rw [mark] at this
  cases this

theorem nested_inj {t : List Char} {ks ls : List Level}
    (h : Inline.toTrees false (nested ks [.text t]) = Inline.toTrees false (nested ls [.text t])) :
    ks = ls := by
  induction ks generalizing ls with
  | nil =>
    cases ls with
    | nil => rfl
    | cons l ls =>
      cases l <;> simp [nested, Level.around, Inline.toTrees, Inline.toTree, Tree.leaf] at h
  | cons k ks ih =>
    cases ls with
    | nil =>
      cases k <;> simp [nested, Level.around, Inline.toTrees, Inline.toTree, Tree.leaf] at h
    | cons l ls =>
      have parts : k = l ∧ Inline.toTrees false (nested ks [.text t]) =
          Inline.toTrees false (nested ls [.text t]) := by
        cases k <;> cases l <;>
          simp_all [nested, Level.around, Inline.toTrees, Inline.toTree]
      rw [parts.1, ih parts.2]

/-- Lines with different levels are different. -/
theorem inlinesWith_inj {ks ls : List Level} :
    Inline.toTrees false (s.inlinesWith ks) = Inline.toTrees false (s.inlinesWith ls) ↔ ks = ls := by
  refine ⟨fun h => ?_, fun h => h ▸ rfl⟩
  rw [inlinesWith, inlinesWith, toTrees_append, toTrees_append] at h
  have around := (List.cons.inj (List.append_cancel_left h)).1
  refine nested_inj (t := s.inside) ?_
  cases hl : s.outermost <;> simpa [hl, Level.around, Inline.toTree] using around

theorem legible_iff : Legible (s.outermost :: s.inner) ↔
    Fresh [] [s.outermost] s.inner ∧ Apart '_' s.inner := by
  have alone : joins '*' s.outermost s.inner = false := rfl
  constructor
  · intro h
    exact ⟨h.fresh.2, h.apart.2⟩
  · intro h
    exact ⟨⟨fun _ => List.not_mem_nil, h.1⟩, alone, h.2⟩

theorem toTrees_written_iff : Inline.toTrees false (parseInlines (s.line s.written)) =
    Inline.toTrees false s.inlines ↔
      s.inner = [] ∨ Legible (s.outermost :: s.inner) ∧ ¬ s.TouchesWord := by
  obtain ⟨ts, vs, us, hts, fullts, hvs, fullvs, hus, fullus, pieces⟩ := s.becomes_written
  rw [parseInlines_of_becomes pieces]
  by_cases deep : s.inner = []
  · have none : s.innerRuns = [] := s.innerRuns_eq_nil.mpr deep
    have clear : Clear (s.stack ts) '_' s.innerRuns := none ▸ trivial
    rw [finish_row clear (.inl deep) hts fullts hvs fullvs hus fullus, none]
    exact iff_of_true (by rw [inlines, deep]; rfl) (.inl deep)
  have only : (s.inner = [] ∨ Legible (s.outermost :: s.inner) ∧ ¬ s.TouchesWord) ↔
      Legible (s.outermost :: s.inner) ∧ ¬ s.TouchesWord := or_iff_right deep
  rw [only]
  by_cases touches : s.TouchesWord
  · exact iff_of_false (s.toTrees_ne_of_hasMark (hasMark_of_touching deep touches))
      fun h => h.2 touches
  by_cases clear : Clear (s.stack ts) '_' s.innerRuns
  · rw [finish_row clear (.inr touches) hts fullts hvs fullvs hus fullus, inlines, inlinesWith_inj,
      innerRuns, flatMap_runs_eq_iff, s.legible_iff]
    constructor
    · intro apart
      exact ⟨⟨(clear_stack_iff touches apart).mp clear, apart⟩, touches⟩
    · intro h
      exact h.1.2
  · -- a run closes what it should not
    have mark : HasMark (resolve [] (s.row ts vs us)) := by
      rw [resolve_row]
      exact hasMark_of_unclear (.inr rfl) s.innerRuns_pos rfl s.outermost.marks_pos clear
    refine iff_of_false (s.toTrees_ne_of_hasMark mark) fun h => clear ?_
    obtain ⟨fresh, apart⟩ := s.legible_iff.mp h.1
    exact (clear_stack_iff touches apart).mpr fresh

theorem parse_written (limit : Nat) : parse { maxNesting := limit } (write s.tree) =
    .ok (.node .document [.node .paragraph
      (Inline.toTrees false (parseInlines (s.line s.written)))]) := by
  rw [s.write_tree]
  exact parse_line (s.trimmed s.marked_written) (s.isText s.marked_written) (.inr rfl)

theorem parse_write_iff (limit : Nat) : parse { maxNesting := limit } (write s.tree) = .ok s.tree ↔
    Inline.toTrees false (parseInlines (s.line s.written)) = Inline.toTrees false s.inlines := by
  rw [parse_written, tree]
  simp

/-- A line with nested emphasis reads back exactly if it has one level only, or legible levels and
no word right beside them. -/
theorem reads_back_iff (limit : Nat) :
    parse { maxNesting := limit } (write s.tree) = .ok s.tree ↔
      s.inner = [] ∨ Legible (s.outermost :: s.inner) ∧ ¬ s.TouchesWord := by
  rw [parse_write_iff, toTrees_written_iff]

/-- Text between stars reads back exactly if there are at most two of them, or at most seven with no
word right beside them. -/
theorem stars_read_back_iff {n : Nat} (hn : levelsOf n = s.outermost :: s.inner) (limit : Nat) :
    ∃ t, parse { maxNesting := limit } (String.ofList (s.line (between '*' n s.inside))) = .ok t ∧
      (parse { maxNesting := limit } (write t) = .ok t ↔ n ≤ 2 ∨ n ≤ 7 ∧ ¬ s.TouchesWord) := by
  have one : s.inner = [] ↔ n ≤ 2 := by
    have length := congrArg List.length hn
    rw [levelsOf, List.length_append, List.length_replicate, List.length_cons] at length
    rw [← List.length_eq_zero_iff]
    split at length
    · rw [List.length_singleton] at length
      omega
    · rw [List.length_nil] at length
      omega
  refine ⟨s.tree, s.parse_stars _ rfl hn, ?_⟩
  rw [parse_write_iff, toTrees_written_iff, ← hn, legible_levelsOf, one]

end Nested

/-- Three stars beside a word: what is written is `a*__b__* c`, whose outer stars are text. -/
theorem stars_beside_word : ∃ t, parse {} "a***b*** c" = .ok t ∧ parse {} (write t) ≠ .ok t := by
  refine ⟨.node .document [.node .paragraph [.node (.text "a") [],
    .node .emph [.node .strong [.node (.text "b") []]], .node (.text " c") []]], ?_, ?_⟩
  · decide +kernel
  · decide +kernel

end MarkdownForest
