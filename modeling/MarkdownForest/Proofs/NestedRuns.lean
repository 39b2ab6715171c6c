/-
# MarkdownForest.Proofs.NestedRuns -- runs with alternating marks, one inside the other

A run between two other runs may close as well as open.  While the opening runs
are gone through from the outermost one inwards, each of them but the innermost
must find nothing to close (`Clear`).

* `resolve_rungs`: then every run matches the one on its other side;
* `hasMark_of_unclear`: else a run is closed too early and another one inside it
  is text.
-/
import MarkdownForest.Proofs.AlternatingMarks

namespace MarkdownForest

set_option autoImplicit false

open Text Emphasis Scan

/-! ## The pieces -/

/-- A run that opens, and may close as well if it stands between marks. -/
def opening (m : Char) (n : Nat) (amid : Bool) : Delim :=
  ⟨m, n, n, true, amid⟩

/-- A run that closes, and may open as well if it stands between marks. -/
def closing (m : Char) (n : Nat) (amid : Bool) : Delim :=
  ⟨m, n, n, amid, true⟩

/-- The pieces of runs with alternating marks around `ps`. -/
def rungPieces (ps : List Piece) : Char → List Nat → List Piece
  | _, [] => ps
  | m, n :: ns =>
    .delim (opening m n !ns.isEmpty) ::
      (rungPieces ps (other m) ns ++ [.delim (closing m n !ns.isEmpty)])

theorem other_class (m : Char) : isWord (other m) = false ∧ isPunctuation (other m) := by
  rcases other_mark m with h | h <;> rw [h] <;> decide

namespace Nested

variable (s : Nested) {ns : List Nat}

theorem ofRun_opening (m : Char) (n : Nat) (pos : ∀ k ∈ ns, 0 < k) :
    Delim.ofRun m n (some (other m)) (rungs (other m) ns s.inside).head? =
      opening m n !ns.isEmpty := by
  obtain ⟨c, t, hc, word⟩ := s.first
  obtain ⟨unword, punctuation⟩ := other_class m
  rw [rungs_head? _ pos]
  cases ns with
  | nil =>
    simp [Delim.ofRun, opening, hc, Delim.rightFlanking, leftFlanking_before_word word,
      leftFlanking_after_word word, unword]
  | cons k ns =>
    simp [Delim.ofRun, opening, Delim.rightFlanking, leftFlanking_before_mark (other_mark m), unword,
      Delim.punctuationAt, punctuation]

theorem ofRun_closing (m : Char) (n : Nat) (pos : ∀ k ∈ ns, 0 < k) :
    Delim.ofRun m n (rungs (other m) ns s.inside).getLast? (some (other m)) =
      closing m n !ns.isEmpty := by
  obtain ⟨c, t, hc, word⟩ := s.last
  obtain ⟨unword, punctuation⟩ := other_class m
  rw [rungs_getLast? _ pos]
  cases ns with
  | nil =>
    simp [Delim.ofRun, closing, hc, Delim.rightFlanking, leftFlanking_before_word word,
      leftFlanking_after_word word, unword]
  | cons k ns =>
    simp [Delim.ofRun, closing, Delim.rightFlanking, leftFlanking_before_mark (other_mark m), unword,
      Delim.punctuationAt, punctuation]

/-- The marks of a run do not go on in the next. -/
theorem rungs_unmarked (pos : ∀ k ∈ ns, 0 < k) {m : Char} (hm : m = '*' ∨ m = '_') :
    (rungs (other m) ns s.inside).head? ≠ some m := by
  obtain ⟨c, t, hc, word⟩ := s.first
  rw [rungs_head? _ pos]
  cases ns with
  | nil =>
    have : isWord m = false := by
      rcases hm with rfl | rfl <;> decide
    simpa [hc] using ne_of_class word this
  | cons k ns => simpa using other_ne m

/-- The pieces of runs that stand inside a run of the other mark. -/
theorem becomes_rungs (pos : ∀ k ∈ ns, 0 < k) {m : Char} (hm : m = '*' ∨ m = '_') {n : Nat}
    (hn : 0 < n) (r : List Char) : ∃ vs, vs.flatten = s.inside ∧ [] ∉ vs ∧
      Becomes (some (other m)) (rungs m ns s.inside) (List.replicate n (other m) ++ r)
        (rungPieces (textPieces vs) m ns) := by
  induction ns generalizing m n r with
  | nil =>
    exact becomes_quiet _ s.quiet_inside (stops_marks (other_mark m) hn r)
  | cons k ns ih =>
    have inside : ∀ j ∈ ns, 0 < j := fun j hj => pos j (List.mem_cons_of_mem k hj)
    have hk : 0 < k := pos k List.mem_cons_self
    have follows : (List.replicate n (other m) ++ r).head? = some (other m) := by
      simp [List.head?_replicate, Nat.pos_iff_ne_zero.mp hn]
    obtain ⟨vs, hvs, full, inner⟩ := ih inside (other_mark m) hk (List.replicate n (other m) ++ r)
    rw [other_other hm] at inner
    have marked := becomes_between (some (other m)) hm hk
      (rungs_ne_nil (other m) ns s.inside_ne_nil) (s.rungs_unmarked inside hm)
      (by simpa [follows] using other_ne m) inner
    rw [s.ofRun_opening m k inside, follows, s.ofRun_closing m k inside] at marked
    exact ⟨vs, hvs, full, marked⟩

end Nested

/-! ## Matching from the inside -/

/-- No run but the innermost finds anything to close when it is reached. -/
def Clear : List Piece → Char → List Nat → Prop
  | _, _, [] => True
  | left, m, n :: ns =>
    (ns ≠ [] → findOpener (opening m n true) left = none) ∧
      Clear (.delim (opening m n !ns.isEmpty) :: left) (other m) ns

/-- What runs around `ps` become. -/
def rungContent (ps : List Piece) : List Nat → List Piece
  | [] => ps
  | n :: ns => (nested (levelsOf n) (finish (rungContent ps ns))).map .inline

section Rungs

variable {ps left right : List Piece} {m : Char} {n : Nat} {ns : List Nat}

theorem finish_rungContent (pos : ∀ k ∈ ns, 0 < k) :
    finish (rungContent ps ns) = nested (ns.flatMap levelsOf) (finish ps) := by
  induction ns with
  | nil => rfl
  | cons n ns ih =>
    obtain ⟨i, made⟩ := nested_levelsOf_eq (pos n List.mem_cons_self) (finish (rungContent ps ns))
    rw [rungContent, made, List.map_singleton, finish_inline, ← made,
      ih fun k hk => pos k (List.mem_cons_of_mem n hk), List.flatMap_cons, nested_append]

theorem silent_rungContent (silent : ∀ p ∈ ps, Silent p) : ∀ p ∈ rungContent ps ns, Silent p := by
  cases ns with
  | nil => exact silent
  | cons n ns =>
    intro p hp
    obtain ⟨i, -, rfl⟩ := List.mem_map.mp hp
    exact silent_inline i

/-- An opening run is passed by if it finds nothing to close; the innermost one always is. -/
theorem pass_opening (h : ns ≠ [] → findOpener (opening m n true) left = none) :
    resolve left (.delim (opening m n !ns.isEmpty) :: right) =
      resolve (.delim (opening m n !ns.isEmpty) :: left) right := by
  refine resolve_pass fun d hd => ?_
  obtain ⟨e, closes⟩ := closer?_eq_some hd
  cases e
  cases ns with
  | nil => simp [opening, Delim.closes] at closes
  | cons k ns => exact h (List.cons_ne_nil k ns)

theorem resolve_rungs (silent : ∀ p ∈ ps, Silent p) (pos : ∀ k ∈ ns, 0 < k)
    (clear : Clear left m ns) :
    resolve left (rungPieces ps m ns ++ right) =
      resolve ((rungContent ps ns).reverse ++ left) right := by
  induction ns generalizing m left right with
  | nil => exact resolve_silent silent
  | cons n ns ih =>
    have hn : 0 < n := pos n List.mem_cons_self
    have pairs : Pairs (opening m n !ns.isEmpty) (closing m n !ns.isEmpty) :=
      ⟨rfl, rfl, rfl, oddMatch_of_orig_eq rfl⟩
    have opener : leftover (opening m n !ns.isEmpty) n = [.delim (opening m n !ns.isEmpty)] :=
      leftover_count hn
    have closer : leftover (closing m n !ns.isEmpty) n = [.delim (closing m n !ns.isEmpty)] :=
      leftover_count hn
    have silent' : ∀ p ∈ (rungContent ps ns).reverse, Silent p := fun p hp =>
      silent_rungContent silent p (List.mem_reverse.mp hp)
    have step : resolve ((rungContent ps ns).reverse ++
        (leftover (opening m n !ns.isEmpty) n ++ left))
        (leftover (closing m n !ns.isEmpty) n ++ right) =
          resolve ((nested (levelsOf n) (finish (rungContent ps ns).reverse.reverse)).map .inline ++
            left) right :=
      resolve_pair pairs silent' hn
    obtain ⟨i, made⟩ := nested_levelsOf_eq hn (finish (rungContent ps ns))
    rw [List.reverse_reverse, opener, closer, made] at step
    rw [rungPieces, List.cons_append, List.append_assoc, pass_opening clear.1,
      ih (fun k hk => pos k (List.mem_cons_of_mem n hk)) clear.2, rungContent, made]
    exact step

/-! ## Runs that close too early -/

/-- A mark is among the plain text of pieces. -/
def HasMark (ps : List Piece) : Prop :=
  ∃ m, isQuiet m = false ∧ m ∈ ps.flatMap plain

theorem mem_plain_delim {d : Delim} (h : 0 < d.count) : d.mark ∈ plain (.delim d) := by
  rw [plain_delim]
  simp [Nat.pos_iff_ne_zero.mp h]

theorem not_isQuiet_mark (hm : m = '*' ∨ m = '_') : isQuiet m = false := by
  rcases hm with rfl | rfl <;> decide

/-- A run of the other mark between two that match is text. -/
theorem hasMark_of_early {d e : Delim} (closes : d.closes) (apart : e.mark ≠ d.mark)
    (some_marks : 0 < e.count) (he : e.mark = '*' ∨ e.mark = '_')
    (early : findOpener d (.delim e :: left) ≠ none) :
    HasMark (resolve (.delim e :: left) (.delim d :: right)) := by
  obtain ⟨⟨above, opener, below⟩, found⟩ := Option.ne_none_iff_exists'.mp early
  obtain ⟨split, opens⟩ := findOpener_eq_some found
  have closer : closer? (.delim d) = some d := by
    simp [closer?, closes]
  cases above with
  | nil =>
    cases split
    simp only [Delim.opens, Bool.and_eq_true, beq_iff_eq] at opens
    exact absurd opens.1.1.1 apart
  | cons p above =>
    cases split
    rw [resolve_match closer found]
    refine ⟨e.mark, not_isQuiet_mark he, mem_text_of_left List.mem_cons_self ?_ (by rintro d ⟨⟩)⟩
    rw [plain_wrap]
    exact List.mem_flatMap.mpr ⟨.delim e, by simp, mem_plain_delim some_marks⟩

/-- A run that is not the innermost closes one of those before the last. -/
theorem hasMark_of_unclear (hm : m = '*' ∨ m = '_') (pos : ∀ k ∈ ns, 0 < k) {e : Delim}
    (mark : e.mark = other m) (some_marks : 0 < e.count)
    (unclear : ¬ Clear (.delim e :: left) m ns) :
    HasMark (resolve (.delim e :: left) (rungPieces ps m ns ++ right)) := by
  induction ns generalizing left m right e with
  | nil => exact absurd trivial unclear
  | cons n ns ih =>
    have hn : 0 < n := pos n List.mem_cons_self
    rw [rungPieces, List.cons_append, List.append_assoc]
    by_cases passes : ns ≠ [] → findOpener (opening m n true) (.delim e :: left) = none
    · rw [pass_opening passes]
      exact ih (other_mark m) (fun k hk => pos k (List.mem_cons_of_mem n hk)) (other_other hm).symm hn
        fun clear => unclear ⟨passes, clear⟩
    · obtain ⟨deep, early⟩ := Classical.not_imp.mp passes
      have amid : (!ns.isEmpty) = true := by
        cases ns with
        | nil => exact absurd rfl deep
        | cons k ns => rfl
      have apart : e.mark ≠ m := mark ▸ other_ne m
      rw [amid]
      exact hasMark_of_early (by simp [Delim.closes, opening, hn]) apart some_marks
        (mark ▸ other_mark m) early

end Rungs

end MarkdownForest
