/-
# MarkdownForest.Proofs.Scanning -- what a scan makes of a text

`Becomes before t r ps`: a scan that has read the character `before` turns the
text `t` in front of `r` into the pieces `ps`, whatever pieces there are.

* `Becomes.append`: texts one after the other give pieces one after the other;
* `becomes_quiet`: text without markup becomes pieces of text;
* `becomes_run`: a run of marks becomes a delimiter.
-/
import MarkdownForest.Proofs.Matching
import Mathlib.Data.List.TakeWhile

namespace MarkdownForest

set_option autoImplicit false

open Text

/-! ## Text without markup -/

/-- A character that stands for itself inside a line. -/
def isQuiet (c : Char) : Bool :=
  c == ' ' || Lexeme.isPlain c

/-- Where a class of characters ends, so does the longest beginning in it. -/
theorem span_append {α : Type} {p : α → Bool} {k s : List α} (hk : ∀ c ∈ k, p c)
    (hs : s.head?.any p = false) :
    (k ++ s).takeWhile p = k ∧ (k ++ s).dropWhile p = s := by
  rw [List.takeWhile_append_of_pos hk, List.dropWhile_append_of_pos hk]
  cases s with
  | nil => simp
  | cons c s =>
    have hc : p c = false := by simpa using hs
    simp [hc]

/-- The longest beginning of a list in a class of characters. -/
theorem exists_span (p : Char → Bool) (t : List Char) :
    ∃ k s, t = k ++ s ∧ (∀ c ∈ k, p c) ∧ s.head?.any p = false := by
  refine ⟨t.takeWhile p, t.dropWhile p, List.takeWhile_append_dropWhile.symm,
    fun c hc => List.mem_takeWhile_imp hc, ?_⟩
  cases h : t.dropWhile p with
  | nil => rfl
  | cons c s =>
    have := List.head?_dropWhile_not p t
    simpa [h] using this

namespace Scan

theorem run_nil {s : Scan} (h : s.rest = []) : s.run = s.pieces := by
  rw [run]
  split
  · rfl
  · rename_i h'
    cases h.symm.trans h'

theorem run_cons {s : Scan} (c : Char) (rest : List Char) (h : s.rest = c :: rest) :
    s.run = (s.feed (lex c rest)).run := by
  rw [run]
  split
  · rename_i h'
    cases h.symm.trans h'
  · rename_i h'
    cases h.symm.trans h'
    rfl

/-- The text `t`, after the character `before` and in front of `r`, becomes the pieces `ps`. -/
def Becomes (before : Option Char) (t r : List Char) (ps : List Piece) : Prop :=
  ∀ pieces brackets, run ⟨before, t ++ r, pieces, brackets⟩ =
    run ⟨t.getLast?.or before, r, pieces ++ ps.toArray, brackets⟩

section Becomes

variable {before : Option Char} {t t' r : List Char} {ps qs : List Piece}

theorem Becomes.nil : Becomes before [] r [] := by
  intro pieces brackets
  simp

theorem Becomes.append (h : Becomes before t (t' ++ r) ps)
    (h' : Becomes (t.getLast?.or before) t' r qs) : Becomes before (t ++ t') r (ps ++ qs) := by
  intro pieces brackets
  rw [List.append_assoc, h, h']
  simp [List.getLast?_append, Option.or_assoc]

theorem Becomes.append_last (h : Becomes before t t' ps)
    (h' : Becomes (t.getLast?.or before) t' [] qs) : Becomes before (t ++ t') [] (ps ++ qs) := by
  refine Becomes.append ?_ h'
  rwa [List.append_nil]

/-- A lexeme that is pushed as one piece. -/
theorem becomes_lexeme (token : Token) {c : Char} {u : List Char} {p : Piece}
    (lexeme : lex c (u ++ r) = ⟨token, c :: u, r⟩)
    (feed : ∀ s : Scan, s.before = before → s.feed ⟨token, c :: u, r⟩ =
      { s with before := (c :: u).getLast?, rest := r, pieces := s.pieces.push p }) :
    Becomes before (c :: u) r [p] := by
  intro pieces brackets
  rw [run_cons c (u ++ r) rfl, lexeme, feed _ rfl]
  simp [List.getLast?_cons]

/-- A run of marks in front of something else becomes a delimiter. -/
theorem becomes_run (before : Option Char) {m : Char} {n : Nat} (hm : m = '*' ∨ m = '_') (hn : 0 < n)
    (hr : r.head? ≠ some m) :
    Becomes before (List.replicate n m) r [.delim (Delim.ofRun m n before r.head?)] := by
  obtain ⟨n, rfl⟩ := Nat.exists_eq_add_of_lt hn
  obtain ⟨taken, left⟩ := span_append (p := (· == m)) (k := List.replicate n m) (s := r)
    (by simp) (by cases r <;> simp_all)
  rw [Nat.zero_add, List.replicate_succ]
  rcases hm with rfl | rfl
  · refine becomes_lexeme (.stars (n + 1)) ?_ ?_
    · simp [lex, Lexeme.run, taken, left]
    · rintro s rfl
      rfl
  · refine becomes_lexeme (.underscores (n + 1)) ?_ ?_
    · simp [lex, Lexeme.run, taken, left]
    · rintro s rfl
      rfl

/-- A space and those after it become text if no line feed follows. -/
theorem becomes_spaces {n : Nat} (hr : r.head? ≠ some ' ') (feed : r.head? ≠ some '\n') :
    Becomes before (List.replicate (n + 1) ' ') r
      [.inline (.text (List.replicate (n + 1) ' '))] := by
  obtain ⟨taken, left⟩ := span_append (p := (· == ' ')) (k := List.replicate n ' ') (s := r)
    (by simp) (by cases r <;> simp_all)
  rw [List.replicate_succ]
  refine becomes_lexeme (.spaces (' ' :: List.replicate n ' ')) ?_ (fun _ _ => rfl)
  have notFeed : ∀ rest, r ≠ '\n' :: rest := by
    rintro rest rfl
    exact feed rfl
  simp only [lex, Lexeme.ofSpace, taken, left]

/-- A stretch of plain characters becomes text. -/
theorem becomes_plain {c : Char} {u : List Char} (hc : Lexeme.isPlain c)
    (hu : ∀ d ∈ u, Lexeme.isPlain d) (hr : r.head?.any Lexeme.isPlain = false) :
    Becomes before (c :: u) r [.inline (.text (c :: u))] := by
  obtain ⟨taken, left⟩ := span_append hu hr
  refine becomes_lexeme (.text (c :: u)) ?_ (fun _ _ => rfl)
  have plain : lex c (u ++ r) = Lexeme.run Lexeme.isPlain .text c (u ++ r) := by
    unfold lex
    split <;> first | rfl | exact absurd hc (by decide)
  rw [plain, Lexeme.run, taken, left]

/-- What may stand after text without markup: anything that neither goes on with it nor ends the
line. -/
def Stops (r : List Char) : Prop :=
  r.head?.any (fun c => isQuiet c || c == '\n') = false

theorem Stops.none_of {p : Char → Bool} {s : List Char} (h : Stops r)
    (sub : ∀ c, p c → isQuiet c || c == '\n') (hs : s.head?.any p = false) :
    (s ++ r).head?.any p = false := by
  cases s with
  | cons d s => simpa using hs
  | nil =>
    cases r with
    | nil => rfl
    | cons d r =>
      have hd : ¬ p d := fun hd => by simp [Stops, sub d hd] at h
      simpa using hd

/-- The first spaces, or the first characters up to a space, become text. -/
theorem becomes_stretch {c : Char} {u : List Char} (quiet : ∀ d ∈ c :: u, isQuiet d)
    (hr : Stops r) :
    ∃ k s, u = k ++ s ∧ Becomes before (c :: k) (s ++ r) [.inline (.text (c :: k))] := by
  by_cases hc : c = ' '
  · subst hc
    obtain ⟨k, s, rfl, hk, hs⟩ := exists_span (· == ' ') u
    obtain ⟨n, rfl⟩ : ∃ n, k = List.replicate n ' ' :=
      ⟨k.length, List.eq_replicate_iff.mpr ⟨rfl, fun d hd => by simpa using hk d hd⟩⟩
    have space := hr.none_of (fun d hd => by simp [isQuiet, hd]) hs
    have feed : (s ++ r).head? ≠ some '\n' := by
      cases s with
      | nil =>
        rintro e
        simp [Stops, show r.head? = some '\n' from e] at hr
      | cons d s =>
        rintro e
        have hd := quiet d (by simp)
        simp only [List.cons_append, List.head?_cons, Option.some.injEq] at e
        subst e
        revert hd
        decide
    refine ⟨List.replicate n ' ', s, rfl, becomes_spaces ?_ feed⟩
    rintro e
    simp [e] at space
  · have plain : ∀ d, Lexeme.isPlain d → isQuiet d := fun d hd => by simp [isQuiet, hd]
    have first : Lexeme.isPlain c := by simpa [isQuiet, hc] using quiet c (by simp)
    obtain ⟨k, s, rfl, hk, hs⟩ := exists_span Lexeme.isPlain u
    exact ⟨k, s, rfl, becomes_plain first hk (hr.none_of (fun d hd => by simp [plain d hd]) hs)⟩

/-- Text without markup becomes pieces of text, none of them empty. -/
theorem becomes_quiet (before : Option Char) (quiet : ∀ c ∈ t, isQuiet c) (hr : Stops r) :
    ∃ ts : List (List Char), ts.flatten = t ∧ [] ∉ ts ∧
      Becomes before t r (Emphasis.textPieces ts) := by
  induction h : t.length using Nat.strong_induction_on generalizing t before with
  | _ n ih =>
    subst h
    cases t with
    | nil => exact ⟨[], rfl, by simp, .nil⟩
    | cons c u =>
      obtain ⟨k, s, rfl, step⟩ := becomes_stretch quiet hr
      have shorter : s.length < (c :: (k ++ s)).length := by
        rw [List.length_cons, List.length_append]
        omega
      obtain ⟨ts, rfl, full, more⟩ := ih s.length shorter _ (fun d hd => quiet d (by simp [hd])) rfl
      exact ⟨(c :: k) :: ts, by simp, by simpa using full, step.append more⟩

theorem stops_marks {m : Char} (hm : m = '*' ∨ m = '_') {n : Nat} (hn : 0 < n) (r : List Char) :
    Stops (List.replicate n m ++ r) := by
  obtain ⟨n, rfl⟩ := Nat.exists_eq_add_of_lt hn
  rcases hm with rfl | rfl <;> simp [Stops, List.replicate_succ] <;> decide

/-- A text between runs of `n` marks. -/
def between (m : Char) (n : Nat) (t : List Char) : List Char :=
  List.replicate n m ++ t ++ List.replicate n m

theorem becomes_between (before : Option Char) {m : Char} {n : Nat} (hm : m = '*' ∨ m = '_')
    (hn : 0 < n) (filled : t ≠ []) (unmarked : t.head? ≠ some m) (hr : r.head? ≠ some m)
    (inner : Becomes (some m) t (List.replicate n m ++ r) ps) :
    Becomes before (between m n t) r (.delim (Delim.ofRun m n before t.head?) ::
      (ps ++ [.delim (Delim.ofRun m n t.getLast? r.head?)])) := by
  have mark : ∀ b, (List.replicate n m).getLast?.or b = some m := by
    simp [List.getLast?_replicate, Nat.pos_iff_ne_zero.mp hn]
  have first : ∀ more, (t ++ more).head? = t.head? := fun more => by
    cases t with
    | nil => exact absurd rfl filled
    | cons c t => rfl
  have last : (List.replicate n m ++ t).getLast?.or before = t.getLast? := by
    rw [List.getLast?_append, List.getLast?_eq_some_getLast filled]
    rfl
  have opening := becomes_run before hm hn (show (t ++ (List.replicate n m ++ r)).head? ≠ some m from
    (first _).symm ▸ unmarked)
  have closing := becomes_run ((List.replicate n m ++ t).getLast?.or before) hm hn hr
  rw [← mark before] at inner
  have chain := (opening.append inner).append closing
  rw [first, last] at chain
  exact chain

/-- The inlines of a text from the pieces it becomes. -/
theorem parseInlines_of_becomes (h : Becomes none t [] ps) :
    parseInlines t = finish (Emphasis.resolve [] ps) := by
  have := h #[] []
  rw [List.append_nil] at this
  rw [parseInlines, this, run_nil rfl]
  simp

/-- A text that becomes one inline is that inline. -/
theorem parseInlines_of_becomes_inline {i : Inline} (h : Becomes none t [] [.inline i]) :
    parseInlines t = [i] := by
  have silent : ∀ p ∈ [Piece.inline i], Emphasis.Silent p :=
    List.forall_mem_singleton.mpr (Emphasis.silent_inline i)
  rw [parseInlines_of_becomes h, Emphasis.resolve_all_silent silent]
  exact Emphasis.finish_inline i

end Becomes

end Scan

end MarkdownForest
