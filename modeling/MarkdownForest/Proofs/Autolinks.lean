/-
# MarkdownForest.Proofs.Autolinks -- what an angle bracket turned out to begin

The automaton of `MarkdownForest.Inline.Angle` reads line feeds only where it
looks for a tag or a comment.  From there no autolink is found any more, so an
autolink is on one line (`angleRun_autolink`).  It ends with a bracket, also when
the automaton reads it to the end before it knows (`closedState`).

A stretch that begins like a tag and is none may well hold line feeds.  It is
text as it stands (`IsUnfinished`).
-/
import MarkdownForest.Inline.Token

namespace MarkdownForest

set_option autoImplicit false

open Text

/-- Whether an autolink was found. -/
def AngleEnd.isAutolink : AngleEnd → Bool
  | uri | email => true
  | _ => false

/-- The states in which a line feed may have been read. -/
def feedStates : List Nat :=
  [9, 15, 17, 18, 22, 25, 26, 27, 28, 32, 33, 34, 35, 39, 40]

/-- The state that finds an autolink when no move is left. -/
def closedState : Nat := 38

/-- A move from a state on characters in the given ranges.  A line feed leads to one of the
`feedStates`, and none of them is left; only a bracket closes an autolink. -/
def AngleMove.KeepsFeeds (state : Nat) (ranges : List (Nat × Nat)) : AngleMove → Prop
  | move next => (next ∈ feedStates ∨ state ∉ feedStates ∧ within ranges 0x0A = false) ∧
    (next = closedState → ranges = [(0x3E, 0x3E)])
  | accept found => found.isAutolink →
    state ∉ feedStates ∧ ranges = [(0x3E, 0x3E)] ∧ 2 ≤ angleDepth state

instance (state : Nat) (ranges : List (Nat × Nat)) :
    (m : AngleMove) → Decidable (m.KeepsFeeds state ranges)
  | .move next => inferInstanceAs (Decidable ((next ∈ feedStates ∨ _) ∧ _))
  | .accept found => inferInstanceAs (Decidable (found.isAutolink → _))

/-- A row that finds no autolink once a line feed has been read, and none of fewer than three
characters. -/
structure AngleRow.KeepsFeeds (state : Nat) (row : AngleRow) : Prop where
  stop : row.found.isAutolink →
    state ∉ feedStates ∧ row.back = 0 ∧ state = closedState ∧ 3 ≤ angleDepth state
  moves : ∀ m ∈ row.moves, m.2.KeepsFeeds state m.1

instance (state : Nat) (row : AngleRow) : Decidable (row.KeepsFeeds state) :=
  decidable_of_iff ((row.found.isAutolink →
      state ∉ feedStates ∧ row.back = 0 ∧ state = closedState ∧ 3 ≤ angleDepth state) ∧
      ∀ m ∈ row.moves, m.2.KeepsFeeds state m.1)
    ⟨fun h => ⟨h.1, h.2⟩, fun h => ⟨h.stop, h.moves⟩⟩

theorem angleRow_of_ge {state : Nat} (h : angleRows.size ≤ state) :
    angleRow state = ⟨.bracket, 0, []⟩ := by
  simp [angleRow, Array.getD, Nat.not_lt.mpr h]

theorem angleRow_keepsFeeds (state : Nat) : (angleRow state).KeepsFeeds state := by
  by_cases h : state < angleRows.size
  · have all : ∀ i : Fin angleRows.size, (angleRow i).KeepsFeeds i := by decide +kernel
    exact all ⟨state, h⟩
  · rw [angleRow_of_ge (Nat.le_of_not_lt h)]
    exact ⟨nofun, nofun⟩

/-- What the automaton says of its state while it reads: how much was read at least, whether line
feeds may be in it, and what was read last. -/
structure AngleRead (state : Nat) (taken : List Char) : Prop where
  depth : angleDepth state ≤ taken.length
  feeds : '\n' ∈ taken → state ∈ feedStates
  closed : state = closedState → taken.head? = some '>'

/-- What is like an autolink, the last character first. -/
structure IsAutolink (taken : List Char) : Prop where
  long : 3 ≤ taken.length
  line : '\n' ∉ taken
  closed : taken.head? = some '>'

theorem AngleRow.move?_within {row : AngleRow} {c : Char} {m : AngleMove}
    (h : row.move? c = some m) : ∃ ranges, (ranges, m) ∈ row.moves ∧ within ranges c.toNat := by
  obtain ⟨⟨ranges, n⟩, hf, rfl⟩ := Option.map_eq_some_iff.1 h
  exact ⟨ranges, List.mem_of_find?_eq_some hf, by simpa using List.find?_some hf⟩

theorem eq_bracket {c : Char} (h : within [(0x3E, 0x3E)] c.toNat) : c = '>' := by
  simp only [within, List.any_cons, List.any_nil, Bool.or_false, Bool.and_eq_true,
    decide_eq_true_eq] at h
  exact Char.toNat_inj.mp (Nat.le_antisymm h.2 h.1)

namespace AngleRead

variable {state next : Nat} {taken : List Char} {c : Char} {found : AngleEnd}

theorem move (r : AngleRead state taken) (h : (angleRow state).move? c = some (.move next)) :
    AngleRead next (c :: taken) := by
  obtain ⟨ranges, hm, hc⟩ := AngleRow.move?_within h
  have deeper := (angleRow_keepsDepth state).2 _ hm
  obtain ⟨kept, closing⟩ := (angleRow_keepsFeeds state).moves _ hm
  refine ⟨?_, fun feed => ?_, fun closed => ?_⟩
  · have := r.depth
    simp only [List.length_cons]
    omega
  · rcases kept with into | ⟨clean, dry⟩
    · exact into
    · rcases List.mem_cons.mp feed with rfl | feed
      · exact absurd hc (by simp [dry])
      · exact absurd (r.feeds feed) clean
  · have bracket : ranges = [(0x3E, 0x3E)] := closing closed
    rw [bracket] at hc
    rw [eq_bracket hc, List.head?_cons]

/-- An autolink that a character ends. -/
theorem accept (r : AngleRead state taken)
    (h : (angleRow state).move? c = some (.accept found)) (link : found.isAutolink) :
    IsAutolink (c :: taken) := by
  obtain ⟨ranges, hm, hc⟩ := AngleRow.move?_within h
  obtain ⟨clean, bracket, deep⟩ := (angleRow_keepsFeeds state).moves _ hm link
  obtain rfl : ranges = [(0x3E, 0x3E)] := bracket
  obtain rfl := eq_bracket hc
  have := r.depth
  refine ⟨by simp only [List.length_cons]; omega, fun feed => ?_, rfl⟩
  rcases List.mem_cons.mp feed with e | feed
  · exact absurd e (by decide)
  · exact clean (r.feeds feed)

/-- An autolink that is found because no move is left. -/
theorem stop (r : AngleRead state taken) (link : (angleRow state).found.isAutolink) :
    IsAutolink (taken.drop (angleRow state).back) := by
  obtain ⟨clean, back, closed, deep⟩ := (angleRow_keepsFeeds state).stop link
  rw [back, List.drop_zero]
  exact ⟨Nat.le_trans deep r.depth, fun feed => clean (r.feeds feed), r.closed closed⟩

end AngleRead

/-- An autolink has a character between its brackets and is on one line. -/
theorem angleRun_autolink {state : Nat} {taken s : List Char} (r : AngleRead state taken)
    (link : (angleRun state taken s).1.isAutolink) : IsAutolink (angleRun state taken s).2.1 := by
  induction s generalizing state taken with
  | nil => exact r.stop link
  | cons c s ih =>
    rw [angleRun] at link ⊢
    cases h : (angleRow state).move? c with
    | none =>
      rw [h] at link
      exact r.stop link
    | some m =>
      rw [h] at link
      cases m with
      | move next => exact ih (r.move h) link
      | accept found => exact r.accept h link

/-! ## Lexemes -/

namespace Lexeme

/-- A stretch that begins like a tag or an autolink and is none. -/
def IsUnfinished (u : List Char) : Prop :=
  ∃ s, (ofAngle s).token = .text u

/-- An autolink is its address between brackets, and that is not empty and holds no line feed. -/
theorem autolink_eq {s : List Char} (link : (angleRun 0 ['<'] s).1.isAutolink) :
    ∃ inside, (angleRun 0 ['<'] s).2.1.reverse = '<' :: (inside ++ ['>']) ∧ inside ≠ [] ∧
      '\n' ∉ inside := by
  have start : AngleRead 0 ['<'] := ⟨by decide, by simp, fun e => absurd e (by decide)⟩
  obtain ⟨long, line, closed⟩ := angleRun_autolink start link
  have whole := angleRun_append 0 ['<'] s
  generalize (angleRun 0 ['<'] s).2.1 = taken at *
  obtain ⟨taken, rfl⟩ : ∃ t, taken = '>' :: t := by
    cases taken with
    | nil => simp at closed
    | cons c t => exact ⟨t, by rw [Option.some.inj closed]⟩
  rcases List.eq_nil_or_concat taken with rfl | ⟨inside, first, rfl⟩
  · simp at long
  · rw [List.concat_eq_append] at *
    simp only [List.reverse_cons, List.reverse_append, List.reverse_nil, List.nil_append,
      List.cons_append, List.cons.injEq] at whole
    refine ⟨inside.reverse, ?_, fun e => ?_, fun feed => line ?_⟩
    · simp [whole.1]
    · simp [List.reverse_eq_nil_iff.mp e] at long
    · simp [List.mem_reverse.mp feed]

end Lexeme

end MarkdownForest
