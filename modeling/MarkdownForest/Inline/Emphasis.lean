/-
# MarkdownForest.Inline.Emphasis -- which delimiters match

Pieces are gone through from left to right.  At each run that may close, the
nearest run before it that may open it becomes the other end of an emphasis, or
of a strong one when both have two marks left; what lies between becomes its
contents, and what is left of the runs stays.  A closer without an opener is
passed by.

The pieces gone through lie in reverse on the left (`resolve`).  Each step
passes a piece or uses up marks, so the sum of the pieces to come and of all
marks left falls (`resolve` ends).
-/
import MarkdownForest.Inline.Piece

namespace MarkdownForest

set_option autoImplicit false

namespace Emphasis

/-- The nearest piece that opens `closer`, with the pieces above and below it. -/
def findOpener (closer : Delim) : List Piece → Option (List Piece × Delim × List Piece)
  | [] => none
  | p :: below =>
    let further := (findOpener closer below).map fun (above, d, rest) => (p :: above, d, rest)
    match p with
    | .delim d => if d.opens closer then some ([], d, below) else further
    | _ => further

/-- A run of which `used` marks are used up, if any are left. -/
def remaining (d : Delim) (used : Nat) : List Piece :=
  if d.count ≤ used then [] else [.delim { d with count := d.count - used }]

/-- The marks that two matching runs use up. -/
def marksUsed (opener closer : Delim) : Nat :=
  if 2 ≤ opener.count && 2 ≤ closer.count then 2 else 1

/-- The emphasis that uses up `used` marks on either side. -/
def wrap (used : Nat) (children : List Inline) : Inline :=
  if used = 2 then .strong children else .emph children

/-- The marks left in a piece. -/
def pieceMarks : Piece → Nat
  | .delim d => d.count
  | _ => 0

/-- The marks left in pieces. -/
def marks : List Piece → Nat
  | [] => 0
  | p :: ps => pieceMarks p + marks ps

@[simp] theorem marks_append (ps qs : List Piece) : marks (ps ++ qs) = marks ps + marks qs := by
  induction ps with
  | nil => simp [marks]
  | cons p ps ih => simp [marks, ih, Nat.add_assoc]

/-- The run that a piece is, if it may close. -/
def closer? : Piece → Option Delim
  | .delim d => if d.closes then some d else none
  | _ => none

theorem closer?_eq_some {p : Piece} {d : Delim} (h : closer? p = some d) :
    p = .delim d ∧ d.closes := by
  unfold closer? at h
  split at h
  · split at h
    · next hc => cases h; exact ⟨rfl, hc⟩
    · simp at h
  · simp at h

theorem findOpener_eq_some {closer : Delim} {left above below : List Piece} {d : Delim}
    (h : findOpener closer left = some (above, d, below)) :
    left = above ++ .delim d :: below ∧ d.opens closer := by
  induction left generalizing above with
  | nil => simp [findOpener] at h
  | cons p left ih =>
    have further {above : List Piece}
        (h : (findOpener closer left).map (fun (a, d, rest) => (p :: a, d, rest)) =
          some (above, d, below)) : p :: left = above ++ .delim d :: below ∧ d.opens closer := by
      obtain ⟨⟨a, e, r⟩, hf, he⟩ := Option.map_eq_some_iff.1 h
      cases he
      obtain ⟨rfl, ho⟩ := ih hf
      exact ⟨rfl, ho⟩
    unfold findOpener at h
    split at h
    · split at h
      · next ho => cases h; exact ⟨rfl, ho⟩
      · exact further h
    · exact further h

theorem marks_remaining (d : Delim) (used : Nat) : marks (remaining d used) = d.count - used := by
  unfold remaining
  split
  · simp only [marks]; omega
  · simp [marks, pieceMarks]

theorem length_remaining_le (d : Delim) (used : Nat) : (remaining d used).length ≤ 1 := by
  unfold remaining
  split <;> simp

theorem marksUsed_le {opener closer : Delim} (h : opener.opens closer) (hc : closer.closes) :
    0 < marksUsed opener closer ∧ marksUsed opener closer ≤ opener.count ∧
      marksUsed opener closer ≤ closer.count := by
  simp only [Delim.opens, Delim.closes, Bool.and_eq_true, decide_eq_true_eq] at h hc
  unfold marksUsed
  split
  · next h2 => simp only [Bool.and_eq_true, decide_eq_true_eq] at h2; omega
  · omega

/-- A match uses up a mark on either side. -/
theorem marks_match_lt {closer : Delim} {left above below : List Piece} {opener : Delim}
    (hc : closer.closes) (h : findOpener closer left = some (above, opener, below)) :
    marks (remaining opener (marksUsed opener closer)) + marks below +
      marks (remaining closer (marksUsed opener closer)) + 2 ≤ marks left + closer.count := by
  obtain ⟨rfl, ho⟩ := findOpener_eq_some h
  have := marksUsed_le ho hc
  simp only [marks_append, marks_remaining, marks, pieceMarks]
  omega

/-- The pieces after all matches are made.  `left` holds the pieces gone through, the last one
first; `right` holds those to come. -/
def resolve (left right : List Piece) : List Piece :=
  match right with
  | [] => left.reverse
  | p :: more =>
    match hc : closer? p with
    | none => resolve (p :: left) more
    | some closer =>
      match ho : findOpener closer left with
      | none => resolve (p :: left) more
      | some (above, opener, below) =>
        have := marks_match_lt (closer?_eq_some hc).2 ho
        let used := marksUsed opener closer
        let between := wrap used (finish above.reverse)
        resolve (.inline between :: (remaining opener used ++ below)) (remaining closer used ++ more)
termination_by marks left + marks right + right.length
decreasing_by
  · simp only [marks, List.length_cons]; omega
  · simp only [marks, List.length_cons]; omega
  · have hp := (closer?_eq_some hc).1
    have := length_remaining_le closer (marksUsed opener closer)
    simp only [hp, marks, pieceMarks, marks_append, List.length_append, List.length_cons]
    omega

/-- The pieces with every match among those from `bottom` on made. -/
def process (bottom : Nat) (pieces : List Piece) : List Piece :=
  pieces.take bottom ++ resolve [] (pieces.drop bottom)

end Emphasis

end MarkdownForest
