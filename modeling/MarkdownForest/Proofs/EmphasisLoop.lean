/-
# MarkdownForest.Proofs.EmphasisLoop -- matching delimiters in place

Emphasis may be resolved in the one vector that holds the pieces: an index goes
up over the runs that close nothing, and falls back behind the new emphasis when
a match is made.  A match takes what lies between its runs out of the vector,
puts an emphasis there, writes the counts that are left into the runs, and takes
out a run of which nothing is left.  Every access may be out of bounds, every
subtraction may go below zero, and nothing says that the index ever comes to the
end (`EmphasisLoop.process`).

In step with it is `Emphasis.resolve`, which has the pieces below the index in
reverse: `opener?_eq` for the search, `turn_match` for a match, and from these
`process_eq`, by induction along `resolve`.
-/
import MarkdownForest.Proofs.Matching
import MarkdownForest.Proofs.Rounds

namespace MarkdownForest

set_option autoImplicit false

/-! ## A vector of pieces -/

namespace EmphasisLoop

open Emphasis

/-- Takes the pieces from `i` up to `j` out. -/
def drain (ps : List Piece) (i j : Nat) : Option (List Piece × List Piece) :=
  if i ≤ j ∧ j ≤ ps.length then some ((ps.take j).drop i, ps.take i ++ ps.drop j) else none

def insert (ps : List Piece) (i : Nat) (p : Piece) : Option (List Piece) :=
  if i ≤ ps.length then some (ps.take i ++ p :: ps.drop i) else none

def remove (ps : List Piece) (i : Nat) : Option (List Piece) :=
  if i < ps.length then some (ps.eraseIdx i) else none

/-- Writes a count into the piece at `i`, if it is a run. -/
def recount (ps : List Piece) (i count : Nat) : Option (List Piece) := do
  match ← ps[i]? with
  | .delim d => return ps.set i (.delim { d with count })
  | _ => return ps

def subtract (m n : Nat) : Option Nat :=
  if n ≤ m then some (m - n) else none

/-! ## The loop -/

/-- Whether a piece is a run that opens the emphasis that `closer` closes. -/
def opening (closer : Delim) : Piece → Bool
  | .delim d => d.opens closer
  | _ => false

/-- Where the last opener from `bottom` up to `i` is. -/
def opener? (ps : List Piece) (bottom i : Nat) (closer : Delim) : Option (Option Nat) :=
  (List.range' bottom (i - bottom)).reverse.findM? fun j => (ps[j]?).map (opening closer)

/-- Leaves `count` marks of the run at `j`; what the next piece but one is then is at the index. -/
def leaveOpener (ps : List Piece) (j count : Nat) : Option (List Piece × Nat) :=
  if count = 0 then (remove ps j).map (·, j + 1) else (recount ps j count).map (·, j + 2)

/-- Takes the run at `i` out if `count`, which is written already, is zero. -/
def leaveCloser (ps : List Piece) (i count : Nat) : Option (List Piece) :=
  if count = 0 then remove ps i else some ps

/-- The vector and the index after the runs at `j` and `i` are matched. -/
def pair (ps : List Piece) (j i : Nat) (opener closer : Delim) : Option (List Piece × Nat) := do
  let used := marksUsed opener closer
  let openLeft ← subtract opener.count used
  let closeLeft ← subtract closer.count used
  let (between, ps) ← drain ps (j + 1) i
  let ps ← insert ps (j + 1) (.inline (wrap used (finish between)))
  let ps ← recount ps (j + 2) closeLeft
  let (ps, i) ← leaveOpener ps j openLeft
  let ps ← leaveCloser ps i closeLeft
  return (ps, i)

/-- The vector and the index after the piece at the index is looked at. -/
def turn (bottom : Nat) (ps : List Piece) (i : Nat) : Option (List Piece × Nat) := do
  match closer? (← ps[i]?) with
  | none => return (ps, i + 1)
  | some closer =>
    match ← opener? ps bottom i closer with
    | none => return (ps, i + 1)
    | some j =>
      match ← ps[j]? with
      | .delim opener => pair ps j i opener closer
      | _ => return (ps, i + 1)

/-- One round: the loop is over when the index is at the end, or when something goes wrong. -/
def round (bottom : Nat) : List Piece × Nat → Part (Option (List Piece) ⊕ List Piece × Nat)
  | (ps, i) =>
    if i < ps.length then
      match turn bottom ps i with
      | none => .some (.inl none)
      | some next => .some (.inr next)
    else .some (.inl (some ps))

/-- The pieces with every match among those from `bottom` on made in place; `none` if something went
wrong. -/
def process (bottom : Nat) (ps : List Piece) : Part (Option (List Piece)) :=
  Loop.run (round bottom) (ps, bottom)

/-! ## Operations on a vector given in parts -/

section Operations

variable {pre between more : List Piece} {p q : Piece} {d : Delim} {i j n : Nat}

theorem getElem?_at (h : pre.length = i) : (pre ++ p :: more)[i]? = some p := by
  subst h
  simp

theorem drain_at (hi : pre.length = i) (hj : i + between.length = j) :
    drain (pre ++ between ++ more) i j = some (between, pre ++ more) := by
  subst hi hj
  rw [drain, if_pos (by simp)]
  simp [List.take_append, List.drop_append]

theorem insert_at (h : pre.length = i) : insert (pre ++ more) i p = some (pre ++ p :: more) := by
  subst h
  rw [insert, if_pos (by simp)]
  simp

theorem remove_at (h : pre.length = i) : remove (pre ++ p :: more) i = some (pre ++ more) := by
  subst h
  rw [remove, if_pos (by simp), List.eraseIdx_append_of_length_le (Nat.le_refl _)]
  simp

theorem recount_at (h : pre.length = i) :
    recount (pre ++ .delim d :: more) i n = some (pre ++ .delim { d with count := n } :: more) := by
  rw [recount, getElem?_at h]
  subst h
  simp

theorem subtract_eq {m : Nat} (h : n ≤ m) : subtract m n = some (m - n) := if_pos h

end Operations

/-! ## In step with `resolve` -/

section Steps

variable {pre left right above below more : List Piece} {p : Piece} {opener closer : Delim}
  {bottom : Nat}

/-- The search goes down over the pieces that lie in reverse on the left. -/
theorem opener?_eq (hb : pre.length = bottom) (closer : Delim) (left rest : List Piece) :
    opener? (pre ++ left.reverse ++ rest) bottom (bottom + left.length) closer =
      some ((findOpener closer left).map fun (_, _, below) => bottom + below.length) := by
  rw [opener?, Nat.add_sub_cancel_left]
  induction left generalizing rest with
  | nil => rfl
  | cons p left ih =>
    have here : (pre ++ (p :: left).reverse ++ rest)[bottom + left.length]? = some p := by
      rw [List.reverse_cons, ← List.append_assoc, List.append_assoc _ [p]]
      exact getElem?_at (by simp [hb])
    have below : pre ++ (p :: left).reverse ++ rest = pre ++ left.reverse ++ p :: rest := by simp
    rw [List.length_cons, List.range'_1_concat, List.reverse_concat, List.findM?, here, below,
      ih (p :: rest)]
    cases p with
    | delim d =>
      rw [findOpener_delim]
      by_cases opens : d.opens closer
      · simp [opening, opens]
      · simp [opening, opens, Function.comp_def]
    | inline _ => simp [findOpener, opening, Function.comp_def]
    | bracket _ _ => simp [findOpener, opening, Function.comp_def]

theorem leaveOpener_eq {j : Nat} (hj : pre.length = j) (used : Nat) (rest : List Piece) :
    leaveOpener (pre ++ .delim opener :: rest) j (opener.count - used) =
      some (pre ++ (remaining opener used ++ rest), j + (remaining opener used).length + 1) := by
  unfold leaveOpener remaining
  by_cases none : opener.count - used = 0
  · rw [if_pos none, if_pos (by omega), remove_at hj]
    rfl
  · rw [if_neg none, if_neg (by omega), recount_at hj]
    rfl

theorem leaveCloser_eq {i : Nat} (hi : pre.length = i) (used : Nat) (rest : List Piece) :
    leaveCloser (pre ++ .delim { closer with count := closer.count - used } :: rest) i
        (closer.count - used) =
      some (pre ++ (remaining closer used ++ rest)) := by
  unfold leaveCloser remaining
  by_cases none : closer.count - used = 0
  · rw [if_pos none, if_pos (by omega), remove_at hi]
    rfl
  · rw [if_neg none, if_neg (by omega)]
    rfl

theorem reverse_remaining (d : Delim) (used : Nat) :
    (remaining d used).reverse = remaining d used := by
  unfold remaining
  split <;> rfl

/-- A match takes the place of its runs and of what lies between them. -/
theorem pair_eq {i j : Nat} {between : List Piece} (hj : pre.length = j)
    (hi : j + 1 + between.length = i) (ho : marksUsed opener closer ≤ opener.count)
    (hc : marksUsed opener closer ≤ closer.count) :
    let used := marksUsed opener closer
    pair (pre ++ .delim opener :: (between ++ .delim closer :: more)) j i opener closer =
      some (pre ++ (remaining opener used ++ .inline (wrap used (finish between)) ::
        (remaining closer used ++ more)), j + (remaining opener used).length + 1) := by
  intro used
  have row : pre ++ .delim opener :: (between ++ .delim closer :: more) =
      pre ++ [.delim opener] ++ between ++ .delim closer :: more := by simp
  have drained : drain (pre ++ [.delim opener] ++ between ++ .delim closer :: more) (j + 1) i =
      some (between, pre ++ [.delim opener] ++ .delim closer :: more) := drain_at (by simpa) hi
  have inserted (q : Piece) : insert (pre ++ [.delim opener] ++ .delim closer :: more) (j + 1) q =
      some (pre ++ [.delim opener] ++ q :: .delim closer :: more) := insert_at (by simpa)
  have recounted (q : Piece) (n : Nat) :
      recount (pre ++ [.delim opener] ++ q :: .delim closer :: more) (j + 2) n =
        some (pre ++ .delim opener :: q :: .delim { closer with count := n } :: more) := by
    have : recount (pre ++ [.delim opener] ++ [q] ++ .delim closer :: more) (j + 2) n = _ :=
      recount_at (by simp [hj])
    simpa using this
  have settled (q : Piece) : leaveCloser
      (pre ++ (remaining opener used ++ q :: .delim { closer with count := closer.count - used } ::
        more)) (j + (remaining opener used).length + 1) (closer.count - used) =
      some (pre ++ (remaining opener used ++ q :: (remaining closer used ++ more))) := by
    have : leaveCloser (pre ++ remaining opener used ++ [q] ++
        .delim { closer with count := closer.count - used } :: more)
        (j + (remaining opener used).length + 1) (closer.count - used) = _ :=
      leaveCloser_eq (by simp [hj]; omega) used more
    simpa using this
  rw [pair, subtract_eq ho, subtract_eq hc, row]
  simp only [Option.bind_eq_bind, Option.bind_some, drained, inserted, recounted,
    leaveOpener_eq hj, settled, used]
  rfl

/-- A piece that no opener is found for is passed by. -/
theorem turn_pass (hb : pre.length = bottom)
    (h : ∀ d, closer? p = some d → findOpener d left = none) :
    turn bottom (pre ++ left.reverse ++ p :: more) (bottom + left.length) =
      some (pre ++ (p :: left).reverse ++ more, bottom + (p :: left).length) := by
  have here : (pre ++ left.reverse ++ p :: more)[bottom + left.length]? = some p :=
    getElem?_at (by simp [hb])
  have same : pre ++ left.reverse ++ p :: more = pre ++ (p :: left).reverse ++ more := by simp
  rw [turn, here, Option.bind_eq_bind, Option.bind_some]
  cases hc : closer? p with
  | none => rw [same]; rfl
  | some d =>
    dsimp only
    rw [opener?_eq hb, h d hc, same]
    rfl

/-- A closer is matched with the opener that is found for it. -/
theorem turn_match (hb : pre.length = bottom) (hc : closer? p = some closer)
    (ho : findOpener closer left = some (above, opener, below)) :
    let used := marksUsed opener closer
    let left' := .inline (wrap used (finish above.reverse)) :: (remaining opener used ++ below)
    turn bottom (pre ++ left.reverse ++ p :: more) (bottom + left.length) =
      some (pre ++ left'.reverse ++ (remaining closer used ++ more), bottom + left'.length) := by
  intro used left'
  obtain ⟨rfl, closes⟩ := Emphasis.closer?_eq_some hc
  obtain ⟨rfl, opens⟩ := Emphasis.findOpener_eq_some ho
  obtain ⟨-, openLeft, closeLeft⟩ := Emphasis.marksUsed_le opens closes
  have search := opener?_eq hb closer (above ++ .delim opener :: below) (.delim closer :: more)
  -- The row, with what lies between the two runs set apart.
  have row : pre ++ (above ++ .delim opener :: below).reverse ++ .delim closer :: more =
      (pre ++ below.reverse) ++ .delim opener :: (above.reverse ++ .delim closer :: more) := by simp
  have there : (pre ++ (above ++ .delim opener :: below).reverse ++ .delim closer :: more)[
      bottom + below.length]? = some (.delim opener) := by
    rw [row]
    exact getElem?_at (by simp [hb])
  have here : (pre ++ (above ++ .delim opener :: below).reverse ++ .delim closer :: more)[
      bottom + (above ++ .delim opener :: below).length]? = some (.delim closer) :=
    getElem?_at (by simp [hb]; omega)
  have paired : pair
      (pre ++ below.reverse ++ .delim opener :: (above.reverse ++ .delim closer :: more))
      (bottom + below.length) (bottom + (above ++ .delim opener :: below).length)
      opener closer = _ :=
    pair_eq (by simp [hb]) (by simp; omega) openLeft closeLeft
  rw [turn, here, Option.bind_eq_bind, Option.bind_some, hc]
  dsimp only
  rw [search, ho]
  simp only [Option.map_some, Option.bind_eq_bind, Option.bind_some, there]
  rw [row, paired]
  simp [left', used, reverse_remaining]
  omega

theorem loop_turn {ps : List Piece} {i : Nat} {next : List Piece × Nat} (hi : i < ps.length)
    (h : turn bottom ps i = some next) :
    Loop.run (round bottom) (ps, i) = Loop.run (round bottom) next := by
  apply Loop.run_next
  rw [round, if_pos hi, h]

/-- From where `left` is gone through, the loop comes to an end and leaves what `resolve` does. -/
theorem loop_eq (hb : pre.length = bottom) (left right : List Piece) :
    Loop.run (round bottom) (pre ++ left.reverse ++ right, bottom + left.length) =
      .some (some (pre ++ resolve left right)) := by
  fun_induction resolve left right with
  | case1 left =>
    apply Loop.run_over
    rw [round, if_neg (by simp [hb]), List.append_nil]
  | case2 left p more hc ih =>
    rw [loop_turn (by simp [hb]) (turn_pass hb (by simp [hc]))]
    exact ih
  | case3 left p more closer hc ho ih =>
    have unopened : ∀ d, closer? p = some d → findOpener d left = none := by
      intro d hd
      cases hc.symm.trans hd
      exact ho
    rw [loop_turn (by simp [hb]) (turn_pass hb unopened)]
    exact ih
  | case4 left p more closer hc above opener below ho _ used between ih =>
    rw [loop_turn (by simp [hb]) (turn_match hb hc ho)]
    exact ih

end Steps

/-- Matching delimiters in place comes to an end, with every access in bounds, and leaves what
`Emphasis.process` does. -/
theorem process_eq (bottom : Nat) (ps : List Piece) :
    process bottom ps = .some (some (Emphasis.process bottom ps)) := by
  rw [process, Emphasis.process]
  by_cases within : bottom ≤ ps.length
  · have h := loop_eq (List.length_take_of_le within) [] (ps.drop bottom)
    simpa using h
  · rw [List.drop_eq_nil_of_le (by omega), List.take_of_length_le (by omega), resolve_nil]
    apply Loop.run_over
    rw [round, if_neg (by omega), List.reverse_nil, List.append_nil]

end EmphasisLoop

end MarkdownForest
