/-
# MarkdownForest.Proofs.NormalPieces -- the normal form of inlines and pieces

Inlines are in normal form when no text is empty, no two neighbours are text,
and no emphasis is empty.  A line feed stands in a text only inside a stretch
that begins like a tag and is none (`Unbroken`).

Texts are joined where inlines are finished (`finish_normal`), so all that is
left is that no piece comes to nothing.  For an emphasis this is an invariant of
the pieces: two runs of the same mark are never neighbours (`Parted`), since a
match puts an emphasis between what is left of its runs
(`Emphasis.resolve_normal`).
-/
import MarkdownForest.Inline.Scan
import MarkdownForest.Proofs.Autolinks
import Mathlib.Data.List.Chain

namespace MarkdownForest

set_option autoImplicit false

/-! ## Texts -/

/-- Stretches, each free of line feeds or unfinished. -/
def Unbroken (s : List Char) : Prop :=
  ∃ parts : List (List Char), parts.flatten = s ∧ ∀ u ∈ parts, '\n' ∉ u ∨ Lexeme.IsUnfinished u

theorem Unbroken.of_line {s : List Char} (h : '\n' ∉ s) : Unbroken s :=
  ⟨[s], by simp, by simp [h]⟩

theorem Unbroken.of_unfinished {s : List Char} (h : Lexeme.IsUnfinished s) : Unbroken s :=
  ⟨[s], by simp, by simp [h]⟩

theorem Unbroken.append {s t : List Char} (hs : Unbroken s) (ht : Unbroken t) :
    Unbroken (s ++ t) := by
  obtain ⟨ps, rfl, hps⟩ := hs
  obtain ⟨qs, rfl, hqs⟩ := ht
  exact ⟨ps ++ qs, by simp, fun u hu => (List.mem_append.mp hu).elim (hps u) (hqs u)⟩

/-! ## Inlines -/

namespace Inline

def isText : Inline → Bool
  | text _ => true
  | _ => false

/-- No two neighbours are text. -/
def Apart (is : List Inline) : Prop :=
  is.IsChain fun i j => ¬ (i.isText ∧ j.isText)

mutual
/-- Texts and emphasis are not empty, and neighbouring texts are one. -/
def Normal : Inline → Prop
  | text s => s ≠ [] ∧ Unbroken s
  | emph is | strong is => is ≠ [] ∧ Apart is ∧ NormalList is
  | link _ _ is | image _ _ is => Apart is ∧ NormalList is
  | _ => True

def NormalList : List Inline → Prop
  | [] => True
  | i :: is => i.Normal ∧ NormalList is
end

end Inline

open Inline

theorem joinInline_normal {i : Inline} {is : List Inline} (hi : i.Normal)
    (h : Apart is ∧ NormalList is) : Apart (joinInline i is) ∧ NormalList (joinInline i is) := by
  unfold joinInline
  split
  · rename_i s t more
    obtain ⟨apart, ht, hmore⟩ := h
    refine ⟨?_, ⟨?_, hi.2.append ht.2⟩, hmore⟩
    · cases more with
      | nil => exact .singleton _
      | cons j more =>
        rw [Apart, List.isChain_cons_cons] at apart ⊢
        exact apart
    · simp [hi.1]
  · rename_i more apart
    refine ⟨?_, hi, h.2⟩
    cases is with
    | nil => exact .singleton _
    | cons j more =>
      refine List.isChain_cons_cons.mpr ⟨fun both => ?_, h.1⟩
      cases i <;> cases j <;> simp [isText] at both
      exact apart _ _ _ rfl rfl

theorem joinInline_ne_nil (i : Inline) (is : List Inline) : joinInline i is ≠ [] := by
  unfold joinInline
  split <;> simp

/-! ## Pieces -/

namespace Piece

/-- The mark of a run. -/
def mark? : Piece → Option Char
  | delim d => some d.mark
  | _ => none

/-- A piece that stands for something in normal form. -/
def Normal : Piece → Prop
  | inline i => i.Normal
  | delim d => 0 < d.count ∧ d.mark ≠ '\n'
  | bracket .. => True

theorem toInline_normal {p : Piece} (h : p.Normal) : p.toInline.Normal := by
  cases p with
  | inline i => exact h
  | delim d =>
    refine ⟨by simpa using Nat.pos_iff_ne_zero.mp h.1, .of_line fun feed => ?_⟩
    exact h.2 (List.eq_of_mem_replicate feed).symm
  | bracket image active => cases image <;> exact ⟨by decide, .of_line (by decide)⟩

theorem deactivate_normal {p : Piece} (h : p.Normal) : p.deactivate.Normal := by
  unfold deactivate
  split
  · trivial
  · exact h

@[simp] theorem mark?_deactivate (p : Piece) : p.deactivate.mark? = p.mark? := by
  unfold deactivate
  split <;> rfl

end Piece

/-- What pieces in normal form stand for is in normal form. -/
theorem finish_normal {ps : List Piece} (h : ∀ p ∈ ps, p.Normal) :
    Apart (finish ps) ∧ NormalList (finish ps) := by
  induction ps with
  | nil => exact ⟨.nil, trivial⟩
  | cons p ps ih =>
    obtain ⟨hp, hps⟩ := List.forall_mem_cons.mp h
    exact joinInline_normal (Piece.toInline_normal hp) (ih hps)

theorem finish_ne_nil {ps : List Piece} (h : ps ≠ []) : finish ps ≠ [] := by
  cases ps with
  | nil => exact absurd rfl h
  | cons p ps => exact joinInline_ne_nil _ _

/-- The mark of the run at the end of pieces. -/
def lastMark (ps : List Piece) : Option Char :=
  ps.getLast?.bind Piece.mark?

@[simp] theorem lastMark_concat (ps : List Piece) (p : Piece) :
    lastMark (ps ++ [p]) = p.mark? := by
  simp [lastMark]

theorem lastMark_of_marks {ps qs : List Piece}
    (marks : qs.map Piece.mark? = ps.map Piece.mark?) : lastMark qs = lastMark ps := by
  have last : ∀ rs : List Piece, lastMark rs = ((rs.map Piece.mark?).getLast?).join := fun rs => by
    rw [lastMark, List.getLast?_map]
    cases rs.getLast? <;> rfl
  rw [last, last, marks]

/-- No two neighbours are runs of the same mark. -/
def Parted (ps : List Piece) : Prop :=
  (ps.map Piece.mark?).IsChain fun a b => a.isSome → a ≠ b

/-- Pieces in normal form that emphasis may be made of. -/
structure NormalPieces (ps : List Piece) : Prop where
  each : ∀ p ∈ ps, p.Normal
  parted : Parted ps

namespace NormalPieces

variable {ps qs : List Piece}

theorem left (h : NormalPieces (ps ++ qs)) : NormalPieces ps where
  each p hp := h.each p (List.mem_append_left _ hp)
  parted := by
    have := h.parted
    rw [Parted, List.map_append] at this
    exact this.left_of_append

theorem right (h : NormalPieces (ps ++ qs)) : NormalPieces qs where
  each p hp := h.each p (List.mem_append_right _ hp)
  parted := by
    have := h.parted
    rw [Parted, List.map_append] at this
    exact this.right_of_append

theorem tail {p : Piece} (h : NormalPieces (p :: ps)) : NormalPieces ps := by
  rw [← List.singleton_append] at h
  exact h.right

theorem take (h : NormalPieces ps) (n : Nat) : NormalPieces (ps.take n) := by
  rw [← List.take_append_drop n ps] at h
  exact h.left

theorem drop (h : NormalPieces ps) (n : Nat) : NormalPieces (ps.drop n) := by
  rw [← List.take_append_drop n ps] at h
  exact h.right

/-- A change of pieces that keeps the marks. -/
theorem of_marks (h : NormalPieces ps) (each : ∀ p ∈ qs, p.Normal)
    (marks : qs.map Piece.mark? = ps.map Piece.mark?) : NormalPieces qs :=
  ⟨each, by rw [Parted, marks]; exact h.parted⟩

/-- A piece after others, if it does not go on with a run at their end. -/
theorem push {p : Piece} (h : NormalPieces ps) (hp : p.Normal)
    (ne : p.mark?.isSome → lastMark ps ≠ p.mark?) : NormalPieces (ps ++ [p]) where
  each q hq := by
    rcases List.mem_append.mp hq with hq | hq
    · exact h.each q hq
    · exact List.mem_singleton.mp hq ▸ hp
  parted := by
    rw [Parted, List.map_append, List.isChain_append]
    refine ⟨h.parted, .singleton _, fun a ha b hb => ?_⟩
    simp only [List.getLast?_map, Option.mem_def, Option.map_eq_some_iff] at ha
    obtain ⟨q, hq, rfl⟩ := ha
    simp only [List.map_cons, List.map_nil, List.head?_cons, Option.mem_def,
      Option.some.injEq] at hb
    subst hb
    intro some e
    exact ne (e ▸ some) (by simpa [lastMark, hq] using e)

/-- An inline keeps apart what is on its sides. -/
theorem around {i : Inline} (h : NormalPieces ps) (hi : i.Normal) (h' : NormalPieces qs) :
    NormalPieces (ps ++ .inline i :: qs) where
  each p hp := by
    rcases List.mem_append.mp hp with hp | hp
    · exact h.each p hp
    · rcases List.mem_cons.mp hp with rfl | hp
      · exact hi
      · exact h'.each p hp
  parted := by
    rw [Parted, List.map_append, List.map_cons, List.isChain_append]
    refine ⟨h.parted, List.isChain_cons.mpr ⟨by simp [Piece.mark?], h'.parted⟩, ?_⟩
    intro a _ b hb
    simp only [List.head?_cons, Option.mem_def, Option.some.injEq] at hb
    subst hb
    intro some e
    simp [e, Piece.mark?] at some

theorem nil : NormalPieces [] :=
  ⟨nofun, .nil⟩

end NormalPieces

/-! ## Emphasis -/

namespace Emphasis

/-- What is left of a run has its mark. -/
theorem remaining_normal {d : Delim} {ps qs : List Piece} (used : Nat)
    (h : NormalPieces (ps ++ .delim d :: qs)) : NormalPieces (ps ++ remaining d used) ∧
      NormalPieces (remaining d used ++ qs) := by
  have before : NormalPieces (ps ++ [.delim d]) := by
    rw [← List.singleton_append, ← List.append_assoc] at h
    exact h.left
  have after : NormalPieces (.delim d :: qs) := h.right
  have positive := (after.each _ (List.mem_cons_self ..)).2
  unfold remaining
  split
  · rw [List.append_nil, List.nil_append]
    exact ⟨before.left, after.tail⟩
  · have rest : Piece.Normal (.delim { d with count := d.count - used }) :=
      ⟨by dsimp only; omega, positive⟩
    refine ⟨before.of_marks ?_ ?_, after.of_marks ?_ rfl⟩
    · intro p hp
      rcases List.mem_append.mp hp with hp | hp
      · exact before.left.each p hp
      · exact List.mem_singleton.mp hp ▸ rest
    · simp [Piece.mark?]
    · intro p hp
      rcases List.mem_cons.mp hp with rfl | hp
      · exact rest
      · exact after.each p (List.mem_cons_of_mem _ hp)

/-- A run and one that it opens have something between them. -/
theorem between_ne_nil {opener closer : Delim} {ps above qs : List Piece}
    (h : NormalPieces (ps ++ .delim opener :: (above ++ .delim closer :: qs)))
    (opens : opener.opens closer) : above ≠ [] := by
  rintro rfl
  have chain := h.right.parted
  simp only [Parted, List.nil_append, List.map_cons, List.isChain_cons_cons, Piece.mark?] at chain
  simp only [Delim.opens, Bool.and_eq_true, beq_iff_eq] at opens
  exact chain.1 rfl (congrArg some opens.1.1.1)

theorem wrap_normal (used : Nat) {is : List Inline} (filled : is ≠ [])
    (h : Apart is ∧ NormalList is) : (wrap used is).Normal := by
  unfold wrap
  split <;> exact ⟨filled, h⟩

theorem resolve_normal (left right : List Piece) (h : NormalPieces (left.reverse ++ right)) :
    NormalPieces (resolve left right) := by
  fun_induction resolve left right with
  | case1 left => simpa using h
  | case2 left p more hc ih => exact ih (by simpa using h)
  | case3 left p more closer hc ho ih => exact ih (by simpa using h)
  | case4 left p more closer hc above opener below ho _ used between ih =>
    obtain ⟨rfl, opens⟩ := findOpener_eq_some ho
    obtain ⟨rfl, -⟩ := closer?_eq_some hc
    -- The row is `below opener above closer more`; the emphasis takes the place of `above`.
    have row : NormalPieces (below.reverse ++ .delim opener :: (above.reverse ++
        .delim closer :: more)) := by simpa using h
    have inside : NormalPieces above.reverse := row.right.tail.left
    have filled : above.reverse ≠ [] := between_ne_nil row opens
    have closing : NormalPieces ((below.reverse ++ .delim opener :: above.reverse) ++
        .delim closer :: more) := by simpa using h
    have wrapped := wrap_normal used (finish_ne_nil filled) (finish_normal inside.each)
    have single : (remaining opener used).reverse = remaining opener used := by
      unfold remaining
      split <;> rfl
    apply ih
    simpa [single, between] using
      (remaining_normal used row).1.around wrapped (remaining_normal used closing).2

end Emphasis

end MarkdownForest
