/-
# MarkdownForest.Proofs.Undoing -- matching delimiters loses nothing

A match puts an emphasis in the place of some marks and of what lies between
them.  Writing the marks back undoes it: what is left of the row, with every
emphasis that was made opened up again, is the row there was (`Row`).  Which
emphasis was made, and with which mark, cannot be read off the pieces, so a row
carries its past along (`Made`).

Nor is anything left to do.  A closer is passed by when nothing before it opens
it, and no later match puts an opener there: what is left of a run opens nothing
that the run did not open (`Settled`).

Both are invariants of `resolve`; `process_undone` puts them together.
-/
import MarkdownForest.Proofs.EmphasisLoop

namespace MarkdownForest

set_option autoImplicit false

/-! ## Rows with their past -/

/-- What the source of a row consists of: the marks of its runs, and all other pieces. -/
inductive Symbol where
  | mark (c : Char)
  | piece (p : Piece)

def Piece.symbols : Piece → List Symbol
  | .delim d => List.replicate d.count (.mark d.mark)
  | p => [.piece p]

/-- A piece with its past: it was there before, or is an emphasis made with a mark. -/
inductive Made where
  | piece (p : Piece)
  | emph (mark : Char) (inner : List Made)
  | strong (mark : Char) (inner : List Made)

namespace Made

mutual
/-- The piece without its past. -/
def toPiece : Made → Piece
  | piece p => p
  | emph _ inner => .inline (.emph (finish (toPieces inner)))
  | strong _ inner => .inline (.strong (finish (toPieces inner)))

def toPieces : List Made → List Piece
  | [] => []
  | m :: ms => toPiece m :: toPieces ms
end

mutual
/-- What the piece was made from: the marks of an emphasis are written back. -/
def source : Made → List Symbol
  | piece p => p.symbols
  | emph c inner => .mark c :: sources inner ++ [.mark c]
  | strong c inner => .mark c :: .mark c :: sources inner ++ [.mark c, .mark c]

def sources : List Made → List Symbol
  | [] => []
  | m :: ms => source m ++ sources ms
end

mutual
/-- The marks that emphasis was made with. -/
def choices : Made → List Char
  | piece _ => []
  | emph c inner | strong c inner => c :: choicesOf inner

def choicesOf : List Made → List Char
  | [] => []
  | m :: ms => choices m ++ choicesOf ms
end

theorem toPieces_eq_map (ms : List Made) : toPieces ms = ms.map toPiece := by
  induction ms with
  | nil => rfl
  | cons m ms ih => rw [toPieces, ih, List.map_cons]

theorem sources_eq_flatMap (ms : List Made) : sources ms = ms.flatMap source := by
  induction ms with
  | nil => rfl
  | cons m ms ih => rw [sources, ih, List.flatMap_cons]

theorem choicesOf_eq_flatMap (ms : List Made) : choicesOf ms = ms.flatMap choices := by
  induction ms with
  | nil => rfl
  | cons m ms ih => rw [choicesOf, ih, List.flatMap_cons]

theorem choicesOf_append (ms ns : List Made) :
    choicesOf (ms ++ ns) = choicesOf ms ++ choicesOf ns := by
  simp only [choicesOf_eq_flatMap, List.flatMap_append]

end Made

open Made (toPiece toPieces source sources choices choicesOf)

/-- The row of pieces is made from the source, with marks that are allowed. -/
def Row (allowed : Char → Prop) (ps : List Piece) (ss : List Symbol) : Prop :=
  ∃ ms : List Made, toPieces ms = ps ∧ sources ms = ss ∧ ∀ c ∈ choicesOf ms, allowed c

namespace Row

variable {allowed : Char → Prop} {ps qs : List Piece} {ss ts : List Symbol} {d : Delim}

theorem nil : Row allowed [] [] :=
  ⟨[], rfl, rfl, by simp [choicesOf]⟩

theorem single (p : Piece) : Row allowed [p] p.symbols :=
  ⟨[.piece p], rfl, by simp [sources, source], by simp [choicesOf, choices]⟩

theorem append (h : Row allowed ps ss) (k : Row allowed qs ts) :
    Row allowed (ps ++ qs) (ss ++ ts) := by
  obtain ⟨ms, rfl, rfl, hms⟩ := h
  obtain ⟨ns, rfl, rfl, hns⟩ := k
  refine ⟨ms ++ ns, ?_, ?_, ?_⟩
  · simp [Made.toPieces_eq_map]
  · simp [Made.sources_eq_flatMap]
  · intro c hc
    rw [Made.choicesOf_append] at hc
    exact (List.mem_append.mp hc).elim (hms c) (hns c)

/-- A row of pieces that were all there before. -/
theorem whole (ps : List Piece) : Row allowed ps (ps.flatMap Piece.symbols) := by
  induction ps with
  | nil => exact nil
  | cons p ps ih => exact (single p).append ih

/-- A row in two parts is made from two sources. -/
theorem split (h : Row allowed (ps ++ qs) ss) :
    ∃ us ts, ss = us ++ ts ∧ Row allowed ps us ∧ Row allowed qs ts := by
  obtain ⟨ms, hms, rfl, hc⟩ := h
  rw [Made.toPieces_eq_map] at hms
  obtain ⟨ls, rs, rfl, hl, hr⟩ := List.map_eq_append_iff.mp hms
  rw [Made.choicesOf_append] at hc
  refine ⟨sources ls, sources rs, ?_, ⟨ls, ?_, rfl, ?_⟩, ⟨rs, ?_, rfl, ?_⟩⟩
  · simp [Made.sources_eq_flatMap]
  · rw [Made.toPieces_eq_map, hl]
  · exact fun c h => hc c (List.mem_append_left _ h)
  · rw [Made.toPieces_eq_map, hr]
  · exact fun c h => hc c (List.mem_append_right _ h)

/-- A run was there before. -/
theorem run (h : Row allowed [.delim d] ss) : ss = List.replicate d.count (.mark d.mark) := by
  obtain ⟨ms, hms, rfl, -⟩ := h
  rw [Made.toPieces_eq_map] at hms
  obtain ⟨m, rfl, hm⟩ := List.map_eq_singleton_iff.mp hms
  cases m with
  | piece p =>
    rw [toPiece] at hm
    subst hm
    simp [sources, source, Piece.symbols]
  | emph | strong => cases hm

/-- An emphasis is made from what lies inside and its marks. -/
theorem wrap {c : Char} {used : Nat} (hc : allowed c) (hu : used = 1 ∨ used = 2)
    (h : Row allowed ps ss) :
    Row allowed [.inline (Emphasis.wrap used (finish ps))]
      (List.replicate used (.mark c) ++ ss ++ List.replicate used (.mark c)) := by
  obtain ⟨ms, rfl, rfl, hms⟩ := h
  rcases hu with rfl | rfl
  · exact ⟨[.emph c ms], rfl, by simp [sources, source],
      by simpa [choicesOf, choices, hc] using hms⟩
  · exact ⟨[.strong c ms], rfl, by simp [sources, source],
      by simpa [choicesOf, choices, hc] using hms⟩

end Row

namespace Emphasis

section Resolve

variable {allowed : Char → Prop} {ss : List Symbol} {d opener closer : Delim} {used : Nat}
  {above below : List Piece} {p : Piece}

theorem remaining_symbols (d : Delim) (used : Nat) :
    (remaining d used).flatMap Piece.symbols = List.replicate (d.count - used) (.mark d.mark) := by
  unfold remaining
  split
  · rw [show d.count - used = 0 by omega]
    rfl
  · simp [Piece.symbols]

theorem marksUsed_eq (opener closer : Delim) :
    marksUsed opener closer = 1 ∨ marksUsed opener closer = 2 := by
  unfold marksUsed
  split
  · exact .inr rfl
  · exact .inl rfl

/-- A match takes nothing from the source of the row gone through and of the closer. -/
theorem match_row (hc : closer.closes) (ho : opener.opens closer) (hm : allowed closer.mark)
    (h : Row allowed (below.reverse ++ ([.delim opener] ++ above.reverse)) ss) :
    let used := marksUsed opener closer
    ∃ ts, ss ++ List.replicate closer.count (.mark closer.mark) =
        ts ++ (remaining closer used).flatMap Piece.symbols ∧
      Row allowed (below.reverse ++ (remaining opener used ++
        [.inline (wrap used (finish above.reverse))])) ts := by
  intro used
  obtain ⟨-, openLeft, closeLeft⟩ := marksUsed_le ho hc
  have same : opener.mark = closer.mark := by
    simp only [Delim.opens, Bool.and_eq_true, beq_iff_eq] at ho
    exact ho.1.1.1
  obtain ⟨us, vs, rfl, under, h⟩ := h.split
  obtain ⟨ws, ts, rfl, run, inside⟩ := h.split
  refine ⟨_, ?_, under.append ((Row.whole _).append
    (inside.wrap hm (marksUsed_eq opener closer)))⟩
  have opening : List.replicate opener.count (Symbol.mark closer.mark) =
      List.replicate (opener.count - used) (.mark closer.mark) ++
        List.replicate used (.mark closer.mark) := by
    rw [List.replicate_append_replicate, Nat.sub_add_cancel openLeft]
  have closing : List.replicate closer.count (Symbol.mark closer.mark) =
      List.replicate used (.mark closer.mark) ++
        List.replicate (closer.count - used) (.mark closer.mark) := by
    rw [List.replicate_append_replicate, Nat.add_sub_cancel' closeLeft]
  rw [run.run, remaining_symbols, remaining_symbols, same, opening, closing]
  simp only [List.append_assoc, used]

theorem remaining_mark {used : Nat} (h : .delim d ∈ remaining closer used) :
    d.mark = closer.mark := by
  unfold remaining at h
  split at h
  · cases h
  · cases List.mem_singleton.mp h
    rfl

/-- Matches keep what the row is made from. -/
theorem resolve_row (left right : List Piece) (runs : ∀ d, .delim d ∈ right → allowed d.mark) :
    ∀ ss, Row allowed left.reverse ss →
      Row allowed (resolve left right) (ss ++ right.flatMap Piece.symbols) := by
  fun_induction resolve left right with
  | case1 left =>
    intro ss h
    simpa using h
  | case2 left p more hc ih =>
    intro ss h
    have passed : Row allowed (p :: left).reverse (ss ++ p.symbols) := by
      simpa using h.append (Row.single p)
    simpa using ih (fun d hd => runs d (List.mem_cons_of_mem _ hd)) _ passed
  | case3 left p more closer hc ho ih =>
    intro ss h
    have passed : Row allowed (p :: left).reverse (ss ++ p.symbols) := by
      simpa using h.append (Row.single p)
    simpa using ih (fun d hd => runs d (List.mem_cons_of_mem _ hd)) _ passed
  | case4 left p more closer hc above opener below ho _ used between ih =>
    intro ss h
    obtain ⟨rfl, closes⟩ := closer?_eq_some hc
    obtain ⟨rfl, opens⟩ := findOpener_eq_some ho
    have later : ∀ d, .delim d ∈ remaining closer used ++ more → allowed d.mark := by
      intro d hd
      rcases List.mem_append.mp hd with hd | hd
      · rw [remaining_mark hd]
        exact runs closer List.mem_cons_self
      · exact runs d (List.mem_cons_of_mem _ hd)
    have row : Row allowed (below.reverse ++ ([.delim opener] ++ above.reverse)) ss := by
      simpa using h
    obtain ⟨ts, same, made⟩ := match_row closes opens (runs closer List.mem_cons_self) row
    have whole := ih later ts (by simpa [EmphasisLoop.reverse_remaining, between] using made)
    have sources : ss ++ (Piece.delim closer :: more).flatMap Piece.symbols =
        ts ++ (remaining closer used ++ more).flatMap Piece.symbols := by
      rw [List.flatMap_cons, Piece.symbols, ← List.append_assoc, same, List.append_assoc,
        ← List.flatMap_append]
    rw [sources]
    exact whole

end Resolve

/-! ## What is left to match -/

section Settled

variable {p : Piece} {left above below : List Piece} {d opener closer : Delim} {used : Nat}

/-- The first piece does not open what the second may close. -/
def Unmatched (p q : Piece) : Prop :=
  ∀ o c, p = .delim o → q = .delim c → c.closes → ¬ o.opens c

theorem not_opens_of_findOpener (h : findOpener closer left = none) :
    ∀ d, .delim d ∈ left → ¬ d.opens closer := by
  induction left with
  | nil => simp
  | cons p left ih =>
    intro d hd opens
    rcases List.mem_cons.mp hd with rfl | hd
    · rw [findOpener_delim, if_pos opens] at h
      cases h
    · have none : findOpener closer left = none := by
        cases p with
        | delim e =>
          rw [findOpener_delim] at h
          split at h
          · cases h
          · exact Option.map_eq_none_iff.mp h
        | inline | bracket => exact Option.map_eq_none_iff.mp h
      exact ih none d hd opens

/-- What is left of a run closes nothing that the run did not close. -/
theorem Unmatched.recount {count : Nat} (h : Unmatched p (.delim d)) (le : count ≤ d.count) :
    Unmatched p (.delim { d with count }) := by
  rintro o c rfl ⟨⟩ closes
  refine h o d rfl rfl ?_
  simp only [Delim.closes, Bool.and_eq_true, decide_eq_true_eq] at closes ⊢
  exact ⟨closes.1, by omega⟩

theorem Unmatched.inline (p : Piece) (i : Inline) : Unmatched p (.inline i) := by
  rintro o c - ⟨⟩

/-- The row gone through, the last piece first, has nothing to match: no piece opens a later one. -/
def Settled (left : List Piece) : Prop :=
  left.Pairwise fun q p => Unmatched p q

theorem Settled.pass (h : Settled left)
    (none : ∀ d, closer? p = some d → findOpener d left = none) : Settled (p :: left) := by
  refine List.pairwise_cons.mpr ⟨?_, h⟩
  rintro q hq o c rfl rfl closes
  exact not_opens_of_findOpener (none c (if_pos closes)) o hq

theorem Settled.match (h : Settled (above ++ .delim opener :: below)) (i : Inline) :
    Settled (.inline i :: (remaining opener used ++ below)) := by
  have under := List.pairwise_cons.mp (List.pairwise_append.mp h).2.1
  refine List.pairwise_cons.mpr ⟨fun p _ => Unmatched.inline p i, ?_⟩
  unfold remaining
  split
  · exact under.2
  · exact List.pairwise_cons.mpr ⟨fun p hp => (under.1 p hp).recount (Nat.sub_le _ _), under.2⟩

theorem resolve_settled (left right : List Piece) (h : Settled left) :
    (resolve left right).Pairwise Unmatched := by
  fun_induction resolve left right with
  | case1 left => exact List.pairwise_reverse.mpr h
  | case2 left p more hc ih => exact ih (h.pass (by simp [hc]))
  | case3 left p more closer hc ho ih =>
    refine ih (h.pass ?_)
    intro d hd
    cases hc.symm.trans hd
    exact ho
  | case4 left p more closer hc above opener below ho _ used between ih =>
    obtain ⟨rfl, -⟩ := findOpener_eq_some ho
    exact ih (h.match between)

end Settled

/-- Matching delimiters among any pieces, from any of them on, comes to an end with every access in
bounds, and leaves the pieces before `bottom` alone.  The others become a row that, with every
emphasis made opened up again between the marks chosen for it and every run spelled out, is the row
there was, mark for mark and piece for piece; the marks chosen are those of runs among these pieces.
And no run left there opens a later one that may close. -/
theorem process_undone (bottom : Nat) (ps : List Piece) :
    ∃ made : List Made,
      EmphasisLoop.process bottom ps = .some (some (ps.take bottom ++ made.map Made.toPiece)) ∧
      process bottom ps = ps.take bottom ++ made.map Made.toPiece ∧
      made.flatMap Made.source = (ps.drop bottom).flatMap Piece.symbols ∧
      (∀ c ∈ made.flatMap Made.choices, ∃ d, .delim d ∈ ps.drop bottom ∧ d.mark = c) ∧
      (made.map Made.toPiece).Pairwise Unmatched := by
  have row : Row (fun c => ∃ d, .delim d ∈ ps.drop bottom ∧ d.mark = c)
      (resolve [] (ps.drop bottom)) ([] ++ (ps.drop bottom).flatMap Piece.symbols) :=
    resolve_row [] (ps.drop bottom) (fun d hd => ⟨d, hd, rfl⟩) [] Row.nil
  have settled := resolve_settled [] (ps.drop bottom) List.Pairwise.nil
  obtain ⟨made, pieces, sources, choices⟩ := row
  rw [Made.toPieces_eq_map] at pieces
  rw [Made.sources_eq_flatMap] at sources
  rw [Made.choicesOf_eq_flatMap] at choices
  refine ⟨made, ?_, ?_, sources, choices, ?_⟩
  · rw [EmphasisLoop.process_eq, process, pieces]
  · rw [process, pieces]
  · rw [pieces]
    exact settled

end Emphasis

end MarkdownForest
