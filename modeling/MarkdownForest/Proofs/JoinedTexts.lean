/-
# MarkdownForest.Proofs.JoinedTexts -- rows of pieces that differ in how texts are cut

Text that comes in several parts may be several pieces, or be added to the text
before it.  `Joined ms ps` says that the row `ms` is the row `ps` with some runs
of neighbouring texts put together.

Texts take no part in the matching of delimiters, so two such rows stay so while
emphasis is resolved in both (`Joined.resolve`): the opener that is found in one
is found in the other (`Joined.findOpener`).  In the end they stand for the same
inlines (`Joined.finish_eq`).
-/
import MarkdownForest.Proofs.Matching

namespace MarkdownForest

set_option autoImplicit false

open Emphasis

/-! ## Search for an opener -/

namespace Emphasis

section Openers

variable {closer d : Delim} {left above below : List Piece}

theorem findOpener_eq_none_iff :
    findOpener closer left = none ↔ ∀ d, .delim d ∈ left → d.opens closer = false := by
  induction left with
  | nil => simp [findOpener]
  | cons p left ih =>
    cases p with
    | delim e =>
      rw [findOpener_delim]
      by_cases opens : e.opens closer
      · simp only [opens, if_true, reduceCtorEq, false_iff]
        intro none
        exact absurd opens (by simp [none e List.mem_cons_self])
      · simp [opens, ih]
    | inline _ | bracket _ _ => simp [findOpener, ih]

/-- The first run that opens for `closer` is `d`, with `above` in front of it. -/
def Nearest (closer : Delim) (left above : List Piece) (d : Delim) (below : List Piece) : Prop :=
  left = above ++ .delim d :: below ∧ d.opens closer ∧
    ∀ e, .delim e ∈ above → e.opens closer = false

/-- Behind a piece that does not open, the nearest opener is the same. -/
theorem nearest_cons_iff {p : Piece} (silent : ∀ e, p = .delim e → e.opens closer = false) :
    Nearest closer (p :: left) above d below ↔
      ∃ a, above = p :: a ∧ Nearest closer left a d below := by
  constructor
  · rintro ⟨row, opens, clear⟩
    cases above with
    | nil =>
      obtain ⟨rfl, rfl⟩ := List.cons.inj row
      exact absurd opens (by simp [silent d rfl])
    | cons q above =>
      obtain ⟨rfl, rfl⟩ := List.cons.inj row
      exact ⟨above, rfl, rfl, opens, fun e he => clear e (List.mem_cons_of_mem _ he)⟩
  · rintro ⟨a, rfl, rfl, opens, clear⟩
    refine ⟨rfl, opens, fun e he => ?_⟩
    rcases List.mem_cons.mp he with here | he
    · exact silent e here.symm
    · exact clear e he

/-- The opener that is found is the nearest. -/
theorem findOpener_eq_some_iff :
    findOpener closer left = some (above, d, below) ↔ Nearest closer left above d below := by
  induction left generalizing above with
  | nil => simp [findOpener, Nearest]
  | cons p left ih =>
    -- What is found further on has `p` above it.
    have further (silent : ∀ e, p = .delim e → e.opens closer = false) :
        (findOpener closer left).map (fun found => (p :: found.1, found.2)) =
          some (above, d, below) ↔ Nearest closer (p :: left) above d below := by
      rw [nearest_cons_iff silent, Option.map_eq_some_iff]
      constructor
      · rintro ⟨⟨a, e, r⟩, there, same⟩
        cases same
        exact ⟨a, rfl, ih.mp there⟩
      · rintro ⟨a, rfl, there⟩
        exact ⟨_, ih.mpr there, rfl⟩
    cases p with
    | delim e =>
      rw [findOpener_delim]
      by_cases here : e.opens closer
      · rw [if_pos here]
        constructor
        · intro found
          cases found
          exact ⟨rfl, here, fun f hf => absurd hf List.not_mem_nil⟩
        · rintro ⟨row, opens, clear⟩
          cases above with
          | nil =>
            cases row
            rfl
          | cons q above =>
            obtain ⟨rfl, rfl⟩ := List.cons.inj row
            exact absurd here (by simp [clear e List.mem_cons_self])
      · rw [if_neg here]
        exact further fun f same => by
          cases same
          simpa using here
    | inline _ => exact further fun _ same => by cases same
    | bracket _ _ => exact further fun _ same => by cases same

end Openers

end Emphasis

/-! ## Rows with texts joined -/

/-- `Joined ms ps` -- the row `ms` is `ps` with some runs of neighbouring texts as one text each. -/
inductive Joined : List Piece → List Piece → Prop
  | nil : Joined [] []
  | cons {ms ps : List Piece} (p : Piece) (rest : Joined ms ps) : Joined (p :: ms) (p :: ps)
  | texts {ms ps : List Piece} {ts : List (List Char)} (filled : ts ≠ []) (rest : Joined ms ps) :
      Joined (.inline (.text ts.flatten) :: ms) (textPieces ts ++ ps)

namespace Joined

section Rows

variable {ms ns ps qs pre more : List Piece} {p : Piece} {s t : List Char}

protected theorem refl (ps : List Piece) : Joined ps ps := by
  induction ps with
  | nil => exact .nil
  | cons p ps ih => exact .cons p ih

protected theorem append (h : Joined ms ps) (h' : Joined ns qs) :
    Joined (ms ++ ns) (ps ++ qs) := by
  induction h with
  | nil => exact h'
  | cons p _ ih => exact .cons p ih
  | texts filled _ ih =>
    rw [List.append_assoc]
    exact .texts filled ih

theorem push (h : Joined ms ps) (p : Piece) : Joined (ms ++ [p]) (ps ++ [p]) :=
  h.append (.refl [p])

/-- Parts of the joined row come from parts of the other one. -/
theorem parts (h : Joined (ms ++ ns) qs) :
    ∃ qs₁ qs₂, qs = qs₁ ++ qs₂ ∧ Joined ms qs₁ ∧ Joined ns qs₂ := by
  induction ms generalizing qs with
  | nil => exact ⟨[], qs, rfl, .nil, h⟩
  | cons p ms ih =>
    cases h with
    | cons p rest =>
      obtain ⟨qs₁, qs₂, rfl, first, second⟩ := ih rest
      exact ⟨p :: qs₁, qs₂, rfl, .cons p first, second⟩
    | @texts _ _ ts filled rest =>
      obtain ⟨qs₁, qs₂, rfl, first, second⟩ := ih rest
      exact ⟨textPieces ts ++ qs₁, qs₂, by rw [List.append_assoc], .texts filled first, second⟩

theorem text_eq (h : Joined [.inline (.text s)] ps) :
    ∃ ts, ts ≠ [] ∧ ts.flatten = s ∧ ps = textPieces ts := by
  cases h with
  | cons _ rest =>
    cases rest
    exact ⟨[s], List.cons_ne_nil _ _, by simp, rfl⟩
  | @texts _ _ ts filled rest =>
    cases rest
    exact ⟨ts, filled, rfl, List.append_nil _⟩

/-- Text may be added to the text at the end instead of being pushed behind it. -/
theorem extend (h : Joined (ms ++ [.inline (.text s)]) ps) (t : List Char) :
    Joined (ms ++ [.inline (.text (s ++ t))]) (ps ++ [.inline (.text t)]) := by
  obtain ⟨ps₁, ps₂, rfl, first, last⟩ := h.parts
  obtain ⟨ts, filled, rfl, rfl⟩ := last.text_eq
  have longer : Joined [.inline (.text (ts ++ [t]).flatten)] (textPieces (ts ++ [t]) ++ []) :=
    .texts (List.append_ne_nil_of_left_ne_nil filled _) .nil
  rw [List.append_assoc]
  refine first.append ?_
  simpa [textPieces] using longer

/-- A piece that is no text stands in both rows, with what is before and after it joined. -/
theorem around (notText : ∀ t, p ≠ .inline (.text t)) (h : Joined ms (pre ++ p :: more)) :
    ∃ pre' more', ms = pre' ++ p :: more' ∧ Joined pre' pre ∧ Joined more' more := by
  generalize row : pre ++ p :: more = ps at h
  induction h generalizing pre with
  | nil => simp at row
  | @cons ms ps q rest ih =>
    cases pre with
    | nil =>
      obtain ⟨rfl, rfl⟩ := List.cons.inj row
      exact ⟨[], ms, rfl, .nil, rest⟩
    | cons r pre =>
      obtain ⟨rfl, further⟩ := List.cons.inj row
      obtain ⟨pre', more', rfl, before, after⟩ := ih further
      exact ⟨r :: pre', more', rfl, .cons r before, after⟩
  | @texts ms ps ts filled rest ih =>
    rcases List.append_eq_append_iff.mp row with ⟨us, inside, e⟩ | ⟨us, e, further⟩
    · cases us with
      | nil =>
        obtain rfl : pre = textPieces ts := by simpa using inside.symm
        obtain rfl : p :: more = ps := e
        obtain ⟨pre', more', rfl, before, after⟩ := @ih [] rfl
        exact ⟨.inline (.text ts.flatten) :: pre', more', rfl, by
          simpa using Joined.texts filled before, after⟩
      | cons u us =>
        obtain ⟨rfl, -⟩ := List.cons.inj e
        have inTexts : p ∈ textPieces ts := by
          rw [inside]
          simp
        obtain ⟨t, -, same⟩ := List.mem_map.mp inTexts
        exact absurd same.symm (notText t)
    · subst e
      obtain ⟨pre', more', rfl, before, after⟩ := ih further.symm
      exact ⟨.inline (.text ts.flatten) :: pre', more', rfl, .texts filled before, after⟩

/-- Rows that are joined hold the same pieces that are no text. -/
theorem mem_iff (notText : ∀ t, p ≠ .inline (.text t)) (h : Joined ms ps) : p ∈ ms ↔ p ∈ ps := by
  induction h with
  | nil => rfl
  | cons q _ ih => rw [List.mem_cons, List.mem_cons, ih]
  | @texts ms ps ts _ _ ih =>
    have outside : p ∉ textPieces ts := fun inside => by
      obtain ⟨t, -, same⟩ := List.mem_map.mp inside
      exact notText t same.symm
    simp [outside, notText, ih]

/-- What changes no text may be done on both rows. -/
theorem map {f : Piece → Piece} (texts : ∀ t, f (.inline (.text t)) = .inline (.text t))
    (h : Joined ms ps) : Joined (ms.map f) (ps.map f) := by
  induction h with
  | nil => exact .nil
  | cons p _ ih => exact .cons (f p) ih
  | @texts ms ps ts filled _ ih =>
    have same : (textPieces ts).map f = textPieces ts := by simp [textPieces, texts]
    rw [List.map_cons, List.map_append, texts, same]
    exact .texts filled ih

end Rows

/-! ## What joined rows stand for -/

theorem joinInline_texts (s t : List Char) (is : List Inline) :
    joinInline (.text s) (joinInline (.text t) is) = joinInline (.text (s ++ t)) is := by
  rcases is with - | ⟨i, is⟩
  · rfl
  · cases i <;> simp [joinInline]

theorem finish_texts {ts : List (List Char)} (filled : ts ≠ []) (ps : List Piece) :
    finish (textPieces ts ++ ps) = joinInline (.text ts.flatten) (finish ps) := by
  induction ts with
  | nil => exact absurd rfl filled
  | cons t ts ih =>
    have step : finish (textPieces (t :: ts) ++ ps) =
        joinInline (.text t) (finish (textPieces ts ++ ps)) := rfl
    rw [step]
    cases ts with
    | nil =>
      rw [List.flatten_singleton]
      rfl
    | cons u us => rw [ih (List.cons_ne_nil u us), joinInline_texts, ← List.flatten_cons]

/-- Joined rows stand for the same inlines. -/
theorem finish_eq {ms ps : List Piece} (h : Joined ms ps) : finish ms = finish ps := by
  induction h with
  | nil => rfl
  | @cons ms ps p _ ih =>
    have step (ps : List Piece) : finish (p :: ps) = joinInline p.toInline (finish ps) := rfl
    rw [step, step, ih]
  | @texts ms ps ts filled _ ih =>
    rw [finish_texts filled, ← ih]
    rfl

/-! ## Emphasis in joined rows -/

section Emphasis

variable {lm lp ms ps above below : List Piece} {closer d : Delim}

theorem delim_notText (d : Delim) : ∀ t, Piece.delim d ≠ .inline (.text t) := nofun

theorem findOpener_none (h : Joined lm.reverse lp.reverse) (none : findOpener closer lm = none) :
    findOpener closer lp = Option.none := by
  rw [findOpener_eq_none_iff] at none ⊢
  intro d hd
  have there := (h.mem_iff (delim_notText d)).mpr (List.mem_reverse.mpr hd)
  exact none d (List.mem_reverse.mp there)

/-- The nearest opener of one row of pieces gone through is that of the other. -/
theorem findOpener (h : Joined lm.reverse lp.reverse)
    (found : findOpener closer lm = some (above, d, below)) :
    ∃ above' below', Emphasis.findOpener closer lp = some (above', d, below') ∧
      Joined above.reverse above'.reverse ∧ Joined below.reverse below'.reverse := by
  obtain ⟨rfl, opens, clear⟩ := findOpener_eq_some_iff.mp found
  have row : (above ++ .delim d :: below).reverse = below.reverse ++ .delim d :: above.reverse := by
    simp
  rw [row] at h
  obtain ⟨qs₁, qs₂, e, belows, rest⟩ := h.parts
  cases rest with
  | @cons _ as _ aboves =>
    obtain rfl : lp = as.reverse ++ .delim d :: qs₁.reverse := by
      rw [← List.reverse_reverse lp, e]
      simp
    refine ⟨as.reverse, qs₁.reverse, findOpener_eq_some_iff.mpr ⟨rfl, opens, fun e he => ?_⟩, by
      simpa using aboves, by simpa using belows⟩
    have there := (aboves.mem_iff (delim_notText e)).mpr (List.mem_reverse.mp he)
    exact clear e (List.mem_reverse.mp there)

/-- Rows that are joined stay so while emphasis is resolved. -/
theorem resolve (hl : Joined lm.reverse lp.reverse) (hr : Joined ms ps) :
    Joined (resolve lm ms) (resolve lp ps) := by
  fun_induction Emphasis.resolve lm ms generalizing lp ps with
  | case1 lm =>
    cases hr
    rwa [resolve_nil]
  | case2 lm p more pass ih =>
    cases hr with
    | cons _ rest =>
      rw [resolve_pass (by simp [pass])]
      exact ih (by simpa using hl.push p) rest
    | @texts _ ps ts filled rest =>
      rw [resolve_silent (silent_textPieces ts)]
      refine ih ?_ rest
      have group : Joined [.inline (.text ts.flatten)] (textPieces ts ++ []) := .texts filled .nil
      simpa using hl.append group
  | case3 lm p more closer hc none ih =>
    cases hr with
    | cons _ rest =>
      have unopened : ∀ d, closer? p = some d → Emphasis.findOpener d lp = Option.none := by
        intro d hd
        cases hc.symm.trans hd
        exact hl.findOpener_none none
      rw [resolve_pass unopened]
      exact ih (by simpa using hl.push p) rest
    | texts => cases hc
  | case4 lm p more closer hc above opener below found _ used =>
    rename_i between ih
    cases hr with
    | cons _ rest =>
      obtain ⟨above', below', found', aboves, belows⟩ := hl.findOpener found
      rw [resolve_match hc found']
      refine ih ?_ ((Joined.refl (remaining closer used)).append rest)
      have around := (belows.append (.refl (remaining opener used).reverse)).push (.inline between)
      simpa [between, used, aboves.finish_eq] using around
    | texts => cases hc

end Emphasis

end Joined

end MarkdownForest
