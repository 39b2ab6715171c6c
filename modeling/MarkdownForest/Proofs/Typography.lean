/-
# MarkdownForest.Proofs.Typography -- typographic punctuation is a normal form

Typographic punctuation may be put into a text by an index that goes over its
characters.  It moves by one, over three dots, or over a whole run of hyphens, and
it looks back at the plain text for the character before a quote
(`SmartLoop.pushes`).  What is pushed is a character of the text or a mark put for
others (`Push`), so marks that were in the text already are told from those that
were put there.

* `SmartLoop.turn_eq`: what one turn of the loop takes from the text and pushes;
  from it `SmartLoop.pushes_eq`, by induction on what is left of the text: the loop
  comes to an end with what `smarten` makes, and with the straight forms put back
  that is the text;
* `Typographic` is the normal form: no straight quote is left, no three dots and no
  two hyphens in a row.  Texts in it are left as they are (`smarten_eq_self_iff`),
  and `smarten` gives nothing else (`typographic_smarten`), since what is left over
  of a run of dots or hyphens has no more of them behind it.
-/
import MarkdownForest.Proofs.ByteSlices
import MarkdownForest.Proofs.NormalDocuments
import MarkdownForest.Proofs.Rounds
import MarkdownForest.Text.Smart
import Mathlib.Data.List.Infix

namespace MarkdownForest.Text

set_option autoImplicit false

/-! ## What is put -/

/-- The marks of typographic punctuation. -/
inductive Mark where
  | leftDouble | rightDouble | leftSingle | rightSingle | ellipsis | enDash | emDash
  deriving DecidableEq, Repr

def Mark.char : Mark → Char
  | leftDouble => leftDoubleQuote
  | rightDouble => rightDoubleQuote
  | leftSingle => leftSingleQuote
  | rightSingle => rightSingleQuote
  | ellipsis => Text.ellipsis
  | enDash => Text.enDash
  | emDash => Text.emDash

/-- The double quote that opens or closes. -/
def Mark.double (opening : Bool) : Mark :=
  if opening then leftDouble else rightDouble

def Mark.single (opening : Bool) : Mark :=
  if opening then leftSingle else rightSingle

/-- A character of the text, or a mark that is put for characters of the text. -/
inductive Push where
  | copied (c : Char)
  | mark (m : Mark)
  deriving DecidableEq, Repr

namespace Push

def char : Push → Char
  | copied c => c
  | mark m => m.char

/-- The characters of the text that it stands for: for a mark, its straight form. -/
def straight : Push → List Char
  | copied c => [c]
  | mark m => straightenChar m.char

end Push

/-! ## The loop -/

namespace SmartLoop

/-- What is pushed for a run of hyphens. -/
def dashes : Nat → List Push
  | n + 3 => .mark .emDash :: dashes n
  | 2 => [.mark .enDash]
  | 1 => [.copied '-']
  | 0 => []

/-- Whether a quote at the index opens. -/
def opening? (text : List Char) (i : Nat) : Option Bool :=
  if i = 0 then some true else (text[i - 1]?).map fun before => opensQuote (some before)

/-- What is pushed at the index, and where the index goes. -/
def turn (text : List Char) (i : Nat) : Option (List Push × Nat) := do
  let c ← text[i]?
  let opening ← opening? text i
  if c = '\x22' then
    return ([.mark (.double opening)], i + 1)
  else if c = '\x27' then
    return ([.mark (.single opening)], i + 1)
  else if c = '.' ∧ text[i + 1]? = some '.' ∧ text[i + 2]? = some '.' then
    return ([.mark .ellipsis], i + 3)
  else if c = '-' then
    let run := ((text.drop i).takeWhile (· == '-')).length
    return (dashes run, i + run)
  else
    return ([.copied c], i + 1)

/-- One round: the loop is over when the index is at the end, or when something goes wrong. -/
def round (text : List Char) :
    List Push × Nat → Part (Option (List Push) ⊕ List Push × Nat)
  | (out, i) =>
    if i < text.length then
      match turn text i with
      | none => .some (.inl none)
      | some (more, next) => .some (.inr (out ++ more, next))
    else .some (.inl (some out))

/-- What is pushed for a text; `none` if something went wrong. -/
def pushes (text : List Char) : Part (Option (List Push)) :=
  Loop.run (round text) ([], 0)

end SmartLoop

/-! ## One character after the other -/

/-- What is put for one character by itself: for a straight quote, a curly one. -/
def curly (before : Option Char) (c : Char) : Char :=
  if c = '\x22' then (if opensQuote before then leftDoubleQuote else rightDoubleQuote)
  else if c = '\x27' then (if opensQuote before then leftSingleQuote else rightSingleQuote)
  else c

section Characters

variable {before : Option Char} {c : Char} {s u : List Char}

theorem curly_double (before : Option Char) :
    curly before '\x22' = (Mark.double (opensQuote before)).char := by
  cases opens : opensQuote before <;> simp [curly, opens, Mark.double, Mark.char]

theorem curly_single (before : Option Char) :
    curly before '\x27' = (Mark.single (opensQuote before)).char := by
  cases opens : opensQuote before <;> simp [curly, opens, Mark.single, Mark.char]

theorem curly_of_plain (double : c ≠ '\x22') (single : c ≠ '\x27') : curly before c = c := by
  rw [curly, if_neg double, if_neg single]

/-- A curly quote is none of the characters that are looked for. -/
theorem curly_eq (plain : c = '\x22' ∨ c = '\x27' ∨ c = '.' ∨ c = '-') {d : Char}
    (h : curly before d = c) : d = c ∧ c ≠ '\x22' ∧ c ≠ '\x27' := by
  have other : (leftDoubleQuote ≠ c ∧ rightDoubleQuote ≠ c) ∧ leftSingleQuote ≠ c ∧
      rightSingleQuote ≠ c := by rcases plain with rfl | rfl | rfl | rfl <;> decide
  unfold curly at h
  split_ifs at h with double _ single
  · exact absurd h other.1.1
  · exact absurd h other.1.2
  · exact absurd h other.2.1
  · exact absurd h other.2.2
  · exact h ▸ ⟨rfl, double, single⟩

/-- A character that begins no run is put by itself, and a quote becomes a curly one. -/
theorem smartenAfter_cons (dots : c = '.' → ¬ ['.', '.'] <+: s)
    (hyphens : c = '-' → ¬ ['-'] <+: s) :
    smartenAfter before (c :: s) = curly before c :: smartenAfter (some c) s := by
  rw [smartenAfter, curly]
  · rintro t rfl rfl
    exact dots rfl (by simp)
  · rintro t rfl rfl
    exact hyphens rfl (by simp)
  · rintro t rfl rfl
    exact hyphens rfl (by simp)

/-- A dot or a hyphen stands for itself, and begins no run. -/
theorem smartenAfter_eq_cons (plain : c = '.' ∨ c = '-') (h : smartenAfter before s = c :: u) :
    ∃ t, s = c :: t ∧ u = smartenAfter (some c) t ∧ (c = '.' → ¬ ['.', '.'] <+: t) ∧
      (c = '-' → ¬ ['-'] <+: t) := by
  unfold smartenAfter at h
  split at h
  · cases h
  · rcases plain with rfl | rfl <;> cases h
  · rcases plain with rfl | rfl <;> cases h
  · rcases plain with rfl | rfl <;> cases h
  · rename_i d t dots _ hyphens
    obtain ⟨here, rfl⟩ := List.cons.inj h
    obtain ⟨rfl, -⟩ := curly_eq (.inr (.inr plain)) here
    refine ⟨t, rfl, rfl, ?_, ?_⟩
    · rintro rfl ⟨v, rfl⟩
      exact dots v rfl rfl
    · rintro rfl ⟨v, rfl⟩
      exact hyphens v rfl rfl

end Characters

/-! ## Normal form -/

/-- Text without straight quotes, three dots in a row, or two hyphens. -/
structure Typographic (s : List Char) : Prop where
  double : '\x22' ∉ s
  single : '\x27' ∉ s
  dots : ¬ ['.', '.', '.'] <:+: s
  hyphens : ¬ ['-', '-'] <:+: s

section NormalForm

variable {before : Option Char} {c : Char} {s : List Char}

theorem Typographic.tail (h : Typographic (c :: s)) : Typographic s where
  double := fun hs => h.double (List.mem_cons_of_mem c hs)
  single := fun hs => h.single (List.mem_cons_of_mem c hs)
  dots := fun hs => h.dots (List.infix_cons hs)
  hyphens := fun hs => h.hyphens (List.infix_cons hs)

/-- Text in normal form stays as it is, whatever it follows. -/
theorem smartenAfter_eq_self (h : Typographic s) (before : Option Char) :
    smartenAfter before s = s := by
  induction s generalizing before with
  | nil => rfl
  | cons c s ih =>
    rw [smartenAfter_cons, ih h.tail, curly_of_plain]
    · rintro rfl
      exact h.double (List.mem_cons_self ..)
    · rintro rfl
      exact h.single (List.mem_cons_self ..)
    · rintro rfl ⟨t, rfl⟩
      exact h.dots ⟨[], t, rfl⟩
    · rintro rfl ⟨t, rfl⟩
      exact h.hyphens ⟨[], t, rfl⟩

/-- A straight quote becomes a curly one wherever it stands. -/
theorem not_mem_smartenAfter (quote : c = '\x22' ∨ c = '\x27') (before : Option Char)
    (s : List Char) : c ∉ smartenAfter before s := by
  fun_induction smartenAfter before s with
  | case1 => simp
  | case2 _ s ih | case3 _ s ih | case4 _ s _ ih =>
    rw [List.mem_cons, not_or]
    exact ⟨by rcases quote with rfl | rfl <;> decide, ih⟩
  | case5 before d s _ _ _ ih =>
    rw [List.mem_cons, not_or]
    refine ⟨fun e => ?_, ih⟩
    obtain ⟨-, double, single⟩ := curly_eq (quote.imp_right .inl) e.symm
    exact quote.elim double single

/-- What stands behind any place of the result was made of an end of the text. -/
theorem eq_smartenAfter_of_suffix {u : List Char} (before : Option Char) (s : List Char)
    (h : u <:+ smartenAfter before s) : ∃ before t, u = smartenAfter before t := by
  fun_induction smartenAfter before s with
  | case1 before => exact ⟨before, [], List.eq_nil_of_suffix_nil h⟩
  | case2 before s ih =>
    rcases List.suffix_cons_iff.mp h with rfl | behind
    · exact ⟨before, '.' :: '.' :: '.' :: s, by rw [smartenAfter]⟩
    · exact ih behind
  | case3 before s ih =>
    rcases List.suffix_cons_iff.mp h with rfl | behind
    · exact ⟨before, '-' :: '-' :: '-' :: s, by rw [smartenAfter]⟩
    · exact ih behind
  | case4 before s next ih =>
    rcases List.suffix_cons_iff.mp h with rfl | behind
    · exact ⟨before, '-' :: '-' :: s, by rw [smartenAfter]; exact next⟩
    · exact ih behind
  | case5 before d s dots pair hyphens ih =>
    rcases List.suffix_cons_iff.mp h with rfl | behind
    · exact ⟨before, d :: s, by rw [smartenAfter] <;> assumption⟩
    · exact ih behind

/-- What is left over of a run of dots has fewer than two more behind it, and a hyphen that is left
over has none. -/
theorem typographic_smartenAfter (before : Option Char) (s : List Char) :
    Typographic (smartenAfter before s) where
  double := not_mem_smartenAfter (.inl rfl) before s
  single := not_mem_smartenAfter (.inr rfl) before s
  dots h := by
    obtain ⟨u, ⟨v, rfl⟩, behind⟩ := List.infix_iff_prefix_suffix.mp h
    obtain ⟨before, t, e⟩ := eq_smartenAfter_of_suffix before s behind
    obtain ⟨t, rfl, e, alone, -⟩ := smartenAfter_eq_cons (.inl rfl) e.symm
    obtain ⟨t, rfl, e, -⟩ := smartenAfter_eq_cons (.inl rfl) e.symm
    obtain ⟨t, rfl, -⟩ := smartenAfter_eq_cons (.inl rfl) e.symm
    exact alone rfl (by simp)
  hyphens h := by
    obtain ⟨u, ⟨v, rfl⟩, behind⟩ := List.infix_iff_prefix_suffix.mp h
    obtain ⟨before, t, e⟩ := eq_smartenAfter_of_suffix before s behind
    obtain ⟨t, rfl, e, -, alone⟩ := smartenAfter_eq_cons (.inr rfl) e.symm
    obtain ⟨t, rfl, -⟩ := smartenAfter_eq_cons (.inr rfl) e.symm
    exact alone rfl (by simp)

theorem typographic_smarten (s : List Char) : Typographic (smarten s) :=
  typographic_smartenAfter none s

/-- The texts that are left as they are. -/
theorem smarten_eq_self_iff : smarten s = s ↔ Typographic s :=
  ⟨fun h => h ▸ typographic_smarten s, fun h => smartenAfter_eq_self h none⟩

end NormalForm

/-! ## In step with `smarten` -/

namespace SmartLoop

/-- What a turn takes from a text and what it pushes for it: the rest becomes what it becomes
behind what was taken. -/
structure Turned (before : Option Char) (text taken rest : List Char) (more : List Push) :
    Prop where
  tiles : text = taken ++ rest
  filled : taken ≠ []
  chars : smartenAfter before text = more.map Push.char ++ smartenAfter taken.getLast? rest
  straight : more.flatMap Push.straight = taken

section Turns

variable {before : Option Char} {c : Char} {pre s rest : List Char}

/-- A run of hyphens is cut three by three, from its start. -/
theorem smartenAfter_hyphens (before : Option Char) (n : Nat) (next : ¬ ['-'] <+: rest) :
    smartenAfter before (List.replicate n '-' ++ rest) =
      (dashes n).map Push.char ++ smartenAfter (if n = 0 then before else some '-') rest := by
  induction n using dashes.induct generalizing before with
  | case1 n ih => simp [List.replicate_succ, smartenAfter, dashes, ih, Push.char, Mark.char]
  | case2 =>
    have apart : ∀ t, rest = '-' :: t → False := fun t e => next ⟨t, e.symm⟩
    simpa [List.replicate_succ, dashes, Push.char, Mark.char] using smartenAfter.eq_4 _ _ apart
  | case3 =>
    exact (smartenAfter_cons (by simp) fun _ => next).trans
      (by rw [curly_of_plain (by decide) (by decide)]; rfl)
  | case4 => simp [dashes]

theorem straight_dashes (n : Nat) : (dashes n).flatMap Push.straight = List.replicate n '-' := by
  induction n using dashes.induct with
  | case1 n ih =>
    have dash : Push.straight (.mark .emDash) = ['-', '-', '-'] := by decide
    rw [dashes, List.flatMap_cons, ih, dash]
    simp [List.replicate_succ]
  | case2 | case3 | case4 => decide

theorem opening?_eq (pre rest : List Char) :
    opening? (pre ++ rest) pre.length = some (opensQuote pre.getLast?) := by
  rcases List.eq_nil_or_concat pre with rfl | ⟨pre, d, rfl⟩
  · rfl
  · simp [opening?]

theorem dots_iff : s[0]? = some '.' ∧ s[1]? = some '.' ↔ ['.', '.'] <+: s := by
  match s with
  | [] | [_] => simp
  | a :: b :: s => simp [eq_comm]

/-- A quote is taken by itself, and looks back at the plain text. -/
theorem Turned.quote (quote : c = '\x22' ∨ c = '\x27') {m : Mark} (char : curly before c = m.char)
    (straight : straightenChar m.char = [c]) : Turned before (c :: s) [c] s [.mark m] where
  tiles := rfl
  filled := List.cons_ne_nil c []
  chars := by
    rw [smartenAfter_cons, char]
    · rfl
    all_goals rcases quote with rfl | rfl <;> simp
  straight := by simpa [Push.straight] using straight

theorem Turned.dots (s : List Char) :
    Turned before ('.' :: '.' :: '.' :: s) ['.', '.', '.'] s [.mark .ellipsis] where
  tiles := rfl
  filled := List.cons_ne_nil '.' _
  chars := by simp [smartenAfter, Push.char, Mark.char]
  straight := by decide

/-- A run of hyphens is taken as a whole. -/
theorem Turned.hyphens (s : List Char) :
    let run := ('-' :: s).takeWhile (· == '-')
    Turned before ('-' :: s) run (('-' :: s).dropWhile (· == '-')) (dashes run.length) := by
  intro run
  have hyphens : run = List.replicate run.length '-' := takeWhile_eq_replicate '-' _
  have tiles : '-' :: s = run ++ ('-' :: s).dropWhile (· == '-') :=
    List.takeWhile_append_dropWhile.symm
  have filled : run ≠ [] := by simp [run]
  have last : run.getLast? = some '-' := by
    rw [hyphens, List.getLast?_replicate, if_neg (by simpa using filled)]
  have next : ¬ ['-'] <+: ('-' :: s).dropWhile (· == '-') := by
    rintro ⟨t, e⟩
    exact Lexeme.head?_dropWhile_ne '-' ('-' :: s) (by rw [← e]; rfl)
  have cut := smartenAfter_hyphens before run.length next
  rw [← hyphens, ← tiles, if_neg (by simpa using filled), ← last] at cut
  exact ⟨tiles, filled, cut, by rw [straight_dashes, ← hyphens]⟩

theorem Turned.copied (plain : c ≠ '\x22' ∧ c ≠ '\x27')
    (dots : c = '.' → ¬ ['.', '.'] <+: s) (hyphen : c ≠ '-') :
    Turned before (c :: s) [c] s [.copied c] where
  tiles := rfl
  filled := List.cons_ne_nil c []
  chars := by
    rw [smartenAfter_cons dots (absurd · hyphen), curly_of_plain plain.1 plain.2]
    rfl
  straight := by simp [Push.straight]

/-- Each turn takes characters from the text, and leaves the index behind them. -/
theorem turn_eq (pre : List Char) (c : Char) (s : List Char) :
    ∃ taken rest more, turn (pre ++ c :: s) pre.length = some (more, pre.length + taken.length) ∧
      Turned pre.getLast? (c :: s) taken rest more := by
  have ahead (k : Nat) : (pre ++ c :: s)[pre.length + k]? = (c :: s)[k]? := by
    simp [List.getElem?_append_right]
  have here : (pre ++ c :: s)[pre.length]? = some c := ahead 0
  have left : (pre ++ c :: s).drop pre.length = c :: s := List.drop_left
  have following : ((c :: s)[1]? = some '.' ∧ (c :: s)[2]? = some '.') = (['.', '.'] <+: s) :=
    propext dots_iff
  simp only [turn, here, opening?_eq, ahead, left, following, Option.bind_eq_bind, Option.bind_some]
  split_ifs with double single dots hyphen
  · subst double
    exact ⟨_, s, _, rfl, .quote (.inl rfl) (curly_double _) (by cases opensQuote _ <;> decide)⟩
  · subst single
    exact ⟨_, s, _, rfl, .quote (.inr rfl) (curly_single _) (by cases opensQuote _ <;> decide)⟩
  · obtain ⟨rfl, rest, rfl⟩ := dots
    exact ⟨_, rest, _, rfl, .dots rest⟩
  · subst hyphen
    exact ⟨_, _, _, rfl, .hyphens s⟩
  · exact ⟨_, s, _, rfl, .copied ⟨double, single⟩ (fun e d => dots ⟨e, d⟩) hyphen⟩

/-- From behind `pre` the loop comes to an end, with what the rest of the text becomes there. -/
theorem run_eq (out : List Push) (pre rest : List Char) :
    ∃ more, Loop.run (round (pre ++ rest)) (out, pre.length) = .some (some (out ++ more)) ∧
      more.map Push.char = smartenAfter pre.getLast? rest ∧ more.flatMap Push.straight = rest := by
  induction h : rest.length using Nat.strong_induction_on generalizing out pre rest with
  | _ n ih =>
    cases rest with
    | nil =>
      refine ⟨[], ?_, rfl, rfl⟩
      apply Loop.run_over
      rw [round, if_neg (by simp), List.append_nil]
    | cons c s =>
      obtain ⟨taken, rest, here, turned, step⟩ := turn_eq pre c s
      have shorter : rest.length < n := by
        have := List.length_pos_iff.mpr step.filled
        rw [← h, step.tiles, List.length_append]
        omega
      obtain ⟨more, run, chars, straight⟩ := ih _ shorter (out ++ here) (pre ++ taken) rest rfl
      refine ⟨here ++ more, ?_, ?_, ?_⟩
      · have next : round (pre ++ c :: s) (out, pre.length) =
            .some (.inr (out ++ here, pre.length + taken.length)) := by
          rw [round, if_pos (by simp), turned]
        rw [Loop.run_next next, ← List.append_assoc, ← run, step.tiles, List.append_assoc,
          List.length_append]
      · rw [List.map_append, chars, step.chars, List.getLast?_append_of_ne_nil _ step.filled]
      · rw [List.flatMap_append, step.straight, straight, step.tiles]

/-- The loop comes to an end, with what `smarten` makes of the text; and its marks stand for what
they took the place of. -/
theorem pushes_eq (text : List Char) :
    ∃ more, pushes text = .some (some more) ∧ more.map Push.char = smarten text ∧
      more.flatMap Push.straight = text :=
  run_eq [] [] text

end Turns

end SmartLoop

/-! ## Typographic punctuation as a whole -/

/-- Typographic punctuation gives texts in normal form and leaves these as they are; and where each
mark that was put, and no other, is made straight again, the text is what it was. -/
theorem smarten_normal (text : List Char) :
    Typographic (smarten text) ∧ smarten (smarten text) = smarten text ∧
      ∃ pushes, SmartLoop.pushes text = .some (some pushes) ∧
        pushes.map Push.char = smarten text ∧ pushes.flatMap Push.straight = text :=
  ⟨typographic_smarten text, smarten_eq_self_iff.mpr (typographic_smarten text),
    SmartLoop.pushes_eq text⟩

theorem straightenChar_of_plain {c : Char} (plain : ∀ m : Mark, c ≠ m.char) :
    straightenChar c = [c] := by
  have double := not_or.mpr ⟨plain .leftDouble, plain .rightDouble⟩
  have single := not_or.mpr ⟨plain .leftSingle, plain .rightSingle⟩
  have others := And.intro (plain .ellipsis) (And.intro (plain .enDash) (plain .emDash))
  simp only [Mark.char] at double single others
  rw [straightenChar, if_neg double, if_neg single, if_neg others.1, if_neg others.2.1,
    if_neg others.2.2]

/-- In what was made of a text without typographic marks all of them can be made straight. -/
theorem straighten_smarten {text : List Char} (plain : ∀ m : Mark, m.char ∉ text) :
    straighten (smarten text) = text := by
  obtain ⟨pushes, -, chars, straight⟩ := SmartLoop.pushes_eq text
  rw [straighten, ← chars, List.flatMap_map]
  conv => rhs; rw [← straight]
  refine List.flatMap_congr fun p hp => ?_
  cases p with
  | mark m => rfl
  | copied c =>
    have inside : c ∈ text := straight ▸ List.mem_flatMap.mpr ⟨_, hp, by simp [Push.straight]⟩
    exact straightenChar_of_plain fun m e => plain m (e ▸ inside)

end MarkdownForest.Text

namespace MarkdownForest

open Text

/-- The texts of a document that was read with smart punctuation are in normal form. -/
theorem Content.Normal.typographic {literal : String} (h : (text literal).Normal true) :
    Typographic literal.toList := by
  obtain ⟨-, s, -, e⟩ := h
  rw [e, if_pos rfl]
  exact typographic_smarten s

end MarkdownForest
