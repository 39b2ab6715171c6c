/-
# MarkdownForest.Proofs.EscapedText -- what escaped text is read as

A written text has a backslash before every character that could begin markup.
So a scan of it meets only plain characters, spaces, escapes, and exclamation
marks before something other than a bracket; the pieces it makes are the text
again, cut at the escapes, and neighbouring texts become one in the end.

* `Escapes`: a text with a backslash before all that needs one, and before other
  punctuation or not;
* `Spells`: a stretch of source that a scan turns into a given text;
* `spells_of_escapes`: escaped text spells the text it was written from, whatever
  characters it has, in front of a break or the end;
* `Prose`: texts with breaks between them;
* `inlineTrees_prose`: prose reads back as itself.
-/
import MarkdownForest.CommonMark.Writer
import MarkdownForest.Inline.Build
import MarkdownForest.Proofs.Scanning
import MarkdownForest.Proofs.TextLines
import Mathlib.Data.List.Basic

namespace MarkdownForest

set_option autoImplicit false

open Text CommonMark Emphasis Scan

/-! ## Escapes -/

namespace CommonMark

/-- What needs no escape stands for itself. -/
theorem escapeInline_append {k s : List Char}
    (plain : ∀ c ∈ k, isSpecial c = false ∧ c ≠ '!') :
    escapeInline (k ++ s) = k ++ escapeInline s := by
  induction k with
  | nil => rfl
  | cons c k ih =>
    obtain ⟨special, bang⟩ := plain c List.mem_cons_self
    have rest := ih fun d hd => plain d (List.mem_cons_of_mem _ hd)
    simp [escapeInline, special, bang, rest]

/-- Escaped text begins as the text does, or with a backslash. -/
theorem head?_escapeInline (s : List Char) :
    (escapeInline s).head? = s.head? ∨ (escapeInline s).head? = some '\\' := by
  cases s with
  | nil => exact .inl rfl
  | cons c s =>
    unfold escapeInline
    dsimp only
    split
    · exact .inr rfl
    · exact .inl rfl

/-- A class of characters that neither the text nor what comes after it begins with, nor an
escape, is not met after the text is escaped. -/
theorem escapeInline_stops {p : Char → Bool} {s r : List Char} (escape : p '\\' = false)
    (hs : s.head?.any p = false) (hr : r.head?.any p = false) :
    (escapeInline s ++ r).head?.any p = false := by
  rw [List.head?_append]
  rcases head?_escapeInline s with h | h
  · rw [h]
    cases hd : s.head? with
    | none => exact hr
    | some c => simpa [hd] using hs
  · rw [h]
    exact escape

/-- Escaping adds nothing but backslashes. -/
theorem mem_escapeInline {c : Char} {s : List Char} (h : c ∈ escapeInline s) :
    c = '\\' ∨ c ∈ s := by
  induction s with
  | nil => exact .inr h
  | cons d s ih =>
    unfold escapeInline at h
    dsimp only at h
    have further : c = d ∨ c ∈ escapeInline s → c = '\\' ∨ c ∈ d :: s := by
      rintro (rfl | later)
      · exact .inr List.mem_cons_self
      · exact (ih later).imp_right (List.mem_cons_of_mem _)
    split at h
    · rcases List.mem_cons.mp h with rfl | h
      · exact .inl rfl
      · exact further (List.mem_cons.mp h)
    · exact further (List.mem_cons.mp h)

/-- The last character stands behind its backslash. -/
theorem getLast?_escapeInline (s : List Char) : (escapeInline s).getLast? = s.getLast? := by
  induction s with
  | nil => rfl
  | cons c s ih =>
    unfold escapeInline
    dsimp only
    split
    · rw [List.getLast?_cons, List.getLast?_cons, List.getLast?_cons, ih]
      rfl
    · rw [List.getLast?_cons, List.getLast?_cons, ih]

/-- A plain character needs no escape. -/
theorem not_special_of_plain {c : Char} (h : Lexeme.isPlain c) : isSpecial c = false ∧ c ≠ '!' := by
  simp only [Lexeme.isPlain, Bool.not_eq_true', Bool.or_eq_false_iff, beq_eq_false_iff_ne] at h
  simp [isSpecial, h]

theorem isPlain_of_digit {c : Char} (hc : c.isDigit) : Lexeme.isPlain c := by
  have apart : ∀ m, m.isDigit = false → c ≠ m := fun m hm => ne_of_class hc hm
  simp [Lexeme.isPlain, apart '\\' (by decide), apart '\x60' (by decide), apart '*' (by decide),
    apart '_' (by decide), apart '[' (by decide), apart ']' (by decide), apart '!' (by decide),
    apart '<' (by decide), apart '\n' (by decide), apart ' ' (by decide)]

theorem isAsciiPunctuation_of_special {c : Char} (h : isSpecial c) : isAsciiPunctuation c := by
  simp only [isSpecial, Bool.or_eq_true, beq_iff_eq] at h
  rcases h with (((((rfl | rfl) | rfl) | rfl) | rfl) | rfl) | rfl <;> decide

theorem isAsciiPunctuation_of_escaped {c : Char} {last : Bool}
    (h : isSpecial c || (c == '!' && last)) : isAsciiPunctuation c := by
  rcases Bool.or_eq_true_iff.mp h with special | bang
  · exact isAsciiPunctuation_of_special special
  · obtain ⟨rfl, -⟩ : c = '!' ∧ last := by simpa using bang
    decide

theorem isAsciiPunctuation_of_opensLine {c : Char} (h : opensLine c) : isAsciiPunctuation c := by
  simp only [opensLine, Bool.or_eq_true, beq_iff_eq] at h
  rcases h with ((((rfl | rfl) | rfl) | rfl) | rfl) | rfl <;> decide

/-- What stands behind the number of an ordered item. -/
def endsNumber (c : Char) : Bool :=
  c == '.' || c == ')'

theorem isAsciiPunctuation_of_endsNumber {c : Char} (h : endsNumber c) : isAsciiPunctuation c := by
  simp only [endsNumber, Bool.or_eq_true, beq_iff_eq] at h
  rcases h with rfl | rfl <;> decide

/-- How a text is written at the start of a line: with an escape behind its number, with an escape
before its first character, or as inside a line. -/
inductive LineStart : List Char → List Char → Prop
  | number {c d : Char} {u t : List Char} (digits : ∀ e ∈ c :: u, e.isDigit)
      (delimiter : endsNumber d) :
      LineStart (c :: u ++ d :: t) (c :: u ++ '\\' :: d :: escapeInline t)
  | mark {c : Char} {u : List Char} (opens : opensLine c) :
      LineStart (c :: u) ('\\' :: c :: escapeInline u)
  | plain {s : List Char} (unmarked : s.head?.any opensLine = false)
      (unnumbered : s.head?.any Char.isDigit →
        (s.dropWhile Char.isDigit).head?.any endsNumber = false) : LineStart s (escapeInline s)

theorem escapeLineStart_cases (s : List Char) : LineStart s (escapeLineStart s) := by
  obtain ⟨k, t, rfl, hk, ht⟩ := exists_span Char.isDigit s
  obtain ⟨digits, after⟩ := span_append hk ht
  unfold escapeLineStart
  dsimp only
  rw [digits, after]
  split
  · rename_i number
    obtain ⟨filled, delimiter⟩ : k ≠ [] ∧ (t.head? = some '.' ∨ t.head? = some ')') := by
      simpa using number
    obtain ⟨c, u, rfl⟩ := List.exists_cons_of_ne_nil filled
    cases t with
    | nil => simp at delimiter
    | cons d t =>
      have hd : d = '.' ∨ d = ')' := by simpa using delimiter
      have stands : escapeInline (d :: t) = d :: escapeInline t := by
        rcases hd with rfl | rfl <;> rfl
      rw [stands]
      exact .number hk (by simpa [endsNumber] using hd)
  · rename_i number
    split
    · rename_i opens
      cases h : k ++ t with
      | nil => simp [h] at opens
      | cons c u =>
        have hc : opensLine c := by simpa [h] using opens
        have stands : escapeInline (c :: u) = c :: escapeInline u := by
          simp only [opensLine, Bool.or_eq_true, beq_iff_eq] at hc
          rcases hc with ((((rfl | rfl) | rfl) | rfl) | rfl) | rfl <;> rfl
        rw [stands]
        exact .mark hc
    · rename_i marks
      refine .plain (Bool.eq_false_iff.mpr marks) fun first => ?_
      have filled : k ≠ [] := by
        rintro rfl
        rw [List.nil_append, ht] at first
        cases first
      rw [after]
      cases t with
      | nil => rfl
      | cons d t => simpa [filled, endsNumber] using number

theorem mem_escapeLineStart {c : Char} {s : List Char} (h : c ∈ escapeLineStart s) :
    c = '\\' ∨ c ∈ s := by
  have start := escapeLineStart_cases s
  generalize escapeLineStart s = w at start h
  cases start with
  | @number e d u t digits delimiter =>
    rcases List.mem_append.mp h with h | h
    · exact .inr (List.mem_append_left _ h)
    · rcases List.mem_cons.mp h with rfl | h
      · exact .inl rfl
      · rcases List.mem_cons.mp h with rfl | h
        · exact .inr (by simp)
        · exact (mem_escapeInline h).imp_right fun h => by simp [h]
  | mark =>
    rcases List.mem_cons.mp h with rfl | h
    · exact .inl rfl
    · rcases List.mem_cons.mp h with rfl | h
      · exact .inr List.mem_cons_self
      · exact (mem_escapeInline h).imp_right (List.mem_cons_of_mem _)
  | plain => exact mem_escapeInline h

theorem getLast?_escapeLineStart (s : List Char) : (escapeLineStart s).getLast? = s.getLast? := by
  have start := escapeLineStart_cases s
  generalize escapeLineStart s = w at start ⊢
  cases start with
  | number => simp [List.getLast?_append, List.getLast?_cons, getLast?_escapeInline]
  | mark => simp [List.getLast?_cons, getLast?_escapeInline]
  | plain => exact getLast?_escapeInline s

/-! ## Backslashes in front of punctuation -/

/-- The source `w` is the text `s` with backslashes in front of some of its punctuation: of every
special character, and of an exclamation mark at the end. -/
inductive Escapes : List Char → List Char → Prop
  | nil : Escapes [] []
  | escape {c : Char} {w s : List Char} (punctuation : isAsciiPunctuation c)
      (more : Escapes w s) : Escapes ('\\' :: c :: w) (c :: s)
  | bare {c : Char} {w s : List Char} (special : isSpecial c = false) (bang : c = '!' → w ≠ [])
      (more : Escapes w s) : Escapes (c :: w) (c :: s)

section Escapes

variable {k s w : List Char}

theorem Escapes.ne_nil (h : Escapes w s) (filled : s ≠ []) : w ≠ [] := by
  cases h with
  | nil => exact filled
  | escape => exact List.cons_ne_nil _ _
  | bare => exact List.cons_ne_nil _ _

/-- Escaped text begins as the text does, or with a backslash. -/
theorem Escapes.head?_eq (h : Escapes w s) : w.head? = s.head? ∨ w.head? = some '\\' := by
  cases h with
  | nil => exact .inl rfl
  | escape => exact .inr rfl
  | bare => exact .inl rfl

/-- No bracket stands bare. -/
theorem Escapes.head?_ne (h : Escapes w s) : w.head? ≠ some '[' := by
  cases h with
  | nil => simp
  | escape => simp
  | @bare c _ _ special =>
    intro bracket
    rw [Option.some.inj bracket] at special
    exact absurd special (by decide)

/-- What needs no escape stands for itself in front of escaped text. -/
theorem Escapes.append (plain : ∀ c ∈ k, Lexeme.isPlain c) (h : Escapes w s) :
    Escapes (k ++ w) (k ++ s) := by
  induction k with
  | nil => exact h
  | cons c k ih =>
    obtain ⟨here, more⟩ := List.forall_mem_cons.mp plain
    obtain ⟨special, bang⟩ := not_special_of_plain here
    exact .bare special (fun e => absurd e bang) (ih more)

/-- What stands bare in escaped text is as it is in the text. -/
theorem Escapes.of_append (bare : ∀ c ∈ k, isSpecial c = false) (h : Escapes (k ++ w) s) :
    ∃ s', s = k ++ s' ∧ Escapes w s' := by
  induction k generalizing s with
  | nil => exact ⟨s, rfl, h⟩
  | cons c k ih =>
    obtain ⟨here, more⟩ := List.forall_mem_cons.mp bare
    generalize hu : (c :: k) ++ w = u at h
    cases h with
    | nil => cases hu
    | escape =>
      obtain ⟨rfl, -⟩ := List.cons.inj hu
      exact absurd here (by decide)
    | bare _ _ further =>
      obtain ⟨rfl, rfl⟩ := List.cons.inj hu
      obtain ⟨s', rfl, h⟩ := ih more further
      exact ⟨s', rfl, h⟩

theorem escapes_escapeInline (s : List Char) : Escapes (escapeInline s) s := by
  induction s with
  | nil => exact .nil
  | cons c s ih =>
    unfold escapeInline
    dsimp only
    split
    · rename_i escaped
      exact .escape (isAsciiPunctuation_of_escaped escaped) ih
    · rename_i bare
      obtain ⟨special, more⟩ : isSpecial c = false ∧ (c = '!' → s ≠ []) := by simpa using bare
      exact .bare special (fun bang => ih.ne_nil (more bang)) ih

theorem escapes_escapeLineStart (s : List Char) : Escapes (escapeLineStart s) s := by
  have start := escapeLineStart_cases s
  generalize escapeLineStart s = w at start ⊢
  cases start with
  | @number c d u t digits delimiter =>
    have plain : ∀ e ∈ c :: u, Lexeme.isPlain e := fun e he => isPlain_of_digit (digits e he)
    exact .append plain
      (.escape (isAsciiPunctuation_of_endsNumber delimiter) (escapes_escapeInline t))
  | mark opens => exact .escape (isAsciiPunctuation_of_opensLine opens) (escapes_escapeInline _)
  | plain => exact escapes_escapeInline s

end Escapes

end CommonMark

/-! ## Stretches that spell a text -/

namespace Scan

section Spells

variable {before : Option Char} {c : Char} {k k' r s u w w' : List Char}

/-- In front of `r` and after the character `before`, the source `w` becomes the text `k`, in pieces
of which none is empty. -/
def Spells (before : Option Char) (w r k : List Char) : Prop :=
  ∃ ts : List (List Char), ts.flatten = k ∧ [] ∉ ts ∧ Becomes before w r (textPieces ts)

theorem Spells.nil : Spells before [] r [] :=
  ⟨[], rfl, by simp, .nil⟩

theorem Spells.append (h : Spells before w (w' ++ r) k)
    (h' : Spells (w.getLast?.or before) w' r k') : Spells before (w ++ w') r (k ++ k') := by
  obtain ⟨ts, rfl, full, first⟩ := h
  obtain ⟨us, rfl, full', second⟩ := h'
  refine ⟨ts ++ us, List.flatten_append, ?_, ?_⟩
  · simp [full, full']
  · have pieces : textPieces (ts ++ us) = textPieces ts ++ textPieces us := List.map_append
    rw [pieces]
    exact first.append second

/-- One piece of text. -/
theorem Spells.of_piece (filled : k ≠ []) (h : Becomes before w r [.inline (.text k)]) :
    Spells before w r k := by
  refine ⟨[k], List.append_nil k, ?_, h⟩
  intro empty
  exact filled (List.mem_singleton.mp empty).symm

/-- A backslash before punctuation is gone. -/
theorem spells_escape (hc : isAsciiPunctuation c) : Spells before ['\\', c] r [c] := by
  have feed : c ≠ '\n' := ne_of_class hc (by decide)
  refine .of_piece (List.cons_ne_nil _ _) (becomes_lexeme (.escaped c) ?_ fun _ _ => rfl)
  simp [lex, Lexeme.ofBackslash, feed, hc]

/-- An exclamation mark is text unless it opens an image. -/
theorem spells_bang (hr : r.head? ≠ some '[') : Spells before ['!'] r ['!'] := by
  refine .of_piece (List.cons_ne_nil _ _) (becomes_lexeme .bang ?_ fun _ _ => rfl)
  have noImage : ∀ rest, r ≠ '[' :: rest := by
    rintro rest rfl
    exact hr rfl
  simp only [lex, List.nil_append]

/-- What may stand after a text in its paragraph: nothing, a line feed, or the backslash of a hard
break. -/
def Breaks (r : List Char) : Prop :=
  ∀ c ∈ r.head?, c = '\n' ∨ c = '\\'

theorem Breaks.none_of {p : Char → Bool} (h : Breaks r) (feed : p '\n' = false)
    (escape : p '\\' = false) : r.head?.any p = false := by
  cases hr : r.head? with
  | none => rfl
  | some c =>
    rcases h c (Option.mem_def.mpr hr) with rfl | rfl
    · exact feed
    · exact escape

/-- Where a class of characters without breaks ends, it ends in front of a break as well. -/
theorem Breaks.stops {p : Char → Bool} (h : Breaks r) (feed : p '\n' = false)
    (escape : p '\\' = false) (hw : w.head?.any p = false) : (w ++ r).head?.any p = false := by
  cases w with
  | nil => exact h.none_of feed escape
  | cons c w => exact hw

/-- A beginning of the source spells a beginning of the text, and what follows it is escaped. -/
def SpellsFirst (before : Option Char) (w s r : List Char) : Prop :=
  ∃ k k' w' s', w = k ++ w' ∧ s = k' ++ s' ∧ k ≠ [] ∧ Escapes w' s' ∧
    Spells before k (w' ++ r) k'

/-- The text does not end with a space, so no line feed comes after the spaces. -/
theorem spellsFirst_spaces (h : Escapes w s) (line : '\n' ∉ s)
    (last : (' ' :: s).getLast? ≠ some ' ') (hr : Breaks r) :
    SpellsFirst before (' ' :: w) (' ' :: s) r := by
  obtain ⟨k, w, rfl, hk, hw⟩ := exists_span (· == ' ') w
  obtain ⟨n, rfl⟩ : ∃ n, k = List.replicate n ' ' :=
    ⟨k.length, List.eq_replicate_iff.mpr ⟨rfl, fun d hd => by simpa using hk d hd⟩⟩
  obtain ⟨s, rfl, more⟩ := h.of_append fun d hd => by
    rw [List.eq_of_mem_replicate hd]
    decide
  have run : ∀ t, ' ' :: (List.replicate n ' ' ++ t) = List.replicate (n + 1) ' ' ++ t :=
    fun _ => rfl
  have filled : List.replicate (n + 1) ' ' ≠ [] := List.cons_ne_nil _ _
  have text : s ≠ [] := by
    rintro rfl
    rw [run, List.append_nil, List.getLast?_replicate] at last
    exact last rfl
  refine ⟨_, _, w, s, run w, run s, filled, more, .of_piece filled (becomes_spaces ?_ ?_)⟩
  · have stop := hr.stops (p := (· == ' ')) rfl rfl hw
    intro e
    simp [e] at stop
  · rw [List.head?_append_of_ne_nil _ (more.ne_nil text)]
    intro feed
    rcases more.head?_eq with e | e
    · exact line (List.mem_append_right _ (List.mem_of_head? (e.symm.trans feed)))
    · exact absurd (e.symm.trans feed) (by decide)

theorem spellsFirst_plain (hc : Lexeme.isPlain c) (h : Escapes w s) (hr : Breaks r) :
    SpellsFirst before (c :: w) (c :: s) r := by
  obtain ⟨k, w, rfl, hk, hw⟩ := exists_span Lexeme.isPlain w
  obtain ⟨s, rfl, more⟩ := h.of_append fun d hd => (not_special_of_plain (hk d hd)).1
  have filled : c :: k ≠ [] := List.cons_ne_nil _ _
  exact ⟨c :: k, c :: k, w, s, rfl, rfl, filled, more,
    .of_piece filled (becomes_plain hc hk (hr.stops rfl rfl hw))⟩

theorem spells_first (h : Escapes w s) (filled : w ≠ []) (before : Option Char) (line : '\n' ∉ s)
    (last : s.getLast? ≠ some ' ') (hr : Breaks r) : SpellsFirst before w s r := by
  cases h with
  | nil => exact absurd rfl filled
  | @escape c w s punctuation more =>
    exact ⟨['\\', c], [c], w, s, rfl, rfl, List.cons_ne_nil _ _, more, spells_escape punctuation⟩
  | @bare c w s special bang more =>
    by_cases isBang : c = '!'
    · subst isBang
      have stands : (w ++ r).head? ≠ some '[' := by
        rw [List.head?_append_of_ne_nil _ (bang rfl)]
        exact more.head?_ne
      exact ⟨['!'], ['!'], w, s, rfl, rfl, List.cons_ne_nil _ _, more, spells_bang stands⟩
    by_cases space : c = ' '
    · subst space
      exact spellsFirst_spaces more (fun h => line (List.mem_cons_of_mem _ h)) last hr
    have feed : c ≠ '\n' := fun e => line (e ▸ List.mem_cons_self)
    simp only [isSpecial, Bool.or_eq_false_iff, beq_eq_false_iff_ne] at special
    exact spellsFirst_plain (by simp [Lexeme.isPlain, special, isBang, space, feed]) more hr

/-- Escaped text on one line spells the text. -/
theorem spells_of_escapes (h : Escapes w s) (before : Option Char) (line : '\n' ∉ s)
    (last : s.getLast? ≠ some ' ') (hr : Breaks r) : Spells before w r s := by
  induction n : w.length using Nat.strong_induction_on generalizing before w s with
  | _ n ih =>
    subst n
    by_cases empty : w = []
    · subst empty
      cases h with
      | nil => exact .nil
    · obtain ⟨k, k', w, s, rfl, rfl, filled, more, step⟩ := spells_first h empty before line last hr
      have shorter : w.length < (k ++ w).length := by
        have := List.length_pos_iff.mpr filled
        rw [List.length_append]
        omega
      exact step.append <| ih w.length shorter more (k.getLast?.or before)
        (fun hs => line (List.mem_append_right _ hs))
        (fun hs => last (by rw [List.getLast?_append, hs]; rfl)) rfl

/-- So does a text that is escaped at the start of a line. -/
theorem spells_escapeLineStart (before : Option Char) (line : '\n' ∉ s)
    (last : s.getLast? ≠ some ' ') (hr : Breaks r) : Spells before (escapeLineStart s) r s :=
  spells_of_escapes (escapes_escapeLineStart s) before line last hr

end Spells

end Scan

/-! ## Prose -/

open Line (Trimmed)

theorem Line.Trimmed.ne_nil {s : List Char} (h : Trimmed s) : s ≠ [] := by
  obtain ⟨c, t, rfl, -⟩ := h.first
  exact List.cons_ne_nil _ _

theorem Line.Trimmed.isEmpty_eq_false {s : String} (h : Trimmed s.toList) : s.isEmpty = false := by
  rw [Bool.eq_false_iff]
  intro e
  exact h.ne_nil (String.toList_eq_nil_iff.mpr (String.isEmpty_iff.mp e))

theorem Line.Trimmed.getLast?_ne {s : List Char} (h : Trimmed s) : s.getLast? ≠ some ' ' := by
  obtain ⟨c, t, rfl, hc⟩ := h.last
  have : c ≠ ' ' := ne_of_class hc (by decide)
  simpa using this

/-- Texts without line feeds and without white space at their ends, with a break between any two. -/
inductive Prose : List Tree → Prop
  | last {s : String} (h : Trimmed s.toList) : Prose [.leaf (.text s)]
  | more {s : String} (h : Trimmed s.toList) {b : Content} (hb : b = .softbreak ∨ b = .linebreak)
      {ts : List Tree} (rest : Prose ts) : Prose (.leaf (.text s) :: .leaf b :: ts)

/-- The lines on which prose is written: every text begins one, and a hard break leaves a backslash
at the end of the line before it. -/
def proseLines : List Tree → List (List Char)
  | .node (.text s) _ :: .node .linebreak _ :: ts =>
    (escapeLineStart s.toList ++ ['\\']) :: proseLines ts
  | .node (.text s) _ :: .node _ _ :: ts => escapeLineStart s.toList :: proseLines ts
  | [.node (.text s) _] => [escapeLineStart s.toList]
  | _ => []

namespace Prose

variable {ts : List Tree}

theorem proseLines_ne_nil (h : Prose ts) : proseLines ts ≠ [] := by
  cases h with
  | last => exact List.cons_ne_nil _ _
  | more _ hb _ => rcases hb with rfl | rfl <;> exact List.cons_ne_nil _ _

theorem writeInlines_eq (h : Prose ts) (p : Spot) (start : p.lineStart) :
    (writeInlines false p ts).text = List.intercalate ['\n'] (proseLines ts) := by
  induction h generalizing p with
  | @last s h =>
    have filled := h.isEmpty_eq_false
    simp [writeInlines, Tree.leaf, writeInline, filled, escapeText, start, proseLines]
  | @more s h b hb ts rest ih =>
    have filled := h.isEmpty_eq_false
    have lines := rest.proseLines_ne_nil
    rcases hb with rfl | rfl
    · simp [writeInlines, Tree.leaf, writeInline, filled, escapeText, start, proseLines,
        List.intercalate_cons_of_ne_nil lines, Spot.after, ih]
    · simp [writeInlines, Tree.leaf, writeInline, filled, escapeText, start, proseLines,
        List.intercalate_cons_of_ne_nil lines, Spot.after, ih]

/-- The break `b` is written as `w`, which is scanned as the inline `i`. -/
structure BreaksAs (b : Content) (w : List Char) (i : Inline) : Prop where
  tree : i.toTree false = .leaf b
  notText : ∀ t, i ≠ .text t
  breaks : ∀ r, Breaks (w ++ r)
  becomes : ∀ before r, Becomes before w r [.inline i]
  lines : ∀ (s : String) (ts : List Tree), proseLines ts ≠ [] →
    List.intercalate ['\n'] (proseLines (.leaf (.text s) :: .leaf b :: ts)) =
      escapeLineStart s.toList ++ (w ++ List.intercalate ['\n'] (proseLines ts))

theorem exists_breaksAs {b : Content} (hb : b = .softbreak ∨ b = .linebreak) :
    ∃ w i, BreaksAs b w i := by
  rcases hb with rfl | rfl
  · refine ⟨['\n'], .softBreak, rfl, by simp, by simp [Breaks], fun before r => ?_,
      fun s ts h => ?_⟩
    · exact becomes_lexeme .softBreak rfl fun _ _ => rfl
    · simp [Tree.leaf, proseLines, List.intercalate_cons_of_ne_nil h]
  · refine ⟨['\\', '\n'], .lineBreak, rfl, by simp, by simp [Breaks], fun before r => ?_,
      fun s ts h => ?_⟩
    · exact becomes_lexeme .hardBreak rfl fun _ _ => rfl
    · simp [Tree.leaf, proseLines, List.intercalate_cons_of_ne_nil h]

/-- Prose is scanned as texts and breaks. -/
theorem becomes (h : Prose ts) (before : Option Char) : ∃ ps : List Piece,
    Becomes before (List.intercalate ['\n'] (proseLines ts)) [] ps ∧ (∀ p ∈ ps, Silent p) ∧
      Inline.toTrees false (finish ps) = ts := by
  induction h generalizing before with
  | @last s h =>
    obtain ⟨us, flat, full, pieces⟩ :=
      spells_escapeLineStart before h.oneLine h.getLast?_ne (r := []) (by simp [Breaks])
    refine ⟨textPieces us, ?_, silent_textPieces us, ?_⟩
    · rwa [Tree.leaf, proseLines, List.intercalate_singleton]
    · rw [finish_textPieces full, flat, texts, if_neg h.ne_nil]
      simp [Inline.toTrees, Inline.toTree]
  | @more s h b hb ts rest ih =>
    obtain ⟨w, i, hi⟩ := exists_breaksAs hb
    obtain ⟨us, flat, full, pieces⟩ := spells_escapeLineStart before h.oneLine h.getLast?_ne
      (hi.breaks (List.intercalate ['\n'] (proseLines ts)))
    obtain ⟨ps, more, silent, trees⟩ :=
      ih (w.getLast?.or ((escapeLineStart s.toList).getLast?.or before))
    have joined : finish (.inline i :: ps) = i :: finish ps := by
      change joinInline i (finish ps) = _
      unfold joinInline
      split
      · exact absurd rfl (hi.notText _)
      · rfl
    have apart : ∀ t more, finish (.inline i :: ps) ≠ .text t :: more := by
      intro t more e
      rw [joined, List.cons.injEq] at e
      exact hi.notText t e.1
    refine ⟨textPieces us ++ .inline i :: ps, ?_, ?_, ?_⟩
    · rw [hi.lines s ts rest.proseLines_ne_nil]
      exact pieces.append_last ((hi.becomes _ _).append_last more)
    · intro p hp
      rcases List.mem_append.mp hp with hp | hp
      · exact silent_textPieces us p hp
      · rcases List.mem_cons.mp hp with rfl | hp
        · exact silent_inline i
        · exact silent p hp
    · rw [finish_textPieces_append full apart, joined, flat, texts, if_neg h.ne_nil]
      simp [Inline.toTrees, hi.tree, trees]
      simp [Inline.toTree]

end Prose

theorem inlineText_text {s : String} (h : Trimmed s.toList) :
    inlineText [.leaf (.text s)] = escapeLineStart s.toList := by
  rw [inlineText, (Prose.last h).writeInlines_eq _ rfl]
  exact List.intercalate_singleton

/-- Escaped text is read as one text. -/
theorem inlineTrees_of_escapes {w s : List Char} (smart : Bool) (h : Escapes w s) (hs : Trimmed s) :
    inlineTrees smart w =
      [.leaf (.text (String.ofList (if smart then smarten s else s)))] := by
  obtain ⟨us, flat, full, pieces⟩ :=
    spells_of_escapes h none hs.oneLine hs.getLast?_ne (r := []) (by simp [Breaks])
  have one : parseInlines w = [.text s] := by
    rw [parseInlines_of_becomes pieces, resolve_all_silent (silent_textPieces us),
      List.reverse_nil, List.nil_append, finish_textPieces full, flat, texts, if_neg hs.ne_nil]
  rw [inlineTrees, one]
  simp [Inline.toTrees, Inline.toTree]

/-- Prose reads back as itself. -/
theorem inlineTrees_prose {ts : List Tree} (h : Prose ts) :
    inlineTrees false (inlineText ts) = ts := by
  obtain ⟨ps, pieces, silent, trees⟩ := h.becomes none
  rw [inlineText, h.writeInlines_eq _ rfl, inlineTrees, parseInlines_of_becomes pieces,
    resolve_all_silent silent]
  exact trees

end MarkdownForest
