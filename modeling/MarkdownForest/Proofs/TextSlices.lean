/-
# MarkdownForest.Proofs.TextSlices -- code spans and targets cut at bytes

Code spans and the targets of links are looked for from a byte of the text on,
and where they end is a byte again.  The functions in `Sliced` keep those bytes
and cut the text at them with cuts that may fail.

From a byte at which a character begins none fails, what is found is what is
found among the characters, and it ends where a character begins
(`Sliced.codeSpan_eq`, `Sliced.target_eq`).
-/
import MarkdownForest.Inline.CodeSpan
import MarkdownForest.Inline.Target
import MarkdownForest.Proofs.ByteSlices

namespace MarkdownForest

set_option autoImplicit false

open Text

namespace Sliced

/-! ## Code spans -/

/-- The byte at which the next run of exactly `count` backticks begins; `s` begins at `position`. -/
def closingRun (count position : Nat) (s : List Char) : Option Nat :=
  match s with
  | [] => none
  | c :: s =>
    if c = '\x60' then
      let run := s.takeWhile (· == '\x60')
      if run.length + 1 = count then some position
      else closingRun count (position + (run.length + 1)) (s.dropWhile (· == '\x60'))
    else closingRun count (position + c.utf8Size) s
termination_by s.length
decreasing_by
  · have := (List.dropWhile_sublist (l := s) (· == '\x60')).length_le
    simp only [List.length_cons]
    omega
  · simp

/-- The contents of a code span as they are shown. -/
def normalCode (raw : List Char) : Option (List Char) :=
  let s := raw.map fun c => if c = '\n' then ' ' else c
  if 2 ≤ utf8Length s && s.head? = some ' ' && s.getLast? = some ' ' && s.any (· != ' ') then
    slice? 1 (utf8Length s - 1) s
  else some s

/-- The contents of the code span that `count` backticks before the byte `position` open, and the
byte after it. -/
def codeSpan (source : List Char) (position count : Nat) : Option (Option (List Char × Nat)) := do
  match closingRun count position (← sliceFrom? position source) with
  | none => return none
  | some close => return some (← normalCode (← slice? position close source), close + count)

/-! ## Targets -/

/-- The byte behind blanks. -/
def skip (source : List Char) (position : Nat) : Option Nat := do
  return position + ((← sliceFrom? position source).takeWhile isTargetBlank).length

/-- A destination after its opening angle bracket, and the byte after the closing one; `s` begins at
`position`. -/
def angleEnd (position : Nat) : List Char → Option (List Char × Nat)
  | [] => none
  | '>' :: _ => some ([], position + 1)
  | '\n' :: _ => none
  | '<' :: _ => none
  | '\\' :: c :: s =>
    if isAsciiPunctuation c then
      (angleEnd (position + 1 + c.utf8Size) s).map fun (url, stop) => (c :: url, stop)
    else (angleEnd (position + 1) (c :: s)).map fun (url, stop) => ('\\' :: url, stop)
  | c :: s => (angleEnd (position + c.utf8Size) s).map fun (url, stop) => (c :: url, stop)

/-- A bare destination inside `depth` open parentheses, and the byte after it. -/
def bareEnd (position depth : Nat) : List Char → List Char × Nat
  | [] => ([], position)
  | '\\' :: c :: s =>
    if isAsciiPunctuation c then
      let more := bareEnd (position + 1 + c.utf8Size) depth s
      (c :: more.1, more.2)
    else
      let more := bareEnd (position + 1) depth (c :: s)
      ('\\' :: more.1, more.2)
  | c :: s =>
    if c = ' ' ∨ isControl c then ([], position)
    else if c = '(' then
      let more := bareEnd (position + c.utf8Size) (depth + 1) s
      (c :: more.1, more.2)
    else if c = ')' then
      match depth with
      | 0 => ([], position)
      | d + 1 =>
        let more := bareEnd (position + c.utf8Size) d s
        (c :: more.1, more.2)
    else
      let more := bareEnd (position + c.utf8Size) depth s
      (c :: more.1, more.2)

/-- The text up to an unescaped `close`, and the byte after it. -/
def delimitedEnd (close : Char) (position : Nat) : List Char → Option (List Char × Nat)
  | [] => none
  | c :: s =>
    if c = close then some ([], position + 1)
    else
      match c, s with
      | '\\', e :: t =>
        if isAsciiPunctuation e then
          (delimitedEnd close (position + 1 + e.utf8Size) t).map fun (text, stop) =>
            (e :: text, stop)
        else
          (delimitedEnd close (position + 1) (e :: t)).map fun (text, stop) => ('\\' :: text, stop)
      | c, s =>
        (delimitedEnd close (position + c.utf8Size) s).map fun (text, stop) => (c :: text, stop)

/-- The destination at a byte, in either form, and the byte after it. -/
def destination (source : List Char) (position : Nat) : Option (Option (List Char × Nat)) := do
  let s ← sliceFrom? position source
  if s.head? = some '<' then return angleEnd (position + 1) (← sliceFrom? (position + 1) source)
  else return some (bareEnd position 0 s)

/-- The title after a destination that ends at the byte `position`, and the byte after it. -/
def title (source : List Char) (position : Nat) : Option (Option (List Char × Nat)) := do
  let start ← skip source position
  match (← sliceFrom? start source).head?.bind titleClose? with
  | none => return some ([], start)
  | some close =>
    if position < start then
      return delimitedEnd close (start + 1) (← sliceFrom? (start + 1) source)
    else return some ([], start)

/-- The target at a byte, and the byte after it. -/
def target (source : List Char) (position : Nat) : Option (Option (Target × Nat)) := do
  if (← sliceFrom? position source).head? = some '(' then
    match ← destination source (← skip source (position + 1)) with
    | none => return none
    | some (url, afterUrl) =>
      match ← title source afterUrl with
      | none => return none
      | some (title, afterTitle) =>
        let stop ← skip source afterTitle
        if (← sliceFrom? stop source).head? = some ')' then return some (⟨url, title⟩, stop + 1)
        else return none
  else return none

/-! ## What is found at a byte is what is found there -/

/-- What is found with the rest of the text after it, and what is found with the byte after it: the
same, and the rest begins at the byte. -/
inductive Finds {α : Type} (source : List Char) :
    Option (α × List Char) → Option (α × Nat) → Prop where
  | nothing : Finds source none none
  | found {a : α} {rest : List Char} {stop : Nat} (begins : sliceFrom? stop source = some rest) :
    Finds source (some (a, rest)) (some (a, stop))

section Finds

variable {source s : List Char} {position : Nat}

theorem Finds.cons {here : Option (List Char × List Char)} {there : Option (List Char × Nat)}
    (h : Finds source here there) (c : Char) :
    Finds source (here.map fun (t, rest) => (c :: t, rest))
      (there.map fun (t, stop) => (c :: t, stop)) := by
  cases h with
  | nothing => exact .nothing
  | found begins => exact .found begins

theorem skip_eq (begins : sliceFrom? position source = some s) :
    ∃ start, skip source position = some start ∧
      sliceFrom? start source = some (skipBlanks s) ∧
        (position < start ↔ (skipBlanks s).length < s.length) := by
  have narrow : Narrow (s.takeWhile isTargetBlank) := narrow_takeWhile (fun c hc => by
    simp only [isTargetBlank, Bool.or_eq_true, beq_iff_eq] at hc
    rcases hc with (rfl | rfl) | rfl <;> decide) s
  have split := List.takeWhile_append_dropWhile (p := isTargetBlank) (l := s)
  refine ⟨position + (s.takeWhile isTargetBlank).length, by simp [skip, begins], ?_, ?_⟩
  · rw [← narrow.utf8Length_eq]
    exact sliceFrom?_add (by rw [begins, skipBlanks, split])
  · have := congrArg List.length split
    rw [List.length_append] at this
    rw [skipBlanks]
    omega

theorem angleEnd_finds (begins : sliceFrom? position source = some s) :
    Finds source (angleDestination s) (angleEnd position s) := by
  fun_induction angleDestination s generalizing position with
  | case1 => exact .nothing
  | case2 s => exact .found (sliceFrom?_next begins)
  | case3 => exact .nothing
  | case4 => exact .nothing
  | case5 c s escaped ih =>
    rw [angleEnd, if_pos escaped]
    exact (ih (sliceFrom?_next (sliceFrom?_next begins))).cons c
  | case6 c s plain ih =>
    rw [angleEnd, if_neg plain]
    exact (ih (sliceFrom?_next begins)).cons '\\'
  | case7 c s notClose notFeed notOpen notEscape ih =>
    rw [angleEnd]
    · exact (ih (sliceFrom?_next begins)).cons c
    all_goals assumption

theorem bareEnd_plain (position depth : Nat) {c : Char} {s : List Char}
    (notEscape : ∀ d t, c = '\\' → s = d :: t → False) :
    bareEnd position depth (c :: s) =
      if c = ' ' ∨ isControl c then ([], position)
      else if c = '(' then
        let more := bareEnd (position + c.utf8Size) (depth + 1) s
        (c :: more.1, more.2)
      else if c = ')' then
        match depth with
        | 0 => ([], position)
        | d + 1 =>
          let more := bareEnd (position + c.utf8Size) d s
          (c :: more.1, more.2)
      else
        let more := bareEnd (position + c.utf8Size) depth s
        (c :: more.1, more.2) := by
  conv => lhs; unfold bareEnd
  split
  · exact (List.cons_ne_nil _ _ ‹_›).elim
  · rename_i e
    cases e
    exact (notEscape _ _ rfl rfl).elim
  · rename_i e
    cases e
    rfl

theorem bareEnd_finds (depth : Nat) (begins : sliceFrom? position source = some s) :
    Finds source (some (bareDestination depth s)) (some (bareEnd position depth s)) := by
  fun_induction bareDestination depth s generalizing position with
  | case1 depth => exact .found begins
  | case2 depth c s escaped ih =>
    rw [bareEnd, if_pos escaped]
    exact (ih (sliceFrom?_next (sliceFrom?_next begins))).cons c
  | case3 depth c s plain ih =>
    rw [bareEnd, if_neg plain]
    exact (ih (sliceFrom?_next begins)).cons '\\'
  | case4 depth c s notEscape ends =>
    rw [bareEnd_plain position depth notEscape, if_pos ends]
    exact .found begins
  | case5 depth s notEscape notEnd ih =>
    rw [bareEnd_plain position depth notEscape, if_neg notEnd, if_pos rfl]
    exact (ih (sliceFrom?_next begins)).cons '('
  | case6 s notEscape notEnd notOpen =>
    rw [bareEnd_plain position 0 notEscape, if_neg notEnd, if_neg notOpen, if_pos rfl]
    exact .found begins
  | case7 s depth notEscape notEnd notOpen ih =>
    rw [bareEnd_plain position (depth + 1) notEscape, if_neg notEnd, if_neg notOpen, if_pos rfl]
    exact (ih (sliceFrom?_next begins)).cons ')'
  | case8 depth c s notEscape notEnd notOpen notClose ih =>
    rw [bareEnd_plain position depth notEscape, if_neg notEnd, if_neg notOpen, if_neg notClose]
    exact (ih (sliceFrom?_next begins)).cons c

theorem delimitedEnd_finds {close : Char} (narrow : close.utf8Size = 1)
    (begins : sliceFrom? position source = some s) :
    Finds source (delimited close s) (delimitedEnd close position s) := by
  fun_induction delimited close s generalizing position with
  | case1 => exact .nothing
  | case2 s =>
    unfold delimitedEnd
    rw [if_pos rfl, ← narrow]
    exact .found (sliceFrom?_next begins)
  | case3 e t escaped ne ih =>
    rw [delimitedEnd, if_neg ne, if_pos escaped]
    exact (ih (sliceFrom?_next (sliceFrom?_next begins))).cons e
  | case4 e t plain ne ih =>
    rw [delimitedEnd, if_neg ne, if_neg plain]
    exact (ih (sliceFrom?_next begins)).cons '\\'
  | case5 c s notEscape ne ih =>
    rw [delimitedEnd, if_neg ne]
    · exact (ih (sliceFrom?_next begins)).cons c
    · exact notEscape

/-! ### Targets -/

theorem destination_eq (begins : sliceFrom? position source = some s) :
    ∃ there, destination source position = some there ∧ Finds source (destination? s) there := by
  unfold destination
  rw [begins]
  cases s with
  | nil => exact ⟨_, rfl, bareEnd_finds 0 begins⟩
  | cons c s =>
    by_cases open? : c = '<'
    · subst open?
      have inside := sliceFrom?_next begins
      exact ⟨angleEnd (position + 1) s, by simp [show sliceFrom? (position + 1) source = some s from
        inside], angleEnd_finds inside⟩
    · refine ⟨some (bareEnd position 0 (c :: s)), by simp [open?], ?_⟩
      have bare : destination? (c :: s) = some (bareDestination 0 (c :: s)) := by
        unfold destination?
        split
        · rename_i e
          cases e
          exact absurd rfl open?
        · rfl
      rw [bare]
      exact bareEnd_finds 0 begins

theorem utf8Size_of_titleClose? {c close : Char} (h : titleClose? c = some close) :
    c.utf8Size = 1 ∧ close.utf8Size = 1 := by
  unfold titleClose? at h
  split at h
  · rename_i quote
    cases h
    rcases quote with rfl | rfl <;> decide
  · split at h
    · rename_i paren
      cases h
      subst paren
      decide
    · simp at h

theorem title_eq (begins : sliceFrom? position source = some s) :
    ∃ there, title source position = some there ∧ Finds source (title? s) there := by
  obtain ⟨start, skipped, after, moved⟩ := skip_eq begins
  unfold title title?
  rw [skipped]
  simp only [Option.bind_eq_bind, Option.bind_some, after]
  cases t : skipBlanks s with
  | nil => exact ⟨some ([], start), rfl, .found (t ▸ after)⟩
  | cons c more =>
    simp only [List.head?_cons, Option.bind_some]
    cases quote : titleClose? c with
    | none => exact ⟨some ([], start), rfl, .found (t ▸ after)⟩
    | some close =>
      obtain ⟨mark, narrow⟩ := utf8Size_of_titleClose? quote
      rw [t] at after moved
      have inside := sliceFrom?_next after
      rw [mark] at inside
      by_cases apart : position < start
      · refine ⟨delimitedEnd close (start + 1) more, by simp [apart, inside], ?_⟩
        dsimp only
        rw [if_pos (moved.mp apart)]
        exact delimitedEnd_finds narrow inside
      · refine ⟨some ([], start), by simp [apart], ?_⟩
        dsimp only
        rw [if_neg (mt moved.mpr apart)]
        exact .found after

/-- A target at a byte at which a character begins is the target there, and ends behind its closing
parenthesis. -/
theorem target_eq (begins : sliceFrom? position source = some s) :
    (Target.read? s = none ∧ target source position = some none) ∨
      ∃ t rest stop, Target.read? s = some (t, rest) ∧
        target source position = some (some (t, stop + 1)) ∧
          sliceFrom? stop source = some (')' :: rest) := by
  unfold target
  rw [begins]
  simp only [Option.bind_eq_bind, Option.bind_some]
  by_cases opens : s.head? = some '('
  · obtain ⟨s, rfl⟩ : ∃ t, s = '(' :: t := by
      cases s with
      | nil => simp at opens
      | cons c t => exact ⟨t, by rw [Option.some.inj opens]⟩
    obtain ⟨start, skipped, atStart, -⟩ := skip_eq (sliceFrom?_next begins)
    obtain ⟨there, found, finds⟩ := destination_eq atStart
    rw [if_pos opens, show position + 1 = position + '('.utf8Size from rfl, skipped]
    simp only [Option.bind_some, found, Target.read?, Option.bind_eq_bind]
    generalize destination? (skipBlanks s) = here at finds
    cases finds with
    | nothing => exact .inl ⟨rfl, rfl⟩
    | @found url afterUrl stop atUrl =>
      obtain ⟨there, found, finds⟩ := title_eq atUrl
      simp only [Option.bind_some, found]
      generalize title? afterUrl = here at finds
      cases finds with
      | nothing => exact .inl ⟨rfl, rfl⟩
      | @found title afterTitle stop atTitle =>
        obtain ⟨close, skipped, atClose, -⟩ := skip_eq atTitle
        simp only [Option.bind_some, skipped, atClose]
        cases t : skipBlanks afterTitle with
        | nil => exact .inl ⟨rfl, rfl⟩
        | cons c rest =>
          by_cases closes : c = ')'
          · subst closes
            exact .inr ⟨_, rest, close, rfl, by simp, t ▸ atClose⟩
          · refine .inl ⟨?_, by simp [closes]⟩
            split
            · rename_i e
              cases e
              exact absurd rfl closes
            · rfl
  · refine .inl ⟨?_, by rw [if_neg opens]; rfl⟩
    unfold Target.read?
    split
    · exact absurd rfl opens
    · rfl

/-! ### Code spans -/

/-- The run that closes a code span begins where its contents end. -/
theorem closingRun_eq (count position : Nat) (s : List Char) :
    (closeCode count s = none ∧ closingRun count position s = none) ∨
      ∃ inside rest, closeCode count s = some (inside, rest) ∧
        closingRun count position s = some (position + utf8Length inside) ∧
          s = inside ++ (List.replicate count '\x60' ++ rest) := by
  have backticks : ∀ s : List Char,
      '\x60' :: s = List.replicate ((s.takeWhile (· == '\x60')).length + 1) '\x60' ++
        s.dropWhile (· == '\x60') := fun s => by
    rw [List.replicate_succ, ← takeWhile_eq_replicate, List.cons_append,
      List.takeWhile_append_dropWhile]
  fun_induction closeCode count s generalizing position with
  | case1 => exact .inl ⟨rfl, by rw [closingRun]⟩
  | case2 s run rest same =>
    refine .inr ⟨[], rest, rfl, ?_, ?_⟩
    · rw [closingRun, if_pos rfl]
      exact if_pos same
    · rw [List.nil_append, ← same]
      exact backticks s
  | case3 s run rest other ih =>
    have step : closingRun count position ('\x60' :: s) =
        closingRun count (position + (run.length + 1)) rest := by
      rw [closingRun, if_pos rfl]
      exact if_neg other
    rw [step]
    rcases ih (position + (run.length + 1)) with ⟨none, there⟩ | ⟨inside, after, found, there, e⟩
    · exact .inl ⟨by rw [none]; rfl, there⟩
    · have narrow : Narrow run := narrow_takeWhile (fun c hc => by
        rw [beq_iff_eq.mp hc]
        decide) s
      refine .inr ⟨'\x60' :: run ++ inside, after, by rw [found]; rfl, ?_, ?_⟩
      · rw [there, utf8Length_append, utf8Length, narrow.utf8Length_eq,
          show '\x60'.utf8Size = 1 from rfl]
        congr 1
        omega
      · rw [List.append_assoc, ← e, List.cons_append, List.takeWhile_append_dropWhile]
  | case4 c s ne ih =>
    have step :
        closingRun count position (c :: s) = closingRun count (position + c.utf8Size) s := by
      rw [closingRun, if_neg ne]
    rw [step]
    rcases ih (position + c.utf8Size) with ⟨none, there⟩ | ⟨inside, after, found, there, e⟩
    · exact .inl ⟨by rw [none]; rfl, there⟩
    · refine .inr ⟨c :: inside, after, by rw [found]; rfl, ?_, by rw [List.cons_append, ← e]⟩
      rw [there, utf8Length, Nat.add_assoc]

theorem normalCode_eq (raw : List Char) : normalCode raw = some (normalizeCode raw) := by
  unfold normalCode normalizeCode
  dsimp only
  generalize raw.map (fun c => if c = '\n' then ' ' else c) = s
  cases s with
  | nil => rfl
  | cons c s =>
    rcases List.eq_nil_or_concat s with rfl | ⟨middle, last, rfl⟩
    · -- A single character is shown as it is: a space is nothing but spaces.
      by_cases space : c = ' '
      · subst space
        rfl
      · simp [space]
    · rw [List.concat_eq_append]
      by_cases first : c = ' '
      · by_cases final : last = ' '
        · subst first final
          have cut : slice? 1 (utf8Length (' ' :: (middle ++ [' '])) - 1)
              (' ' :: (middle ++ [' '])) = some middle := by
            refine slice?_eq_some.mpr ⟨[' '], [' '], by simp, rfl, ?_⟩
            simp only [utf8Length, utf8Length_append, show ' '.utf8Size = 1 from rfl]
            omega
          have long : 2 ≤ utf8Length (' ' :: (middle ++ [' '])) := by
            have := length_le_utf8Length (' ' :: (middle ++ [' ']))
            simp only [List.length_cons, List.length_append] at this
            omega
          rw [cut]
          simp only [long]
          simp [apply_ite some]
        · simp [List.getLast?_cons, final]
      · simp [first]

theorem codeSpan_eq (count : Nat) (begins : sliceFrom? position source = some s) :
    (closeCode count s = none ∧ codeSpan source position count = some none) ∨
      ∃ inside rest close, closeCode count s = some (inside, rest) ∧
        codeSpan source position count = some (some (normalizeCode inside, close + count)) ∧
          sliceFrom? close source = some (List.replicate count '\x60' ++ rest) := by
  unfold codeSpan
  rw [begins]
  simp only [Option.bind_eq_bind, Option.bind_some]
  rcases closingRun_eq count position s with ⟨none, there⟩ | ⟨inside, rest, found, there, rfl⟩
  · exact .inl ⟨none, by rw [there]; rfl⟩
  · have cut : slice? position (position + utf8Length inside) source = some inside := by
      obtain ⟨before, rfl, rfl⟩ := sliceFrom?_eq_some.mp begins
      rw [← List.append_assoc]
      exact slice?_append before inside _
    refine .inr ⟨inside, rest, _, found, ?_, sliceFrom?_add begins⟩
    rw [there]
    simp [cut, normalCode_eq]

end Finds

end Sliced

end MarkdownForest
