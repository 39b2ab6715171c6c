/-
# MarkdownForest.Inline.Target -- where a link leads

After the closing bracket of a link or image stand, in parentheses, a
destination and perhaps a title: `(/url "title")`.

A destination in angle brackets runs to the closing one, on one line.  A bare
destination ends at a space, a control, or the first parenthesis closed that was
not opened in it.  A title stands between quotes of one kind or in parentheses,
apart from the destination.  A backslash before ASCII punctuation is dropped in
all of them.
-/
import MarkdownForest.Text.Punctuation

namespace MarkdownForest

set_option autoImplicit false

open Text

/-- The blanks between the parts of a target. -/
def isTargetBlank (c : Char) : Bool :=
  c == ' ' || c == '\t' || c == '\n'

def skipBlanks (s : List Char) : List Char :=
  s.dropWhile isTargetBlank

theorem length_skipBlanks_le (s : List Char) : (skipBlanks s).length ≤ s.length :=
  (List.dropWhile_sublist _).length_le

/-- A destination after its opening angle bracket, and the text after the closing one. -/
def angleDestination : List Char → Option (List Char × List Char)
  | [] => none
  | '>' :: s => some ([], s)
  | '\n' :: _ => none
  | '<' :: _ => none
  | '\\' :: c :: s =>
    if isAsciiPunctuation c then (angleDestination s).map fun (url, rest) => (c :: url, rest)
    else (angleDestination (c :: s)).map fun (url, rest) => ('\\' :: url, rest)
  | c :: s => (angleDestination s).map fun (url, rest) => (c :: url, rest)

/-- A bare destination inside `depth` open parentheses, and the text after it. -/
def bareDestination (depth : Nat) : List Char → List Char × List Char
  | [] => ([], [])
  | '\\' :: c :: s =>
    if isAsciiPunctuation c then
      (c :: (bareDestination depth s).1, (bareDestination depth s).2)
    else ('\\' :: (bareDestination depth (c :: s)).1, (bareDestination depth (c :: s)).2)
  | c :: s =>
    if c = ' ' ∨ isControl c then ([], c :: s)
    else if c = '(' then (c :: (bareDestination (depth + 1) s).1, (bareDestination (depth + 1) s).2)
    else if c = ')' then
      match depth with
      | 0 => ([], c :: s)
      | d + 1 => (c :: (bareDestination d s).1, (bareDestination d s).2)
    else (c :: (bareDestination depth s).1, (bareDestination depth s).2)

/-- The text up to an unescaped `close`, and the text after it. -/
def delimited (close : Char) : List Char → Option (List Char × List Char)
  | [] => none
  | c :: s =>
    if c = close then some ([], s)
    else
      match c, s with
      | '\\', e :: t =>
        if isAsciiPunctuation e then (delimited close t).map fun (text, rest) => (e :: text, rest)
        else (delimited close (e :: t)).map fun (text, rest) => ('\\' :: text, rest)
      | c, s => (delimited close s).map fun (text, rest) => (c :: text, rest)

/-- The destination at the start of a text, in either form, and the text after it. -/
def destination? : List Char → Option (List Char × List Char)
  | '<' :: s => angleDestination s
  | s => some (bareDestination 0 s)

/-- The character that closes a title opened by `c`. -/
def titleClose? (c : Char) : Option Char :=
  if c = '\x22' ∨ c = '\x27' then some c else if c = '(' then some ')' else none

/-- The title after a destination and the text after it.  Without a blank before it, or without a
quote or parenthesis, the title is empty. -/
def title? (s : List Char) : Option (List Char × List Char) :=
  let t := skipBlanks s
  match t with
  | [] => some ([], t)
  | c :: more =>
    match titleClose? c with
    | none => some ([], t)
    | some close => if t.length < s.length then delimited close more else some ([], t)

/-- The target of a link. -/
structure Target where
  url : List Char
  title : List Char
  deriving DecidableEq, Repr

/-- The target at the start of a text, and the text after it. -/
def Target.read? : List Char → Option (Target × List Char)
  | '(' :: s => do
    let (url, afterUrl) ← destination? (skipBlanks s)
    let (title, afterTitle) ← title? afterUrl
    match skipBlanks afterTitle with
    | ')' :: rest => some (⟨url, title⟩, rest)
    | _ => none
  | _ => none

/-! ## Reading a target shortens the text -/

theorem length_angleDestination_le {s url rest : List Char}
    (h : angleDestination s = some (url, rest)) : rest.length ≤ s.length := by
  fun_induction angleDestination s generalizing url <;>
    simp_all only [Option.map_eq_some_iff, Prod.mk.injEq, Option.some.injEq, reduceCtorEq,
      List.length_cons, Prod.exists] <;>
    grind

theorem length_bareDestination_le (depth : Nat) (s : List Char) :
    (bareDestination depth s).2.length ≤ s.length := by
  fun_induction bareDestination depth s <;> simp_all only [List.length_cons] <;> omega

theorem length_delimited_le {close : Char} {s text rest : List Char}
    (h : delimited close s = some (text, rest)) : rest.length ≤ s.length := by
  fun_induction delimited close s generalizing text <;>
    simp_all only [Option.map_eq_some_iff, Prod.mk.injEq, Option.some.injEq, reduceCtorEq,
      List.length_cons, Prod.exists] <;>
    grind

theorem length_destination?_le {s url rest : List Char}
    (h : destination? s = some (url, rest)) : rest.length ≤ s.length := by
  unfold destination? at h
  split at h
  · exact Nat.le_succ_of_le (length_angleDestination_le h)
  · have := length_bareDestination_le 0 s
    rwa [Option.some.inj h] at this

theorem length_title?_le {s title rest : List Char} (h : title? s = some (title, rest)) :
    rest.length ≤ s.length := by
  have hs := length_skipBlanks_le s
  unfold title? at h
  dsimp only at h
  split at h
  · cases h; exact hs
  · next hc =>
    split at h
    · cases h; exact hs
    · split at h
      · have := length_delimited_le h
        rw [hc] at hs
        simp only [List.length_cons] at hs
        omega
      · cases h; exact hs

/-- A target begins with a parenthesis, so it is never empty. -/
theorem Target.length_read?_lt {s rest : List Char} {t : Target}
    (h : Target.read? s = some (t, rest)) : rest.length < s.length := by
  unfold Target.read? at h
  split at h
  · next s =>
    obtain ⟨⟨url, afterUrl⟩, h₁, h⟩ := Option.bind_eq_some_iff.1 h
    obtain ⟨⟨title, afterTitle⟩, h₂, h⟩ := Option.bind_eq_some_iff.1 h
    dsimp only at h h₂
    have := length_skipBlanks_le s
    have := length_destination?_le h₁
    have := length_title?_le h₂
    have := length_skipBlanks_le afterTitle
    split at h
    · next hr => cases h; simp only [hr, List.length_cons] at *; omega
    · simp at h
  · simp at h

theorem Target.length_read?_le {s rest : List Char} {t : Target}
    (h : Target.read? s = some (t, rest)) : rest.length ≤ s.length :=
  Nat.le_of_lt (length_read?_lt h)

end MarkdownForest
