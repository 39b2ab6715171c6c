/-
# MarkdownForest.Proofs.LineSlices -- lines cut at bytes

What a line opens is found by cutting it at bytes: behind its leading spaces,
behind a run of marks, behind the digits of a number or the name of a tag.  The
functions in `Sliced` do so with cuts that may fail (`Text.sliceFrom?`), step by
step.  None fails on any line, and they agree with those that cut by characters
(`Line.slicesWhole`), since only characters of one byte are ever cut off.
-/
import MarkdownForest.Block.Layout
import MarkdownForest.Proofs.ByteSlices

namespace MarkdownForest

set_option autoImplicit false

open Text

/-! ## Lines cut at bytes -/

namespace Sliced

/-- The text after the leading spaces. -/
def rest (l : Line) : Option (List Char) :=
  sliceFrom? l.indent l.text

/-- The line from a byte on, or from its end. -/
def tail (l : Line) (n : Nat) : Option Line := do
  let start := min n (utf8Length l.text)
  return ⟨← sliceFrom? start l.text, l.offset + start⟩

/-- The line without up to `n` leading spaces. -/
def strip (l : Line) (n : Nat) : Option Line :=
  tail l (min l.indent n)

/-- The fence that opens a text. -/
def fence (s : List Char) : Option (Option Fence) :=
  match s with
  | [] => some none
  | mark :: _ =>
    if mark = '\x60' ∨ mark = '~' then
      let length := runLength mark s
      if length < 3 then some none
      else do
        let info := trim (← sliceFrom? length s)
        return if mark = '\x60' ∧ info.contains '\x60' then none else some ⟨mark, length, info⟩
    else some none

/-- Whether a line closes the fence. -/
def closes (f : Fence) (l : Line) : Option Bool :=
  if 4 ≤ l.indent then some false
  else do
    let s ← rest l
    let length := runLength f.mark s
    if f.length ≤ length then return isBlank (← sliceFrom? length s) else return false

/-- The level and text of a header that starts with number signs. -/
def header (s : List Char) : Option (Option (Nat × List Char)) :=
  let level := runLength '#' s
  if level = 0 || 6 < level then some none
  else do
    let after ← sliceFrom? level s
    if after.isEmpty || after.head? = some ' ' then return some (level, dropClosing (trim after))
    else return none

/-- Whether a line that is a single tag ends here: its only further bracket is the last
character. -/
def loneTag (s : List Char) : Option Bool :=
  let line := trimEnd s
  if line.getLast? = some '>' then do return !(← sliceFrom? 1 line).contains '<' else some false

/-- Whether the tag whose name begins the text `s` opens raw HTML on a line. -/
def named (s line : List Char) : Option Bool :=
  if s.head?.any Char.isAlpha then do
    let bytes := utf8Length (s.takeWhile fun c => c.isAlphanum || c == '-')
    let name ← sliceTo? bytes s
    if !endsTagName (← sliceFrom? bytes s) then return false
    else if blockTags.contains (String.ofList (toAsciiLower name)) then return true
    else loneTag line
  else some false

/-- Whether the tag that follows the first angle bracket opens raw HTML. -/
def tag : List Char → Option Bool
  | '/' :: s => named s ('<' :: '/' :: s)
  | s => named s ('<' :: s)

/-- Declarations, comments, instructions, block tags, and any tag alone on its line. -/
def html : List Char → Option Bool
  | '<' :: '!' :: _ | '<' :: '?' :: _ => some true
  | '<' :: s => tag s
  | _ => some false

/-- Type, delimiter, start and length of the marker at the start of a text. -/
def head (s : List Char) : Option (Option (ListType × Char × Nat × Nat)) :=
  match s with
  | [] => some none
  | c :: _ =>
    if c = '-' ∨ c = '+' ∨ c = '*' then some (some (.bullet, c, 1, 1))
    else if c.isDigit then
      let digits := (s.takeWhile Char.isDigit).length
      if 9 < digits then some none
      else do
        match (← sliceFrom? digits s).head? with
        | some d =>
          if d = '.' ∨ d = ')' then
            return some (.ordered, d, Marker.ofDigits (← sliceTo? digits s), digits + 1)
          else return none
        | none => return none
    else some none

/-- The marker that a line starts with. -/
def marker (l : Line) : Option (Option Marker) :=
  if 4 ≤ l.indent then some none
  else do
    let s ← rest l
    match ← head s with
    | none => return none
    | some (type, delimiter, start, length) =>
      let after ← sliceFrom? length s
      let spaces := runLength ' ' after
      let empty := isBlank after
      let markerEnd := l.indent + length
      if after.isEmpty || after.head? = some ' ' then
        return some {
          type, delimiter, start, empty
          width := if empty || 4 < spaces then markerEnd + 1 else markerEnd + spaces }
      else return none

/-- The line after its quote marker and one space. -/
def unquoted (l : Line) : Option Line := do
  let markerEnd := l.indent + 1
  let after ← sliceFrom? markerEnd l.text
  tail l (if after.head? = some ' ' then markerEnd + 1 else markerEnd)

end Sliced

/-- No cut of a line fails, and each is the cut by characters. -/
structure Line.SlicesWhole (l : Line) : Prop where
  rest : Sliced.rest l = some l.rest
  strip : ∀ n, Sliced.strip l n = some (l.strip n)
  fence : Sliced.fence l.rest = some (Fence.open? l.rest)
  closes : ∀ {f s}, Fence.open? s = some f → Sliced.closes f l = some (f.closedBy l)
  header : Sliced.header l.rest = some (header? l.rest)
  html : Sliced.html l.rest = some (opensHtml l.rest)
  marker : Sliced.marker l = some (Marker.read? l)
  item : ∀ {m}, Marker.read? l = some m → Sliced.tail l m.width = some (l.tail m.width)
  quote : l.isQuoted → Sliced.unquoted l = some l.unquoted

/-! ## Cuts behind characters of one byte -/

namespace Sliced

theorem utf8Size_of_lt {c : Char} (h : c.toNat < 0x80) : c.utf8Size = 1 := by
  have : c.val.toNat < 0x80 := h
  rw [Char.utf8Size, if_pos (UInt32.le_iff_toNat_le.mpr (Nat.le_of_lt_succ this))]

theorem take_takeWhile {α : Type} (p : α → Bool) (s : List α) :
    s.take (s.takeWhile p).length = s.takeWhile p :=
  (List.prefix_iff_eq_take.mp (List.takeWhile_prefix p)).symm

theorem drop_takeWhile {α : Type} (p : α → Bool) (s : List α) :
    s.drop (s.takeWhile p).length = s.dropWhile p := by
  have := @List.drop_left _ (s.takeWhile p) (s.dropWhile p)
  rwa [List.takeWhile_append_dropWhile] at this

/-- A cut behind the longest beginning in a class of characters of one byte. -/
theorem sliceFrom?_takeWhile {p : Char → Bool} (hp : ∀ c, p c → c.utf8Size = 1) (s : List Char) :
    sliceFrom? (s.takeWhile p).length s = some (s.dropWhile p) := by
  rw [sliceFrom?_narrow _ (List.takeWhile_prefix p).length_le, drop_takeWhile]
  rw [take_takeWhile]
  exact narrow_takeWhile hp s

theorem sliceTo?_takeWhile {p : Char → Bool} (hp : ∀ c, p c → c.utf8Size = 1) (s : List Char) :
    sliceTo? (s.takeWhile p).length s = some (s.takeWhile p) := by
  rw [sliceTo?_narrow _ (List.takeWhile_prefix p).length_le, take_takeWhile]
  rw [take_takeWhile]
  exact narrow_takeWhile hp s

theorem sliceFrom?_run {mark : Char} (narrow : mark.utf8Size = 1) (s : List Char) :
    sliceFrom? (runLength mark s) s = some (s.drop (runLength mark s)) := by
  rw [runLength, sliceFrom?_takeWhile (fun c hc => by rw [beq_iff_eq.mp hc, narrow]),
    drop_takeWhile]

theorem rest_eq (l : Line) : rest l = some l.rest :=
  sliceFrom?_takeWhile (fun c hc => by rw [beq_iff_eq.mp hc]; decide) l.text

/-- A line may be cut behind characters of one byte, and behind all of them. -/
theorem tail_eq (l : Line) (n : Nat) (narrow : Narrow (l.text.take n)) :
    tail l n = some (l.tail n) := by
  have long := length_le_utf8Length l.text
  by_cases hn : n ≤ l.text.length
  · rw [tail, Nat.min_eq_left (Nat.le_trans hn long), sliceFrom?_narrow narrow hn]
    simp [Line.tail, Nat.min_eq_left hn]
  · have all : l.text.take n = l.text := List.take_of_length_le (by omega)
    have bytes := (all ▸ narrow).utf8Length_eq
    have cut := sliceFrom?_append l.text []
    rw [List.append_nil, bytes] at cut
    rw [tail, bytes, Nat.min_eq_right (by omega), cut]
    simp [Line.tail, List.drop_of_length_le (show l.text.length ≤ n by omega),
      Nat.min_eq_right (show l.text.length ≤ n by omega)]

/-- A beginning of a beginning of characters of one byte. -/
theorem narrow_take {s t u : List Char} (e : s = t ++ u) (ht : Narrow t) {n : Nat}
    (hn : n ≤ t.length) : Narrow (s.take n) := fun c hc => by
  rw [e, List.take_append_of_le_length hn] at hc
  exact ht c (List.mem_of_mem_take hc)

/-- The leading spaces of a line. -/
theorem narrow_indent (l : Line) : Narrow (List.replicate l.indent ' ') :=
  narrow_replicate (by decide) _

theorem strip_eq (l : Line) (n : Nat) : strip l n = some (l.strip n) :=
  tail_eq l _ (narrow_take l.indent_append_rest.symm (narrow_indent l)
    (by rw [List.length_replicate]; exact Nat.min_le_left _ _))

theorem unquoted_eq {l : Line} (h : l.isQuoted) : unquoted l = some l.unquoted := by
  obtain ⟨after, hr⟩ : ∃ after, l.rest = '>' :: after := by
    simp only [Line.isQuoted, Bool.and_eq_true, decide_eq_true_eq] at h
    cases hr : l.rest with
    | nil => simp [hr] at h
    | cons c after =>
      rw [hr, List.head?_cons, Option.some.injEq] at h
      exact ⟨after, by rw [h.2]⟩
  have text : l.text = (List.replicate l.indent ' ' ++ ['>']) ++ after := by
    rw [← l.indent_append_rest, hr]
    simp
  have marked : Narrow (List.replicate l.indent ' ' ++ ['>']) :=
    (narrow_indent l).append (narrow_singleton (by decide))
  have cut : sliceFrom? (l.indent + 1) l.text = some (l.text.drop (l.indent + 1)) :=
    sliceFrom?_narrow (narrow_take text marked (by simp)) (by rw [text]; simp)
  have left : l.text.drop (l.indent + 1) = after := by
    rw [text]
    exact List.drop_left' (by simp)
  have behind : Narrow (l.text.take
      (if after.head? = some ' ' then l.indent + 1 + 1 else l.indent + 1)) := by
    split
    · rename_i space
      obtain ⟨more, rfl⟩ : ∃ more, after = ' ' :: more := by
        cases after with
        | nil => simp at space
        | cons c more => exact ⟨more, by rw [Option.some.inj space]⟩
      have spaced : l.text = (List.replicate l.indent ' ' ++ ['>'] ++ [' ']) ++ more := by
        rw [text]
        simp
      exact narrow_take spaced (marked.append (narrow_singleton (by decide))) (by simp)
    · exact narrow_take text marked (by simp)
  simp only [unquoted, cut, Option.bind_eq_bind, Option.bind_some, Line.unquoted, left]
  exact tail_eq l _ behind

/-! ## What a line opens -/

theorem fence_eq (s : List Char) : fence s = some (Fence.open? s) := by
  have ofMark : ∀ mark : Char, mark.utf8Size = 1 → ∀ more, mark = '\x60' ∨ mark = '~' →
      fence (mark :: more) = some (Fence.ofMark? mark (mark :: more)) := by
    intro mark narrow more hmark
    simp only [fence, if_pos hmark, Fence.ofMark?, sliceFrom?_run narrow]
    by_cases short : runLength mark (mark :: more) < 3
    · simp [short]
    · rcases hmark with rfl | rfl <;> simp [short]
  unfold Fence.open?
  split
  · exact ofMark _ (by decide) _ (.inl rfl)
  · exact ofMark _ (by decide) _ (.inr rfl)
  · rename_i notBacktick notTilde
    cases s with
    | nil => rfl
    | cons c s =>
      have : ¬ (c = '\x60' ∨ c = '~') := by
        rintro (rfl | rfl)
        · exact notBacktick _ rfl
        · exact notTilde _ rfl
      simp [fence, this]

theorem mark_of_open? {s : List Char} {f : Fence} (h : Fence.open? s = some f) :
    f.mark.utf8Size = 1 := by
  have ofMark : ∀ {mark : Char} {s}, Fence.ofMark? mark s = some f → f.mark = mark := by
    intro mark s h
    unfold Fence.ofMark? at h
    dsimp only at h
    split at h
    · simp at h
    · cases h
      rfl
  unfold Fence.open? at h
  split at h
  · rw [ofMark h]
    decide
  · rw [ofMark h]
    decide
  · simp at h

theorem closes_eq {f : Fence} {s : List Char} (h : Fence.open? s = some f) (l : Line) :
    closes f l = some (f.closedBy l) := by
  simp only [closes, rest_eq, Option.bind_eq_bind, Option.bind_some,
    sliceFrom?_run (mark_of_open? h), Fence.closedBy]
  by_cases deep : 4 ≤ l.indent
  · simp [deep, Nat.not_lt.mpr deep]
  · by_cases long : f.length ≤ runLength f.mark l.rest <;>
      simp [deep, Nat.lt_of_not_le deep, long]

theorem header_eq (s : List Char) : header s = some (header? s) := by
  simp only [header, header?, sliceFrom?_run (show '#'.utf8Size = 1 by decide),
    Option.bind_eq_bind, Option.bind_some]
  by_cases range : runLength '#' s = 0 || 6 < runLength '#' s
  · rw [if_pos range, if_pos range]
  · rw [if_neg range, if_neg range]
    by_cases space : (s.drop (runLength '#' s)).isEmpty ||
        (s.drop (runLength '#' s)).head? = some ' '
    · rw [if_pos space, if_pos space]
      rfl
    · rw [if_neg space, if_neg space]
      rfl

/-! ### Raw HTML -/

theorem utf8Size_of_nameChar {c : Char} (h : c.isAlphanum || c == '-') : c.utf8Size = 1 := by
  refine utf8Size_of_lt ?_
  rcases Bool.or_eq_true_iff.mp h with h | h
  · exact ascii_of_isAlphanum h
  · rw [beq_iff_eq.mp h]
    decide

/-- The bracket that a line begins with is not trimmed off its end. -/
theorem trimEnd_bracket (s : List Char) : trimEnd ('<' :: s) = '<' :: trimEnd s := by
  have bracket : isSpace '<' = false := by decide
  rw [trimEnd, trimEnd, dropEndWhile, dropEndWhile, List.reverse_cons, List.dropWhile_append]
  split
  · rename_i empty
    rw [List.isEmpty_iff.mp empty]
    simp [bracket]
  · simp

theorem loneTag_eq (s : List Char) : loneTag ('<' :: s) =
    some ((trimEnd s).getLast? = some '>' && !(trimEnd s).contains '<') := by
  have cut : sliceFrom? 1 ('<' :: trimEnd s) = some (trimEnd s) :=
    sliceFrom?_append ['<'] (trimEnd s)
  have last : ('<' :: trimEnd s).getLast? = some '>' ↔ (trimEnd s).getLast? = some '>' := by
    cases trimEnd s with
    | nil => decide
    | cons c more => rw [List.getLast?_cons_cons]
  unfold loneTag
  simp only [trimEnd_bracket, cut, last]
  by_cases closed : (trimEnd s).getLast? = some '>' <;> simp [closed]

theorem named_eq (name s : List Char) : named name ('<' :: s) =
    some ((name.head?.any Char.isAlpha) &&
      endsTagName (name.dropWhile fun c => c.isAlphanum || c == '-') &&
        (blockTags.contains
          (String.ofList (toAsciiLower (name.takeWhile fun c => c.isAlphanum || c == '-'))) ||
          (trimEnd s).getLast? = some '>' && !(trimEnd s).contains '<')) := by
  have narrow : ∀ c : Char, (c.isAlphanum || c == '-') → c.utf8Size = 1 := fun _ =>
    utf8Size_of_nameChar
  unfold named
  simp only [(narrow_takeWhile narrow name).utf8Length_eq, sliceTo?_takeWhile narrow,
    sliceFrom?_takeWhile narrow, loneTag_eq, Option.bind_eq_bind, Option.bind_some]
  by_cases alpha : name.head?.any Char.isAlpha
  · cases endsTagName (name.dropWhile fun c => c.isAlphanum || c == '-') <;>
      cases blockTags.contains
        (String.ofList (toAsciiLower (name.takeWhile fun c => c.isAlphanum || c == '-'))) <;>
      simp [alpha]
  · simp [alpha]

theorem tag_eq (s : List Char) : tag s = some (opensTag s) := by
  cases s with
  | nil => exact named_eq _ _
  | cons c s =>
    by_cases slash : c = '/'
    · subst slash
      exact named_eq _ _
    · simp [tag, opensTag, slash, named_eq]

theorem html_eq (s : List Char) : html s = some (opensHtml s) := by
  unfold html
  split
  · rfl
  · rfl
  · rw [tag_eq, opensHtml] <;> assumption
  · rw [opensHtml] <;> assumption

/-! ### List markers -/

theorem utf8Size_of_isDigit (c : Char) (h : c.isDigit) : c.utf8Size = 1 :=
  utf8Size_of_nameChar (by simp [Char.isAlphanum, h])

theorem head_eq (s : List Char) : head s = some (Marker.head? s) := by
  cases s with
  | nil => rfl
  | cons c s =>
    unfold head Marker.head?
    dsimp only
    by_cases bullet : c = '-' ∨ c = '+' ∨ c = '*'
    · rw [if_pos bullet, if_pos bullet]
    · rw [if_neg bullet, if_neg bullet]
      by_cases digit : c.isDigit
      · have some : ((c :: s).takeWhile Char.isDigit).isEmpty = false := by simp [digit]
        rw [if_pos digit, sliceFrom?_takeWhile utf8Size_of_isDigit,
          sliceTo?_takeWhile utf8Size_of_isDigit, drop_takeWhile, some]
        by_cases long : 9 < ((c :: s).takeWhile Char.isDigit).length
        · rw [if_pos long]
          cases (c :: s).dropWhile Char.isDigit <;> simp [long]
        · rw [if_neg long]
          cases (c :: s).dropWhile Char.isDigit with
          | nil => rfl
          | cons d after =>
            by_cases mark : d = '.' ∨ d = ')' <;> simp [long, mark]
      · simp [digit]

/-- A marker is made of characters of one byte. -/
theorem narrow_head? {s : List Char} {type : ListType} {d : Char} {start length : Nat}
    (h : Marker.head? s = some (type, d, start, length)) :
    ∃ mark after, s = mark ++ after ∧ mark.length = length ∧ Narrow mark := by
  unfold Marker.head? at h
  split at h
  · simp at h
  · rename_i c s
    split at h
    · rename_i bullet
      simp only [Option.some.injEq, Prod.mk.injEq] at h
      obtain ⟨-, -, -, rfl⟩ := h
      refine ⟨[c], s, rfl, rfl, narrow_singleton ?_⟩
      rcases bullet with rfl | rfl | rfl <;> decide
    · dsimp only at h
      split at h
      · rename_i found
        split at h
        · simp at h
        · split at h
          · rename_i d after _ mark
            simp only [Option.some.injEq, Prod.mk.injEq] at h
            obtain ⟨-, -, -, rfl⟩ := h
            rw [drop_takeWhile] at found
            refine ⟨(c :: s).takeWhile Char.isDigit ++ [d], after, ?_, by simp, ?_⟩
            · rw [List.append_assoc, List.singleton_append, ← found]
              exact List.takeWhile_append_dropWhile.symm
            · refine (narrow_takeWhile utf8Size_of_isDigit _).append (narrow_singleton ?_)
              rcases mark with rfl | rfl <;> decide
          · simp at h
      · simp at h

theorem marker_eq (l : Line) : marker l = some (Marker.read? l) := by
  unfold marker Marker.read?
  split
  · rfl
  · rw [rest_eq]
    simp only [Option.bind_eq_bind, Option.bind_some, head_eq]
    cases h : Marker.head? l.rest with
    | none => rfl
    | some found =>
      obtain ⟨type, delimiter, start, length⟩ := found
      obtain ⟨mark, after, e, rfl, narrow⟩ := narrow_head? h
      have cut := sliceFrom?_append mark after
      rw [narrow.utf8Length_eq] at cut
      simp only [e, cut, Option.bind_some, List.drop_left]
      split <;> rfl

theorem width_le {p : Prop} [Decidable p] (a spaces : Nat) (some : 1 ≤ spaces) :
    (if p then a + 1 else a + spaces) ≤ a + spaces := by
  split <;> omega

/-- An item is cut behind its marker and the spaces after it, or behind all of its line. -/
theorem item_eq {l : Line} {m : Marker} (h : Marker.read? l = some m) :
    tail l m.width = some (l.tail m.width) := by
  unfold Marker.read? at h
  split at h
  · simp at h
  split at h
  · simp at h
  rename_i type delimiter start length found
  obtain ⟨mark, after, e, rfl, narrow⟩ := narrow_head? found
  dsimp only at h
  rw [e, List.drop_left] at h
  split at h
  · rename_i opens
    obtain rfl := Option.some.inj h
    have spaces : Narrow (after.takeWhile (· == ' ')) :=
      narrow_takeWhile (fun c hc => by rw [beq_iff_eq.mp hc]; decide) after
    have text : l.text = (List.replicate l.indent ' ' ++ mark ++ after.takeWhile (· == ' ')) ++
        after.dropWhile (· == ' ') := by
      rw [List.append_assoc, List.takeWhile_append_dropWhile, List.append_assoc, ← e,
        l.indent_append_rest]
    have cut := ((narrow_indent l).append narrow).append spaces
    refine tail_eq l _ ?_
    cases after with
    | nil =>
      rw [List.takeWhile_nil, List.dropWhile_nil, List.append_nil, List.append_nil] at text
      exact fun c hc => (narrow_indent l).append narrow c (text ▸ List.mem_of_mem_take hc)
    | cons c more =>
      obtain rfl : c = ' ' := by simpa using opens
      refine narrow_take text cut ?_
      simp only [List.length_append, List.length_replicate, runLength]
      exact width_le _ _ (by simp)
  · simp at h

end Sliced

/-- Lines are cut only where a character begins or the line ends. -/
theorem Line.slicesWhole (l : Line) : l.SlicesWhole where
  rest := Sliced.rest_eq l
  strip := Sliced.strip_eq l
  fence := Sliced.fence_eq l.rest
  closes h := Sliced.closes_eq h l
  header := Sliced.header_eq l.rest
  html := Sliced.html_eq l.rest
  marker := Sliced.marker_eq l
  item := Sliced.item_eq
  quote := Sliced.unquoted_eq

end MarkdownForest
