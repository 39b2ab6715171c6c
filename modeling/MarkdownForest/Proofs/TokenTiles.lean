/-
# MarkdownForest.Proofs.TokenTiles -- tokens tile the source

A cursor hands out the tokens of a source, each with the bytes it spans, and can be
put at any byte.  From there a lexer reads what is left with positions of its own,
to which the cursor adds the byte it was put at; what the lexer cannot make a token
of is cut out of the source as text (`Cursor.next?`).  What a token carries is cut
out of its slice (`TokenKind.token?`).  Each of these cuts may fail.

Of the lexer it is known that it takes the longest match (`Found.TakesLongest`).
Behind an angle bracket it may instead do what the automaton of
`MarkdownForest.Inline.Angle` does, which stops short of some (`Lexes`); `lexed` is
such a lexer (`lexes_lexed`).

* `Lexes.read`: a lexer takes characters from the text in front of it, and the token
  says what they are (`Token.Spells`);
* `Cursor.next?_eq`: the next token of a cursor is that of the text in front of it;
* from these `Cursor.loop_eq`, by induction on that text: the tokens tile what is
  left of the source (`Tiles`), wherever the cursor was put.
-/
import MarkdownForest.Proofs.Rounds
import MarkdownForest.Proofs.ScanSlices
import MarkdownForest.Proofs.TokenPatterns

namespace MarkdownForest

set_option autoImplicit false

open Text

/-! ## Lexers -/

/-- What a lexer found in front of a text: a kind of token, or nothing that it knows, and how many
bytes that takes. -/
structure Found where
  kind : Option TokenKind
  bytes : Nat
  deriving DecidableEq, Repr

/-- The token of a kind, with what it carries cut out of its slice. -/
def TokenKind.token? (slice : List Char) : TokenKind → Option Token
  | text => some (.text slice)
  | spaces => some (.spaces slice)
  | hardBreak => some .hardBreak
  | softBreak => some .softBreak
  | escaped => do return .escaped (← (← sliceFrom? 1 slice).head?)
  | backslash => some .backslash
  | backticks => some (.backticks (utf8Length slice))
  | stars => some (.stars (utf8Length slice))
  | underscores => some (.underscores (utf8Length slice))
  | imageOpen => some .imageOpen
  | linkOpen => some .linkOpen
  | closeBracket => some .closeBracket
  | bang => some .bang
  | uriAutolink => do return .uriAutolink (← slice? 1 (utf8Length slice - 1) slice)
  | emailAutolink => do return .emailAutolink (← slice? 1 (utf8Length slice - 1) slice)
  | htmlTag => some (.htmlTag slice)
  | bracket => some .bracket

/-- The token of what was found; what was rejected is text. -/
def Found.token? (found : Found) (slice : List Char) : Option Token :=
  match found.kind with
  | none => some (.text slice)
  | some kind => kind.token? slice

/-- Takes the longest match, or rejects some text if nothing matches.  Which of several kinds that
match so much is found, and how much is rejected, is left open. -/
structure Found.TakesLongest (found : Found) (text ahead : List Char) : Prop where
  front : text <+: ahead
  filled : text ≠ []
  bytes : found.bytes = utf8Length text
  token : ∀ kind, found.kind = some kind → Longest kind text ahead
  rejected : found.kind = none → ∀ kind : TokenKind, ∀ s ∈ kind.pattern, ¬ s <+: ahead

/-- The lexer that finds what `lex` does; a stretch behind a bracket that begins like a tag and is
none is rejected. -/
def lexed (c : Char) (s : List Char) : Found where
  kind := if c = '<' ∧ (lex c s).token.kind = .text then none else some (lex c s).token.kind
  bytes := utf8Length (lex c s).text

/-- What is known of a lexer: in front of each text it takes the longest match, or behind a bracket
what the automaton takes. -/
def Lexes (find : Char → List Char → Found) : Prop :=
  ∀ c s, (∃ text, (find c s).TakesLongest text (c :: s)) ∨ c = '<' ∧ find c s = lexed c s

/-! ## The cursor -/

/-- A text that is read, and the byte of it that was come to. -/
structure Lexer where
  text : List Char
  position : Nat := 0

/-- A source, the byte that the cursor was put at, and what reads the source from there. -/
structure Cursor where
  source : List Char
  base : Nat := 0
  lexer : Lexer := ⟨source, 0⟩

section Reading

variable (find : Char → List Char → Found)

/-- The next token, if it is one, with its bytes; `none` at the end of the text. -/
def Lexer.next? (l : Lexer) : Option (Option ((Option Token × Nat × Nat) × Lexer)) := do
  match ← sliceFrom? l.position l.text with
  | [] => return none
  | c :: s =>
    let stop := l.position + (find c s).bytes
    let slice ← slice? l.position stop l.text
    let token ← match (find c s).kind with
      | none => some none
      | some kind => (kind.token? slice).map some
    return some ((token, l.position, stop), { l with position := stop })

namespace Cursor

/-- Puts the cursor at a byte, or at the end if that is behind it. -/
def seek? (c : Cursor) (position : Nat) : Option Cursor := do
  let position := min position (utf8Length c.source)
  let text ← sliceFrom? position c.source
  return { c with base := position, lexer := ⟨text, 0⟩ }

/-- The next token with its bytes in the source; `none` at the end. -/
def next? (c : Cursor) : Option (Option ((Token × Nat × Nat) × Cursor)) := do
  match ← c.lexer.next? find with
  | none => return none
  | some ((token, start, stop), lexer) =>
    let rejected ← slice? (c.base + start) (c.base + stop) c.source
    return some ((token.getD (.text rejected), c.base + start, c.base + stop), { c with lexer })

/-- One round: another token, or all of them at the end, or `none` if something went wrong. -/
def round : List (Token × Nat × Nat) × Cursor →
    Part (Option (List (Token × Nat × Nat)) ⊕ List (Token × Nat × Nat) × Cursor)
  | (found, c) =>
    match c.next? find with
    | none => .some (.inl none)
    | some none => .some (.inl (some found))
    | some (some (token, c)) => .some (.inr (found ++ [token], c))

/-- All tokens from here on. -/
def drain (c : Cursor) : Part (Option (List (Token × Nat × Nat))) :=
  Loop.run (round find) ([], c)

end Cursor

end Reading

/-! ## What a token says of its slice -/

/-- A run of a mark that what follows does not go on, with its length in bytes. -/
structure MaximalRun (mark : Char) (count : Nat) (text rest : List Char) : Prop where
  count : count = utf8Length text
  marks : ∀ c ∈ text, c = mark
  maximal : rest.head? ≠ some mark

/-- What a token says of its slice and of the text behind it. -/
def Token.Spells (slice rest : List Char) : Token → Prop
  | text s | spaces s | htmlTag s => s = slice
  | hardBreak => (∃ n, slice = List.replicate (n + 2) ' ' ++ ['\n']) ∨ slice = ['\\', '\n']
  | softBreak => slice = ['\n'] ∨ slice = [' ', '\n']
  | escaped c => slice = ['\\', c]
  | backslash => slice = ['\\']
  | backticks count => MaximalRun '\x60' count slice rest
  | stars count => MaximalRun '*' count slice rest
  | underscores count => MaximalRun '_' count slice rest
  | imageOpen => slice = ['!', '[']
  | linkOpen => slice = ['[']
  | closeBracket => slice = [']']
  | bang => slice = ['!']
  | uriAutolink s | emailAutolink s => slice = '<' :: (s ++ ['>'])
  | bracket => slice.head? = some '<'

/-- The tokens of a source from a byte on: each begins where the last one ended, is not empty, ends
where a character does, and is what it says; and the last one ends with the source. -/
def Tiles (source : List Char) : Nat → List (Token × Nat × Nat) → Prop
  | position, [] => position = utf8Length source
  | position, (token, start, stop) :: more =>
    start = position ∧ start < stop ∧
      (∃ slice rest, slice? start stop source = some slice ∧ sliceFrom? stop source = some rest ∧
        token.Spells slice rest) ∧
      Tiles source stop more

/-! ## One token -/

section Tokens

open TokenKind

variable {kind : TokenKind} {find : Char → List Char → Found} {c : Char}
  {s text text' rest rest' inside : List Char} {token token' : Token}

/-- A longest match of a run of marks is maximal. -/
theorem Longest.maximalRun {mark : Char} (h : Longest kind text (text ++ rest))
    (pattern : kind.pattern = Pattern.several (· == mark)) :
    MaximalRun mark (utf8Length text) text rest where
  count := rfl
  marks c hc := beq_iff_eq.mp ((pattern ▸ h.fits).2 c hc)
  maximal next := by
    obtain ⟨rest, rfl⟩ := List.head?_eq_some_iff.mp next
    have fits : text ++ [mark] ∈ kind.pattern := by
      have run := h.fits
      rw [pattern] at run ⊢
      refine ⟨by simp, fun c hc => ?_⟩
      rcases List.mem_append.mp hc with hc | hc
      · exact run.2 c hc
      · exact beq_iff_eq.mpr (List.mem_singleton.mp hc)
    have longer := h.longest kind (text ++ [mark]) fits ⟨rest, by simp⟩
    rw [List.length_append, List.length_singleton] at longer
    omega

/-- The token of a longest match is what it says. -/
theorem Longest.spells (h : Longest kind text (text ++ rest)) :
    ∃ token, kind.token? text = some token ∧ token.Spells text rest := by
  cases kind with
  | text => exact ⟨.text text, rfl, rfl⟩
  | spaces => exact ⟨.spaces text, rfl, rfl⟩
  | htmlTag => exact ⟨.htmlTag text, rfl, rfl⟩
  | hardBreak => exact ⟨.hardBreak, rfl, mem_hardBreak.mp h.fits⟩
  | softBreak => exact ⟨.softBreak, rfl, mem_softBreak.mp h.fits⟩
  | escaped =>
    obtain ⟨c, -, rfl⟩ := mem_escaped.mp h.fits
    have cut : sliceFrom? 1 ['\\', c] = some [c] := sliceFrom?_append ['\\'] [c]
    exact ⟨.escaped c, by simp [token?, cut], rfl⟩
  | backticks => exact ⟨.backticks _, rfl, h.maximalRun rfl⟩
  | stars => exact ⟨.stars _, rfl, h.maximalRun rfl⟩
  | underscores => exact ⟨.underscores _, rfl, h.maximalRun rfl⟩
  | backslash => exact ⟨.backslash, rfl, h.fits⟩
  | imageOpen => exact ⟨.imageOpen, rfl, h.fits⟩
  | linkOpen => exact ⟨.linkOpen, rfl, h.fits⟩
  | closeBracket => exact ⟨.closeBracket, rfl, h.fits⟩
  | bang => exact ⟨.bang, rfl, h.fits⟩
  | uriAutolink =>
    obtain ⟨inside, -, rfl⟩ := Pattern.mem_angled.mp h.fits
    exact ⟨.uriAutolink inside, by simp [token?, Sliced.slice?_angled], rfl⟩
  | emailAutolink =>
    obtain ⟨inside, -, rfl⟩ := Pattern.mem_angled.mp h.fits
    exact ⟨.emailAutolink inside, by simp [token?, Sliced.slice?_angled], rfl⟩
  | bracket =>
    obtain rfl := Pattern.mem_exactly.mp h.fits
    exact ⟨.bracket, rfl, rfl⟩

/-- Something is always found where the longest match is taken. -/
theorem Found.TakesLongest.kind_ne_none {found : Found}
    (h : found.TakesLongest text (c :: s)) : found.kind ≠ none := fun none => by
  obtain ⟨kind, matched, fits, front⟩ := exists_match c s
  exact h.rejected none kind matched fits front

/-- What a lexer takes from the text in front of it, and the token that this is. -/
structure Read (find : Char → List Char → Found) (c : Char) (s : List Char) (token : Token)
    (text rest : List Char) : Prop where
  tiles : c :: s = text ++ rest
  filled : text ≠ []
  bytes : (find c s).bytes = utf8Length text
  cut : (find c s).token? text = some token
  spells : token.Spells text rest

theorem Read.unique (h : Read find c s token text rest) (h' : Read find c s token' text' rest') :
    token = token' ∧ text = text' ∧ rest = rest' := by
  have cut := sliceTo?_append text' rest'
  rw [← h'.tiles, ← h'.bytes, h.bytes, h.tiles, sliceTo?_append] at cut
  obtain rfl := Option.some.inj cut
  exact ⟨Option.some.inj (h.cut.symm.trans h'.cut), rfl,
    List.append_cancel_left (h.tiles.symm.trans h'.tiles)⟩

theorem Found.TakesLongest.read (h : (find c s).TakesLongest text (c :: s)) :
    ∃ token rest, Read find c s token text rest := by
  obtain ⟨rest, tiles⟩ := h.front
  obtain ⟨kind, found⟩ := Option.ne_none_iff_exists'.mp h.kind_ne_none
  have longest := h.token kind found
  rw [← tiles] at longest
  obtain ⟨token, cut, spells⟩ := longest.spells
  exact ⟨token, rest, tiles.symm, h.filled, h.bytes, by rw [Found.token?, found]; exact cut, spells⟩

/-- The count of a run of marks of one byte is its length in bytes. -/
theorem utf8Length_run (mark : Char) (byte : mark.utf8Size = 1) (s : List Char) :
    utf8Length (mark :: s.takeWhile (· == mark)) = (mark :: s.takeWhile (· == mark)).length := by
  have marks : Narrow (s.takeWhile (· == mark)) := narrow_takeWhile (fun c hc => by
    rw [beq_iff_eq.mp hc, byte]) s
  exact ((narrow_singleton byte).append marks).utf8Length_eq

/-- Behind a bracket as well, what a token carries is cut out of its slice. -/
theorem read_ofAngle (s : List Char) :
    let x := Lexeme.ofAngle s
    x.token.kind.token? x.text = some x.token ∧ x.token.Spells x.text x.rest := by
  cases h : (angleRun 0 ['<'] s).1 with
  | text | tag => simp [Lexeme.ofAngle, h, Lexeme.angleToken, Token.kind, token?, Token.Spells]
  | bracket =>
    have first := congrArg List.head? (lex_append '<' s)
    rw [List.head?_append_of_ne_nil _ (lex_text_ne_nil '<' s)] at first
    simpa [lex, Lexeme.ofAngle, h, Lexeme.angleToken, Token.kind, token?, Token.Spells] using first
  | uri | email =>
    obtain ⟨inside, e, -, -⟩ := Lexeme.autolink_eq (s := s) (by rw [h]; rfl)
    simp [Lexeme.ofAngle, h, Lexeme.angleToken, Token.kind, token?, Token.Spells, e,
      Sliced.slice?_angled]

theorem token?_lex (c : Char) (s : List Char) :
    (lex c s).token.kind.token? (lex c s).text = some (lex c s).token := by
  unfold lex
  split
  · unfold Lexeme.ofSpace
    dsimp only
    split
    · split <;> rfl
    · rfl
  · rfl
  · unfold Lexeme.ofBackslash
    split
    · rfl
    · rename_i c _
      have cut : sliceFrom? 1 ['\\', c] = some [c] := sliceFrom?_append ['\\'] [c]
      split_ifs <;> simp [Token.kind, token?, cut]
  · exact congrArg (some ∘ Token.backticks) (utf8Length_run '\x60' rfl s)
  · exact congrArg (some ∘ Token.stars) (utf8Length_run '*' rfl s)
  · exact congrArg (some ∘ Token.underscores) (utf8Length_run '_' rfl s)
  · rfl
  · rfl
  · split <;> rfl
  · exact (read_ofAngle s).1
  · rfl

theorem read_lexed (c : Char) (s : List Char) :
    Read lexed c s (lex c s).token (lex c s).text (lex c s).rest := by
  refine ⟨(lex_append c s).symm, lex_text_ne_nil c s, rfl, ?_, ?_⟩
  · unfold Found.token? lexed
    dsimp only
    rw [← token?_lex]
    split_ifs with rejected
    · rw [rejected.2]
      rfl
    · rfl
  · by_cases angle : c = '<'
    · subst angle
      exact (read_ofAngle s).2
    · have longest := longest_lex angle s
      rw [← lex_append c s] at longest
      obtain ⟨token, cut, spells⟩ := longest.spells
      rw [token?_lex] at cut
      exact Option.some.inj cut ▸ spells

theorem lexes_lexed : Lexes lexed := by
  intro c s
  by_cases angle : c = '<'
  · exact .inr ⟨angle, rfl⟩
  · have longest := longest_lex angle s
    have kind : (lexed c s).kind = some (lex c s).token.kind := if_neg fun both => angle both.1
    refine .inl ⟨(lex c s).text, longest.front, lex_text_ne_nil c s, rfl, fun k e => ?_, ?_⟩
    · obtain rfl := Option.some.inj (kind.symm.trans e)
      exact longest
    · rw [kind]
      nofun

theorem Lexes.read (h : Lexes find) (c : Char) (s : List Char) :
    ∃ token text rest, Read find c s token text rest := by
  rcases h c s with ⟨text, longest⟩ | ⟨-, same⟩
  · obtain ⟨token, rest, read⟩ := longest.read
    exact ⟨token, text, rest, read⟩
  · obtain ⟨tiles, filled, bytes, cut, spells⟩ := read_lexed c s
    exact ⟨_, _, _, tiles, filled, same ▸ bytes, same ▸ cut, spells⟩

end Tokens

/-! ## Token after token -/

theorem seekByte_append (s t : List Char) : seekByte (utf8Length s) (s ++ t) = t := by
  induction s with
  | nil => cases t <;> simp [seekByte, utf8Length]
  | cons c s ih =>
    have := c.utf8Size_pos
    rw [utf8Length, List.cons_append, seekByte, if_neg (by omega), Nat.add_sub_cancel_left, ih]

namespace Cursor

/-- A cursor that was put behind `pre` and has read `seg` since, with `rest` in front of it. -/
structure At (cursor : Cursor) (pre seg rest : List Char) : Prop where
  source : cursor.source = pre ++ (seg ++ rest)
  base : cursor.base = utf8Length pre
  text : cursor.lexer.text = seg ++ rest
  position : cursor.lexer.position = utf8Length seg

section Steps

variable {find : Char → List Char → Found} {cursor : Cursor} {c : Char}
  {pre seg s text rest : List Char} {token : Token}

theorem next?_nil (h : cursor.At pre seg []) : cursor.next? find = some none := by
  have ahead : sliceFrom? cursor.lexer.position cursor.lexer.text = some [] := by
    rw [h.position, h.text]
    exact sliceFrom?_append seg []
  simp [next?, Lexer.next?, ahead]

/-- The next token is that of the text in front, with its bytes in the source. -/
theorem next?_eq (h : cursor.At pre seg (c :: s)) (read : Read find c s token text rest) :
    ∃ next, cursor.next? find = some (some ((token, utf8Length (pre ++ seg),
        utf8Length (pre ++ seg) + utf8Length text), next)) ∧
      next.At pre (seg ++ text) rest := by
  have source : cursor.source = (pre ++ seg) ++ text ++ rest := by
    rw [h.source, read.tiles]
    simp
  have ahead : sliceFrom? cursor.lexer.position cursor.lexer.text = some (c :: s) := by
    rw [h.position, h.text]
    exact sliceFrom?_append seg (c :: s)
  have slice : slice? cursor.lexer.position (cursor.lexer.position + (find c s).bytes)
      cursor.lexer.text = some text := by
    rw [h.position, h.text, read.bytes, read.tiles, ← List.append_assoc]
    exact slice?_append seg text rest
  have start : cursor.base + cursor.lexer.position = utf8Length (pre ++ seg) := by
    rw [h.base, h.position, utf8Length_append]
  have stop : cursor.base + (cursor.lexer.position + (find c s).bytes) =
      utf8Length (pre ++ seg) + utf8Length text := by
    rw [← Nat.add_assoc, start, read.bytes]
  have rejected : slice? (utf8Length (pre ++ seg)) (utf8Length (pre ++ seg) + utf8Length text)
      cursor.source = some text := by
    rw [source]
    exact slice?_append (pre ++ seg) text rest
  have cut := read.cut
  refine ⟨{ cursor with lexer := { cursor.lexer with position :=
    cursor.lexer.position + (find c s).bytes } }, ?_, ?_⟩
  · unfold next? Lexer.next?
    rw [Found.token?] at cut
    cases kind : (find c s).kind with
    | none =>
      rw [kind] at cut
      obtain rfl := Option.some.inj cut
      simp [ahead, slice, kind, start, stop, rejected]
    | some kind' =>
      rw [kind] at cut
      have token : kind'.token? text = some token := cut
      simp [ahead, slice, kind, token, start, stop, rejected]
  · exact ⟨by rw [source]; simp, h.base, by rw [h.text, read.tiles, List.append_assoc],
      by rw [utf8Length_append, ← h.position, ← read.bytes]⟩

/-- From anywhere in the source the loop comes to an end, and its tokens tile what is left. -/
theorem loop_eq (lexes : Lexes find) (h : cursor.At pre seg rest)
    (found : List (Token × Nat × Nat)) :
    ∃ more, Loop.run (round find) (found, cursor) = .some (some (found ++ more)) ∧
      Tiles cursor.source (utf8Length (pre ++ seg)) more ∧
      (find = lexed → more = tokensFrom (utf8Length (pre ++ seg)) rest) := by
  induction bound : rest.length using Nat.strong_induction_on
    generalizing cursor seg rest found with
  | _ n ih =>
    cases rest with
    | nil =>
      refine ⟨[], ?_, ?_, fun _ => by rw [tokensFrom]⟩
      · apply Loop.run_over
        rw [round, next?_nil h, List.append_nil]
      · rw [Tiles, h.source, List.append_nil]
    | cons c s =>
      obtain ⟨token, text, rest, read⟩ := lexes.read c s
      obtain ⟨next, stepped, there⟩ := next?_eq h read
      have shorter : rest.length < n := by
        have := List.length_pos_iff.mpr read.filled
        have := congrArg List.length read.tiles
        rw [List.length_append] at this
        omega
      let entry := (token, utf8Length (pre ++ seg), utf8Length (pre ++ seg) + utf8Length text)
      obtain ⟨more, run, tiles, same⟩ := ih _ shorter there (found ++ [entry]) rfl
      have source : next.source = (pre ++ seg) ++ text ++ rest := by
        rw [there.source]
        simp
      have kept : next.source = cursor.source := by
        rw [source, h.source, read.tiles]
        simp
      have stop : utf8Length (pre ++ (seg ++ text)) =
          utf8Length (pre ++ seg) + utf8Length text := by
        rw [← List.append_assoc, utf8Length_append]
      rw [stop] at tiles same
      refine ⟨entry :: more, ?_, ⟨rfl, ?_, ⟨text, rest, ?_, ?_, read.spells⟩, kept ▸ tiles⟩,
        fun e => ?_⟩
      · have stepped : round find (found, cursor) = .some (.inr (found ++ [entry], next)) := by
          rw [round, stepped]
        rw [Loop.run_next stepped, run, List.append_assoc, List.singleton_append]
      · have := length_le_utf8Length text
        have := List.length_pos_iff.mpr read.filled
        omega
      · rw [← kept, source]
        exact slice?_append (pre ++ seg) text rest
      · rw [← kept, source, ← utf8Length_append]
        exact sliceFrom?_append (pre ++ seg ++ text) rest
      · subst e
        obtain ⟨rfl, rfl, rfl⟩ := read.unique (read_lexed c s)
        rw [tokensFrom, same rfl]

end Steps

/-- Wherever it was put, a cursor gives tokens that tile the source from there. -/
theorem seek_tiles {find : Char → List Char → Found} (lexes : Lexes find) (cursor : Cursor)
    {position : Nat} (boundary : (sliceFrom? position cursor.source).isSome) :
    ∃ started found, cursor.seek? position = some started ∧
      started.drain find = .some (some found) ∧ Tiles cursor.source position found ∧
      (find = lexed → found = tokens cursor.source position) := by
  obtain ⟨rest, cut⟩ := Option.isSome_iff_exists.mp boundary
  obtain ⟨pre, source, rfl⟩ := sliceFrom?_eq_some.mp cut
  have within : min (utf8Length pre) (utf8Length cursor.source) = utf8Length pre := by
    rw [source, utf8Length_append]
    exact Nat.min_eq_left (Nat.le_add_right ..)
  have there : At { cursor with base := utf8Length pre, lexer := ⟨rest, 0⟩ } pre [] rest :=
    ⟨source, rfl, rfl, rfl⟩
  obtain ⟨found, run, tiles, same⟩ := loop_eq lexes there []
  rw [List.append_nil] at tiles same
  refine ⟨_, found, ?_, run, tiles, fun e => ?_⟩
  · simp [seek?, within, cut]
  · rw [same e, tokens, within, source, seekByte_append]

/-- Put into a run of backticks, behind what it has read, a cursor goes on with the rest of the
run. -/
theorem seek_tiles_inside :
    let source := "\x60\x60é <b@c>\\*  \n<a b".toList
    let cursor : Cursor := { source, base := 5, lexer := ⟨"<b@c>".toList, 3⟩ }
    Lexes lexed ∧ (sliceFrom? 1 source).isSome ∧
      ∃ started found, cursor.seek? 1 = some started ∧
        started.drain lexed = .some (some found) ∧ Tiles source 1 found ∧
        found = [(.backticks 1, 1, 2), (.text ['é'], 2, 4), (.spaces [' '], 4, 5),
          (.emailAutolink ['b', '@', 'c'], 5, 10), (.escaped '*', 10, 12), (.hardBreak, 12, 15),
          (.text ['<', 'a', ' ', 'b'], 15, 19)] := by
  intro source cursor
  have boundary : (sliceFrom? 1 source).isSome := by decide
  obtain ⟨started, found, put, drained, tiles, same⟩ :=
    seek_tiles lexes_lexed cursor boundary
  exact ⟨lexes_lexed, boundary, started, found, put, drained, tiles,
    (same rfl).trans (by decide +kernel)⟩

end Cursor

end MarkdownForest
