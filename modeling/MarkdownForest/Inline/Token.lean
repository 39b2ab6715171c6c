/-
# MarkdownForest.Inline.Token -- the tokens of a paragraph

Inline text is cut into tokens, each the longest that begins where the last one
ended: runs of delimiters, runs of spaces, breaks, escapes, brackets, what an
angle bracket begins, and text between them.  A run of spaces before a line feed
belongs to the break; two or more make it a hard one.

A lexeme is a token with its characters and the rest.  Lexemes tile the text
(`lex_append`), and none is empty (`length_lex_rest_le`).
-/
import MarkdownForest.Inline.Angle
import MarkdownForest.Text.Punctuation
import MarkdownForest.Text.Utf8

namespace MarkdownForest

set_option autoImplicit false

open Text

inductive Token where
  | text (s : List Char)
  | spaces (s : List Char)
  | hardBreak
  | softBreak
  | escaped (c : Char)
  | backslash
  | backticks (count : Nat)
  | stars (count : Nat)
  | underscores (count : Nat)
  | imageOpen
  | linkOpen
  | closeBracket
  | bang
  | uriAutolink (url : List Char)
  | emailAutolink (address : List Char)
  | htmlTag (raw : List Char)
  | bracket
  deriving DecidableEq, Repr

/-- A token, its characters, and the text after it. -/
structure Lexeme where
  token : Token
  text : List Char
  rest : List Char
  deriving Repr

namespace Lexeme

/-- The characters that never end a text token. -/
def isPlain (c : Char) : Bool :=
  !(c == '\\' || c == '\x60' || c == '*' || c == '_' || c == '[' || c == ']' || c == '!' ||
    c == '<' || c == '\n' || c == ' ')

/-- The lexeme of the characters of `c :: s` that satisfy `p`, after the first. -/
def run (p : Char → Bool) (token : List Char → Token) (c : Char) (s : List Char) : Lexeme :=
  let text := c :: s.takeWhile p
  ⟨token text, text, s.dropWhile p⟩

/-- The lexeme of a space and what follows it. -/
def ofSpace (s : List Char) : Lexeme :=
  let more := s.takeWhile (· == ' ')
  match s.dropWhile (· == ' ') with
  | '\n' :: rest =>
    ⟨if more.isEmpty then .softBreak else .hardBreak, ' ' :: more ++ ['\n'], rest⟩
  | rest => ⟨.spaces (' ' :: more), ' ' :: more, rest⟩

/-- The lexeme of a backslash and what follows it. -/
def ofBackslash : List Char → Lexeme
  | [] => ⟨.backslash, ['\\'], []⟩
  | c :: s =>
    if c = '\n' then ⟨.hardBreak, ['\\', c], s⟩
    else if isAsciiPunctuation c then ⟨.escaped c, ['\\', c], s⟩
    else ⟨.backslash, ['\\'], c :: s⟩

/-- The token of an angle bracket from its characters. -/
def angleToken (found : AngleEnd) (text : List Char) : Token :=
  match found with
  | .bracket => .bracket
  | .text => .text text
  | .uri => .uriAutolink (text.drop 1).dropLast
  | .email => .emailAutolink (text.drop 1).dropLast
  | .tag => .htmlTag text

/-- The lexeme of an angle bracket and what follows it. -/
def ofAngle (s : List Char) : Lexeme :=
  let (found, taken, rest) := angleRun 0 ['<'] s
  ⟨angleToken found taken.reverse, taken.reverse, rest⟩

end Lexeme

open Lexeme in
/-- The first lexeme of the text `c :: s`. -/
def lex (c : Char) (s : List Char) : Lexeme :=
  match c with
  | ' ' => ofSpace s
  | '\n' => ⟨.softBreak, ['\n'], s⟩
  | '\\' => ofBackslash s
  | '\x60' => run (· == '\x60') (fun t => .backticks t.length) c s
  | '*' => run (· == '*') (fun t => .stars t.length) c s
  | '_' => run (· == '_') (fun t => .underscores t.length) c s
  | '[' => ⟨.linkOpen, [c], s⟩
  | ']' => ⟨.closeBracket, [c], s⟩
  | '!' =>
    match s with
    | '[' :: rest => ⟨.imageOpen, ['!', '['], rest⟩
    | rest => ⟨.bang, ['!'], rest⟩
  | '<' => ofAngle s
  | c => run isPlain .text c s

namespace Lexeme

theorem run_append (p : Char → Bool) (token : List Char → Token) (c : Char) (s : List Char) :
    (run p token c s).text ++ (run p token c s).rest = c :: s := by
  simp [run]

theorem ofSpace_append (s : List Char) : (ofSpace s).text ++ (ofSpace s).rest = ' ' :: s := by
  have h := List.takeWhile_append_dropWhile (p := (· == ' ')) (l := s)
  unfold ofSpace
  split
  · next rest hr => rw [hr] at h; simpa using h
  · simp [h]

theorem ofBackslash_append (s : List Char) :
    (ofBackslash s).text ++ (ofBackslash s).rest = '\\' :: s := by
  unfold ofBackslash
  split
  · rfl
  · split
    · rfl
    · split <;> rfl

theorem ofAngle_append (s : List Char) : (ofAngle s).text ++ (ofAngle s).rest = '<' :: s :=
  angleRun_append 0 ['<'] s

end Lexeme

open Lexeme in
/-- Lexemes tile the text. -/
theorem lex_append (c : Char) (s : List Char) : (lex c s).text ++ (lex c s).rest = c :: s := by
  unfold lex
  split
  · exact ofSpace_append s
  · rfl
  · exact ofBackslash_append s
  · exact run_append ..
  · exact run_append ..
  · exact run_append ..
  · rfl
  · rfl
  · split <;> rfl
  · exact ofAngle_append s
  · exact run_append ..

open Lexeme in
theorem lex_text_ne_nil (c : Char) (s : List Char) : (lex c s).text ≠ [] := by
  unfold lex
  split
  · unfold ofSpace; dsimp only; split <;> simp
  · simp
  · unfold ofBackslash; split
    · simp
    · split
      · simp
      · split <;> simp
  · simp [run]
  · simp [run]
  · simp [run]
  · simp
  · simp
  · split <;> simp
  · simpa [ofAngle] using angleRun_ne_nil 0 ['<'] s (by decide)
  · simp [run]

theorem length_lex_rest_le (c : Char) (s : List Char) : (lex c s).rest.length ≤ s.length := by
  have h := congrArg List.length (lex_append c s)
  have := List.length_pos_iff.mpr (lex_text_ne_nil c s)
  simp only [List.length_append, List.length_cons] at h
  omega

/-- All tokens of a text that begins at the byte `start`, with the bytes each spans. -/
def tokensFrom (start : Nat) (s : List Char) : List (Token × Nat × Nat) :=
  match s with
  | [] => []
  | c :: s =>
    let x := lex c s
    let stop := start + utf8Length x.text
    (x.token, start, stop) :: tokensFrom stop x.rest
termination_by s.length
decreasing_by
  have := length_lex_rest_le c s
  simp only [List.length_cons]
  omega

/-- The text from a byte on.  A position inside a character stands for the next one, and one past
the end for the end. -/
def seekByte (position : Nat) (s : List Char) : List Char :=
  match s with
  | [] => []
  | c :: s => if position = 0 then c :: s else seekByte (position - c.utf8Size) s

/-- The tokens of a text from a byte on. -/
def tokens (source : List Char) (position : Nat) : List (Token × Nat × Nat) :=
  tokensFrom (min position (utf8Length source)) (seekByte position source)

end MarkdownForest
