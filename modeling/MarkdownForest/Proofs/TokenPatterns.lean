/-
# MarkdownForest.Proofs.TokenPatterns -- the patterns of tokens

Each kind of token has a pattern, a regular language (`TokenKind.pattern`).  The
patterns overlap: spaces may belong to a break, a backslash to an escape or a
break, and five forms begin with an angle bracket.  Of all that match at the front
of a text the longest is to be taken (`Longest`).

Behind anything but an angle bracket `lex` takes the longest match
(`longest_lex`).  From the first character of a match its kind is all but known
(`begins`), and for each of these kinds its extent is (`length_le_of_run`).
Something always matches, so that nothing would ever have to be rejected
(`exists_match`).
-/
import MarkdownForest.Proofs.ByteSlices
import MarkdownForest.Proofs.WrittenAutolinks
import Mathlib.Computability.Language

namespace MarkdownForest

set_option autoImplicit false

open Text CommonMark Computability

/-- What a token is, whatever it carries. -/
inductive TokenKind where
  | text | spaces | hardBreak | softBreak | escaped | backslash | backticks | stars | underscores
  | imageOpen | linkOpen | closeBracket | bang | uriAutolink | emailAutolink | htmlTag | bracket
  deriving DecidableEq, Repr

def Token.kind : Token → TokenKind
  | text _ => .text
  | spaces _ => .spaces
  | hardBreak => .hardBreak
  | softBreak => .softBreak
  | escaped _ => .escaped
  | backslash => .backslash
  | backticks _ => .backticks
  | stars _ => .stars
  | underscores _ => .underscores
  | imageOpen => .imageOpen
  | linkOpen => .linkOpen
  | closeBracket => .closeBracket
  | bang => .bang
  | uriAutolink _ => .uriAutolink
  | emailAutolink _ => .emailAutolink
  | htmlTag _ => .htmlTag
  | bracket => .bracket

/-! ## Patterns -/

namespace Pattern

def exactly (s : List Char) : Language Char := {t | t = s}

/-- One character of a class. -/
def one (p : Char → Bool) : Language Char := {t | ∃ c, p c ∧ t = [c]}

/-- Any number of characters of a class. -/
def many (p : Char → Bool) : Language Char := {t | ∀ c ∈ t, p c}

/-- One character of a class or more. -/
def several (p : Char → Bool) : Language Char := {t | t ≠ [] ∧ ∀ c ∈ t, p c}

def optional (l : Language Char) : Language Char := 1 + l

/-- What stands between angle brackets. -/
def angled (l : Language Char) : Language Char := exactly ['<'] * l * exactly ['>']

/-! ### What stands between angle brackets -/

def isBlankChar (c : Char) : Bool := c == ' ' || c == '\n'

/-- The characters of a value of an attribute without quotes. -/
def isBareValue (c : Char) : Bool :=
  !(c == ' ' || c == '\n' || c == '\x22' || c == '\x27' || c == '=' || c == '<' || c == '>' ||
    c == '\x60')

def uri : Language Char :=
  one Char.isAlpha * several isSchemeChar * exactly [':'] * many isAddressRest

def email : Language Char :=
  several isMailChar * exactly ['@'] * several isLabelChar *
    (exactly ['.'] * several isLabelChar)∗

def tagName : Language Char := one Char.isAlpha * many isLabelChar

def value : Language Char :=
  several isBareValue + exactly ['\x27'] * many (· != '\x27') * exactly ['\x27'] +
    exactly ['\x22'] * many (· != '\x22') * exactly ['\x22']

def tagAttribute : Language Char :=
  several isBlankChar * one (fun c => c.isAlpha || c == '_' || c == ':') *
    many (fun c => c.isAlphanum || c == '_' || c == '.' || c == ':' || c == '-') *
    optional (many isBlankChar * exactly ['='] * many isBlankChar * value)

def openTag : Language Char :=
  tagName * tagAttribute∗ * many isBlankChar * optional (exactly ['/'])

def closeTag : Language Char := exactly ['/'] * tagName * many isBlankChar

def comment : Language Char :=
  exactly ['!', '-', '-'] * (one (· != '-') + exactly ['-'] * one (· != '-'))∗ *
    exactly ['-', '-']

variable {s : List Char} {p : Char → Bool} {l : Language Char}

@[simp] theorem mem_exactly {t : List Char} : t ∈ exactly s ↔ t = s := Iff.rfl

@[simp] theorem mem_one : s ∈ one p ↔ ∃ c, p c ∧ s = [c] := Iff.rfl

@[simp] theorem mem_many : s ∈ many p ↔ ∀ c ∈ s, p c := Iff.rfl

@[simp] theorem mem_several : s ∈ several p ↔ s ≠ [] ∧ ∀ c ∈ s, p c := Iff.rfl

@[simp] theorem mem_optional : s ∈ optional l ↔ s = [] ∨ s ∈ l := Iff.rfl

theorem mem_angled : s ∈ angled l ↔ ∃ inside ∈ l, s = '<' :: (inside ++ ['>']) := by
  simp [angled, Language.mem_mul, eq_comm]

theorem mem_run {c : Char} : s ∈ several (· == c) ↔ ∃ n, s = List.replicate (n + 1) c := by
  refine ⟨fun ⟨filled, all⟩ => ?_, ?_⟩
  · obtain ⟨n, length⟩ := Nat.exists_eq_succ_of_ne_zero (mt List.eq_nil_of_length_eq_zero filled)
    exact ⟨n, List.eq_replicate_iff.mpr ⟨length, fun d hd => beq_iff_eq.mp (all d hd)⟩⟩
  · rintro ⟨n, rfl⟩
    exact ⟨by simp, fun d hd => beq_iff_eq.mpr (List.eq_of_mem_replicate hd)⟩

end Pattern

namespace TokenKind

open Pattern

/-- The pattern of a kind of token. -/
def pattern : TokenKind → Language Char
  | text => several Lexeme.isPlain
  | spaces => several (· == ' ')
  | hardBreak => exactly [' '] * several (· == ' ') * exactly ['\n'] + exactly ['\\', '\n']
  | softBreak => optional (exactly [' ']) * exactly ['\n']
  | escaped => exactly ['\\'] * one isAsciiPunctuation
  | backslash => exactly ['\\']
  | backticks => several (· == '\x60')
  | stars => several (· == '*')
  | underscores => several (· == '_')
  | imageOpen => exactly ['!', '[']
  | linkOpen => exactly ['[']
  | closeBracket => exactly [']']
  | bang => exactly ['!']
  | uriAutolink => angled uri
  | emailAutolink => angled email
  | htmlTag => angled openTag + angled closeTag + angled comment
  | bracket => exactly ['<']

/-- The characters that a token of a kind may begin with. -/
def mayBegin : TokenKind → Char → Bool
  | text, c => Lexeme.isPlain c
  | spaces, c => c == ' '
  | hardBreak, c => c == ' ' || c == '\\'
  | softBreak, c => c == ' ' || c == '\n'
  | escaped, c | backslash, c => c == '\\'
  | backticks, c => c == '\x60'
  | stars, c => c == '*'
  | underscores, c => c == '_'
  | imageOpen, c | bang, c => c == '!'
  | linkOpen, c => c == '['
  | closeBracket, c => c == ']'
  | uriAutolink, c | emailAutolink, c | htmlTag, c | bracket, c => c == '<'

theorem mem_hardBreak {s : List Char} : s ∈ hardBreak.pattern ↔
    (∃ n, s = List.replicate (n + 2) ' ' ++ ['\n']) ∨ s = ['\\', '\n'] := by
  simp only [pattern, Language.mem_add, Language.mem_mul, mem_run, mem_exactly]
  refine or_congr_left ⟨?_, ?_⟩
  · rintro ⟨_, ⟨_, rfl, _, ⟨n, rfl⟩, rfl⟩, _, rfl, rfl⟩
    exact ⟨n, rfl⟩
  · rintro ⟨n, rfl⟩
    exact ⟨_, ⟨_, rfl, _, ⟨n, rfl⟩, rfl⟩, _, rfl, rfl⟩

theorem mem_softBreak {s : List Char} :
    s ∈ softBreak.pattern ↔ s = ['\n'] ∨ s = [' ', '\n'] := by
  simp [pattern, Language.mem_mul, eq_comm]

theorem mem_escaped {s : List Char} :
    s ∈ escaped.pattern ↔ ∃ c, isAsciiPunctuation c ∧ s = ['\\', c] := by
  simp only [pattern, Language.mem_mul, mem_exactly, mem_one]
  constructor
  · rintro ⟨_, rfl, _, ⟨c, punctuation, rfl⟩, rfl⟩
    exact ⟨c, punctuation, rfl⟩
  · rintro ⟨c, punctuation, rfl⟩
    exact ⟨_, rfl, _, ⟨c, punctuation, rfl⟩, rfl⟩

/-- A match is not empty, and its first character allows its kind. -/
theorem begins {kind : TokenKind} {s : List Char} (h : s ∈ kind.pattern) :
    ∃ c t, s = c :: t ∧ kind.mayBegin c := by
  cases kind with
  | text =>
    obtain ⟨c, t, rfl⟩ := List.exists_cons_of_ne_nil h.1
    exact ⟨c, t, rfl, h.2 c (by simp)⟩
  | spaces | backticks | stars | underscores =>
    obtain ⟨n, rfl⟩ := mem_run.mp h
    exact ⟨_, _, List.replicate_succ, rfl⟩
  | hardBreak =>
    rcases mem_hardBreak.mp h with ⟨n, rfl⟩ | rfl
    · exact ⟨_, _, rfl, rfl⟩
    · exact ⟨_, _, rfl, rfl⟩
  | softBreak =>
    rcases mem_softBreak.mp h with rfl | rfl
    · exact ⟨_, _, rfl, rfl⟩
    · exact ⟨_, _, rfl, rfl⟩
  | escaped =>
    obtain ⟨c, -, rfl⟩ := mem_escaped.mp h
    exact ⟨_, _, rfl, rfl⟩
  | backslash | imageOpen | linkOpen | closeBracket | bang | bracket =>
    obtain rfl := mem_exactly.mp h
    exact ⟨_, _, rfl, rfl⟩
  | uriAutolink | emailAutolink =>
    obtain ⟨inside, -, rfl⟩ := mem_angled.mp h
    exact ⟨_, _, rfl, rfl⟩
  | htmlTag =>
    rcases h with (h | h) | h <;> obtain ⟨inside, -, rfl⟩ := mem_angled.mp h
    all_goals exact ⟨_, _, rfl, rfl⟩

end TokenKind

/-! ## Longest matches -/

/-- A match at the front of a text than which no other is longer.  Where several patterns match so
much, it is left open which of them is meant. -/
structure Longest (kind : TokenKind) (text ahead : List Char) : Prop where
  fits : text ∈ kind.pattern
  front : text <+: ahead
  longest : ∀ other : TokenKind, ∀ s ∈ other.pattern, s <+: ahead → s.length ≤ text.length

section LongestMatches

open TokenKind Pattern

variable {kind : TokenKind} {p : Char → Bool} {c : Char} {s t u : List Char}

theorem begins_front (h : u ∈ kind.pattern) (front : u <+: c :: s) :
    ∃ t, u = c :: t ∧ t <+: s ∧ kind.mayBegin c := by
  obtain ⟨d, t, rfl, first⟩ := begins h
  obtain ⟨rfl, behind⟩ := List.cons_prefix_cons.mp front
  exact ⟨t, rfl, behind, first⟩

theorem length_le_takeWhile (front : t <+: s) (all : ∀ c ∈ t, p c) :
    t.length ≤ (s.takeWhile p).length := by
  obtain ⟨v, rfl⟩ := front
  rw [List.takeWhile_append_of_pos all, List.length_append]
  exact Nat.le_add_right ..

/-- A run is as long as can be where nothing but a run may begin. -/
theorem longest_run (kind : TokenKind) (pattern : kind.pattern = several p) (hc : p c)
    (only : ∀ other : TokenKind, other.mayBegin c → other = kind) (s : List Char) :
    Longest kind (c :: s.takeWhile p) (c :: s) where
  fits := by
    rw [pattern]
    exact ⟨List.cons_ne_nil _ _, List.forall_mem_cons.mpr ⟨hc, fun _ => List.mem_takeWhile_imp⟩⟩
  front := List.cons_prefix_cons.mpr ⟨rfl, List.takeWhile_prefix p⟩
  longest other u hu front := by
    obtain ⟨t, rfl, behind, first⟩ := begins_front hu front
    rw [only other first, pattern] at hu
    exact Nat.succ_le_succ
      (length_le_takeWhile behind fun d hd => hu.2 d (List.mem_cons_of_mem c hd))

theorem longest_single (kind : TokenKind) (pattern : kind.pattern = exactly [c])
    (only : ∀ other : TokenKind, other.mayBegin c → other = kind) (s : List Char) :
    Longest kind [c] (c :: s) where
  fits := by rw [pattern]; rfl
  front := ⟨s, rfl⟩
  longest other u hu front := by
    obtain ⟨t, rfl, -, first⟩ := begins_front hu front
    rw [only other first, pattern] at hu
    exact Nat.le_of_eq (congrArg List.length (mem_exactly.mp hu))

/-- A break that begins with a space is a run of spaces and a line feed. -/
theorem break_of_space (h : ' ' :: t ∈ hardBreak.pattern ∨ ' ' :: t ∈ softBreak.pattern) :
    ∃ n, t = List.replicate n ' ' ++ ['\n'] := by
  rcases h with h | h
  · rcases mem_hardBreak.mp h with ⟨n, e⟩ | e
    · exact ⟨n + 1, (List.cons.inj e).2⟩
    · exact absurd (List.cons.inj e).1 (by decide)
  · rcases mem_softBreak.mp h with e | e
    · exact absurd (List.cons.inj e).1 (by decide)
    · exact ⟨0, (List.cons.inj e).2⟩

/-- What a break that begins with a space says of the text behind the space. -/
theorem spaces_of_break {n : Nat} (front : List.replicate n ' ' ++ ['\n'] <+: s) :
    (s.takeWhile (· == ' ')).length = n ∧ (s.dropWhile (· == ' ')).head? = some '\n' := by
  obtain ⟨v, rfl⟩ := front
  have run : ∀ c ∈ List.replicate n ' ', (c == ' ') = true := fun c hc => by
    rw [List.eq_of_mem_replicate hc]
    rfl
  rw [List.append_assoc, List.takeWhile_append_of_pos run, List.dropWhile_append_of_pos run]
  simp

/-- What begins with a space: spaces to the end of their run, or a break where a line feed
follows. -/
theorem front_of_space (h : u ∈ kind.pattern) (front : u <+: ' ' :: s) :
    u.length ≤ (s.takeWhile (· == ' ')).length + 1 ∨
      u.length = (s.takeWhile (· == ' ')).length + 2 ∧
        (s.dropWhile (· == ' ')).head? = some '\n' := by
  obtain ⟨t, rfl, behind, first⟩ := begins_front h front
  cases kind with
  | spaces =>
    exact .inl (Nat.succ_le_succ
      (length_le_takeWhile behind fun d hd => h.2 d (List.mem_cons_of_mem ' ' hd)))
  | hardBreak | softBreak =>
    obtain ⟨n, rfl⟩ := break_of_space (by first | exact .inl h | exact .inr h)
    obtain ⟨run, feed⟩ := spaces_of_break behind
    exact .inr ⟨by simp [run], feed⟩
  | _ => cases first

theorem longest_ofSpace (s : List Char) :
    Longest (Lexeme.ofSpace s).token.kind (Lexeme.ofSpace s).text (' ' :: s) := by
  have spaces := takeWhile_eq_replicate ' ' s
  refine ⟨?_, ⟨_, Lexeme.ofSpace_append s⟩, fun other u hu front => ?_⟩
  · unfold Lexeme.ofSpace
    dsimp only
    generalize s.takeWhile (· == ' ') = more at spaces
    rw [spaces]
    split
    · cases more with
      | nil => exact mem_softBreak.mpr (.inr rfl)
      | cons d more => exact mem_hardBreak.mpr (.inl ⟨more.length, rfl⟩)
    · exact mem_run.mpr ⟨more.length, rfl⟩
  · have extent := front_of_space hu front
    unfold Lexeme.ofSpace
    dsimp only
    split
    · simp only [List.cons_append, List.length_cons, List.length_append, List.length_nil]
      omega
    · rename_i rest next
      rcases extent with spaces | ⟨-, feed⟩
      · exact spaces
      · obtain ⟨rest, e⟩ := List.head?_eq_some_iff.mp feed
        exact absurd e (next rest)

/-- What begins with a backslash has at most one character more: a line feed or what is escaped. -/
theorem front_of_backslash (h : u ∈ kind.pattern) (front : u <+: '\\' :: s) :
    u = ['\\'] ∨ ∃ c, u = ['\\', c] ∧ s.head? = some c ∧ (c = '\n' ∨ isAsciiPunctuation c) := by
  obtain ⟨t, rfl, behind, first⟩ := begins_front h front
  cases kind with
  | hardBreak =>
    rcases mem_hardBreak.mp h with ⟨n, e⟩ | e
    · exact absurd (List.cons.inj e).1 (by decide)
    · obtain rfl := (List.cons.inj e).2
      obtain ⟨v, rfl⟩ := behind
      exact .inr ⟨'\n', rfl, rfl, .inl rfl⟩
  | escaped =>
    obtain ⟨c, punctuation, e⟩ := mem_escaped.mp h
    obtain rfl := (List.cons.inj e).2
    obtain ⟨v, rfl⟩ := behind
    exact .inr ⟨c, rfl, rfl, .inr punctuation⟩
  | backslash => exact .inl (mem_exactly.mp h)
  | _ => cases first

theorem longest_ofBackslash (s : List Char) :
    Longest (Lexeme.ofBackslash s).token.kind (Lexeme.ofBackslash s).text ('\\' :: s) := by
  refine ⟨?_, ⟨_, Lexeme.ofBackslash_append s⟩, fun other u hu front => ?_⟩
  · unfold Lexeme.ofBackslash
    split
    · rfl
    · split_ifs with feed punctuation
      · exact mem_hardBreak.mpr (.inr (by rw [feed]))
      · exact mem_escaped.mpr ⟨_, punctuation, rfl⟩
      · rfl
  · rcases front_of_backslash hu front with rfl | ⟨c, rfl, next, allowed⟩
    · exact List.length_pos_iff.mpr (by simpa [lex] using lex_text_ne_nil '\\' s)
    · obtain ⟨s, rfl⟩ := List.head?_eq_some_iff.mp next
      unfold Lexeme.ofBackslash
      dsimp only
      split_ifs with feed punctuation
      · exact Nat.le_refl 2
      · exact Nat.le_refl 2
      · exact absurd allowed (not_or.mpr ⟨feed, punctuation⟩)

theorem longest_bang (s : List Char) :
    Longest (lex '!' s).token.kind (lex '!' s).text ('!' :: s) := by
  refine ⟨?_, ⟨_, lex_append '!' s⟩, fun other u hu front => ?_⟩
  · simp only [lex]
    split <;> rfl
  · obtain ⟨t, rfl, behind, first⟩ := begins_front hu front
    cases other with
    | imageOpen =>
      obtain rfl := (List.cons.inj (mem_exactly.mp hu)).2
      obtain ⟨v, rfl⟩ := behind
      exact Nat.le_refl 2
    | bang =>
      rw [mem_exactly.mp hu]
      exact List.length_pos_iff.mpr (lex_text_ne_nil '!' s)
    | _ => cases first

theorem eq_text_of_isPlain (plain : Lexeme.isPlain c) (first : kind.mayBegin c) : kind = .text := by
  simp only [Lexeme.isPlain, Bool.not_eq_true', Bool.or_eq_false_iff] at plain
  cases kind <;> simp_all [mayBegin]

/-- Where no bracket begins, `lex` takes the longest match. -/
theorem longest_lex {c : Char} (other : c ≠ '<') (s : List Char) :
    Longest (lex c s).token.kind (lex c s).text (c :: s) := by
  unfold lex
  split
  · exact longest_ofSpace s
  · refine ⟨mem_softBreak.mpr (.inl rfl), ⟨s, rfl⟩, fun other u hu front => ?_⟩
    obtain ⟨t, rfl, -, first⟩ := begins_front hu front
    cases other with
    | softBreak =>
      rcases mem_softBreak.mp hu with e | e
      · exact Nat.le_of_eq (congrArg List.length e)
      · exact absurd (List.cons.inj e).1 (by decide)
    | _ => cases first
  · exact longest_ofBackslash s
  · exact longest_run .backticks rfl rfl (by intro k; cases k <;> decide) s
  · exact longest_run .stars rfl rfl (by intro k; cases k <;> decide) s
  · exact longest_run .underscores rfl rfl (by intro k; cases k <;> decide) s
  · exact longest_single .linkOpen rfl (by intro k; cases k <;> decide) s
  · exact longest_single .closeBracket rfl (by intro k; cases k <;> decide) s
  · exact longest_bang s
  · exact absurd rfl other
  · have plain : Lexeme.isPlain c := by
      simp only [Lexeme.isPlain]
      grind
    exact longest_run .text rfl plain (fun _ => eq_text_of_isPlain plain) s

/-- Something matches at the front of every text that has a character. -/
theorem exists_match (c : Char) (s : List Char) :
    ∃ kind : TokenKind, ∃ text ∈ kind.pattern, text <+: c :: s := by
  by_cases angle : c = '<'
  · exact ⟨.bracket, ['<'], rfl, s, by rw [angle]; rfl⟩
  · exact ⟨_, _, (longest_lex angle s).fits, (longest_lex angle s).front⟩

end LongestMatches

end MarkdownForest
