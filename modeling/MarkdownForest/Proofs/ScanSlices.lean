/-
# MarkdownForest.Proofs.ScanSlices -- inlines read from byte to byte

A scan may keep the byte it has come to instead of the text to come, and cut the
source at it: for the next lexeme and what its token carries, for the characters
on the sides of a run, for the code span or the target that begins there
(`ByteScan`).

Each step stays at a byte at which a character begins or the text ends, so none
of these cuts fails, and the inlines are those of `parseInlines`; one step for
each character is always enough (`ByteScan.parse?_eq`).
-/
import MarkdownForest.Proofs.NormalInlines
import MarkdownForest.Proofs.TextSlices

namespace MarkdownForest

set_option autoImplicit false

open Text

/-- The token of a lexeme, with what it carries cut out of the characters. -/
def Sliced.token (x : Lexeme) : Option Token :=
  match x.token with
  | .text _ => some (.text x.text)
  | .spaces _ => some (.spaces x.text)
  | .htmlTag _ => some (.htmlTag x.text)
  | .escaped _ => do return .escaped (← (← sliceFrom? 1 x.text).head?)
  | .uriAutolink _ => do return .uriAutolink (← slice? 1 (utf8Length x.text - 1) x.text)
  | .emailAutolink _ => do return .emailAutolink (← slice? 1 (utf8Length x.text - 1) x.text)
  | t => some t

/-- A scan at a byte of the source. -/
structure ByteScan where
  position : Nat := 0
  pieces : Array Piece := #[]
  brackets : List Nat := []

namespace ByteScan

/-- The pieces of a scan, at a byte. -/
def ofScan (s : Scan) (position : Nat) : ByteScan :=
  ⟨position, s.pieces, s.brackets⟩

/-- The pieces, without a text to come. -/
def scan (b : ByteScan) : Scan :=
  { rest := [], pieces := b.pieces, brackets := b.brackets }

/-- Adds the code span that `count` backticks open, or the backticks as text. -/
def openCode? (source : List Char) (b : ByteScan) (stop count : Nat) : Option ByteScan := do
  match ← Sliced.codeSpan source stop count with
  | some (inside, after) => return ofScan (b.scan.pushInline (.code inside)) after
  | none => return ofScan (b.scan.pushText (List.replicate count '\x60')) stop

/-- Adds the run of delimiters from `start` to `stop`. -/
def pushRun? (source : List Char) (b : ByteScan) (start stop : Nat) (mark : Char) (count : Nat) :
    Option ByteScan := do
  let before ← sliceTo? start source
  let after ← sliceFrom? stop source
  return ofScan (b.scan.push (.delim (Delim.ofRun mark count before.getLast? after.head?))) stop

/-- Resolves a closing bracket. -/
def closeBracket? (source : List Char) (b : ByteScan) (stop : Nat) : Option ByteScan :=
  match b.brackets with
  | [] => some (ofScan (b.scan.pushText [']']) stop)
  | opener :: brackets =>
    let s : Scan := { b.scan with brackets }
    match b.pieces[opener]? with
    | some (.bracket image active) => do
      match ← if active then Sliced.target source stop else some none with
      | some (target, after) => return ofScan (s.closeLink opener image target []) after
      | none =>
        let literal := Piece.inline (.text (Piece.bracketText image))
        let s := { s with pieces := s.pieces.setIfInBounds opener literal }
        return ofScan (s.pushText [']']) stop
    | _ => some (ofScan (s.pushText [']']) stop)

/-- The state after the lexeme `x` from `start` to `stop`. -/
def feed? (source : List Char) (b : ByteScan) (x : Lexeme) (start stop : Nat) : Option ByteScan :=
  match x.token with
  | .backticks count => b.openCode? source stop count
  | .stars count => b.pushRun? source start stop '*' count
  | .underscores count => b.pushRun? source start stop '_' count
  | .closeBracket => b.closeBracket? source stop
  | _ => some (ofScan (b.scan.feed x) stop)

/-- Reads the next lexeme, unless the text is at its end. -/
def step? (source : List Char) (b : ByteScan) : Option (Option ByteScan) := do
  match ← sliceFrom? b.position source with
  | [] => return none
  | c :: rest =>
    let x := lex c rest
    let stop := b.position + utf8Length x.text
    let text ← slice? b.position stop source
    let token ← Sliced.token { x with text }
    return some (← b.feed? source { x with text, token } b.position stop)

/-- The pieces after the whole text, if `steps` are enough for it. -/
def run? (source : List Char) : Nat → ByteScan → Option (Array Piece)
  | 0, _ => none
  | steps + 1, b => do
    match ← b.step? source with
    | none => return b.pieces
    | some next => run? source steps next

/-- The inlines of a text, with one step for each character and one for the end. -/
def parse? (source : List Char) : Option (List Inline) := do
  let pieces ← run? source (source.length + 1) {}
  return finish (Emphasis.resolve [] pieces.toList)

end ByteScan

/-! ## Tokens -/

namespace Sliced

/-- What stands between angle brackets is the text without its first and last byte. -/
theorem slice?_angled (inside : List Char) :
    slice? 1 (utf8Length ('<' :: (inside ++ ['>'])) - 1) ('<' :: (inside ++ ['>'])) =
      some inside := by
  refine slice?_eq_some.mpr ⟨['<'], ['>'], by simp, rfl, ?_⟩
  simp only [utf8Length, utf8Length_append, show '<'.utf8Size = 1 from rfl,
    show '>'.utf8Size = 1 from rfl]
  omega

theorem token_autolink {s : List Char} (found : (angleRun 0 ['<'] s).1.isAutolink) :
    slice? 1 (utf8Length (Lexeme.ofAngle s).text - 1) (Lexeme.ofAngle s).text =
      some (((Lexeme.ofAngle s).text.drop 1).dropLast) := by
  obtain ⟨inside, e, -⟩ := Lexeme.autolink_eq found
  have text : (Lexeme.ofAngle s).text = '<' :: (inside ++ ['>']) := e
  rw [text, slice?_angled]
  simp

/-- What tokens carry is cut out of their characters. -/
theorem token_eq (c : Char) (s : List Char) : token (lex c s) = some (lex c s).token := by
  unfold lex
  split
  · unfold Lexeme.ofSpace
    dsimp only
    split
    · split <;> rfl
    · rfl
  · rfl
  · unfold Lexeme.ofBackslash
    split
    · rfl
    · split
      · rfl
      · split
        · rename_i d _ _ _
          have cut : sliceFrom? 1 ['\\', d] = some [d] := sliceFrom?_append ['\\'] [d]
          simp [token, cut]
        · rfl
  · rfl
  · rfl
  · rfl
  · rfl
  · rfl
  · split <;> rfl
  · cases h : (angleRun 0 ['<'] s).1 with
    | bracket | tag | text => simp [token, Lexeme.ofAngle, h, Lexeme.angleToken]
    | uri | email =>
      have cut := token_autolink (s := s) (by rw [h]; rfl)
      simp only [Lexeme.ofAngle] at cut
      simp [token, Lexeme.ofAngle, h, Lexeme.angleToken, cut]
  · rfl

end Sliced

/-! ## Steps -/

namespace ByteScan

/-- A scan by bytes that has come to where a scan has: what was read so far makes up the bytes. -/
structure At (source : List Char) (b : ByteScan) (s : Scan) : Prop where
  read : ∃ before, source = before ++ s.rest ∧ b.position = utf8Length before ∧
    s.before = before.getLast?
  pieces : b.pieces = s.pieces
  brackets : b.brackets = s.brackets

section Steps

variable {source : List Char} {b : ByteScan} {s : Scan} {start stop : Nat}

/-- Behind what was read and the lexeme after it the text goes on. -/
theorem sliceFrom?_behind {before text rest : List Char} (e : source = before ++ (text ++ rest)) :
    sliceFrom? (utf8Length before + utf8Length text) source = some rest := by
  rw [e, ← utf8Length_append, ← List.append_assoc]
  exact sliceFrom?_append _ _

/-- A scan that goes on behind its lexeme does so at the byte after it. -/
theorem at_stop {before text : List Char} {t : Scan} (e : source = before ++ (text ++ s.rest))
    (filled : text ≠ []) (last : s.before = text.getLast?) (pieces : t.pieces = s.pieces)
    (brackets : t.brackets = s.brackets) :
    At source (ofScan t (utf8Length before + utf8Length text)) s := by
  refine ⟨⟨before ++ text, by rw [e, List.append_assoc], (utf8Length_append ..).symm, ?_⟩, pieces,
    brackets⟩
  rw [last, List.getLast?_append, List.getLast?_eq_some_getLast filled]
  rfl

theorem openCode?_eq {before text : List Char} {count : Nat} (positive : 0 < count)
    (e : source = before ++ (text ++ s.rest)) (filled : text ≠ []) (last : s.before = text.getLast?)
    (pieces : b.pieces = s.pieces) (brackets : b.brackets = s.brackets) :
    ∃ c, b.openCode? source (utf8Length before + utf8Length text) count = some c ∧
      At source c (s.openCode count) := by
  have begins := sliceFrom?_behind e
  unfold openCode? Scan.openCode
  rcases Sliced.codeSpan_eq count begins with
    ⟨none, there⟩ | ⟨inside, rest, close, found, there, closes⟩
  · rw [none, there]
    refine ⟨_, rfl, at_stop e filled last ?_ brackets⟩
    simp [Scan.pushText, Scan.pushInline, Scan.push, scan, pieces]
  · rw [found, there]
    obtain ⟨until_, eq, rfl⟩ := sliceFrom?_eq_some.mp closes
    have ticks : utf8Length (List.replicate count '\x60') = count := by
      rw [(narrow_replicate (by decide) count).utf8Length_eq, List.length_replicate]
    refine ⟨_, rfl, ⟨until_ ++ List.replicate count '\x60', by rw [eq, List.append_assoc], ?_, ?_⟩,
      ?_, brackets⟩
    · rw [utf8Length_append, ticks]
      rfl
    · simp [List.getLast?_append, List.getLast?_replicate, Nat.pos_iff_ne_zero.mp positive]
    · simp [Scan.pushInline, Scan.push, scan, ofScan, pieces]

theorem closeBracket?_eq {before text : List Char} (e : source = before ++ (text ++ s.rest))
    (filled : text ≠ []) (last : s.before = text.getLast?) (pieces : b.pieces = s.pieces)
    (brackets : b.brackets = s.brackets) :
    ∃ c, b.closeBracket? source (utf8Length before + utf8Length text) = some c ∧
      At source c s.closeBracket := by
  have begins := sliceFrom?_behind e
  obtain ⟨position, bpieces, bbrackets⟩ := b
  obtain rfl : bpieces = s.pieces := pieces
  obtain rfl : bbrackets = s.brackets := brackets
  unfold closeBracket? Scan.closeBracket
  dsimp only
  cases hb : s.brackets with
  | nil => exact ⟨_, rfl, at_stop e filled last rfl hb.symm⟩
  | cons opener brackets =>
    dsimp only
    cases s.pieces[opener]? with
    | none => exact ⟨_, rfl, at_stop e filled last rfl rfl⟩
    | some p =>
      cases p with
      | inline i | delim d => exact ⟨_, rfl, at_stop e filled last rfl rfl⟩
      | bracket image active =>
        cases active with
        | false => exact ⟨_, rfl, at_stop e filled last rfl rfl⟩
        | true =>
          simp only [if_true]
          rcases Sliced.target_eq begins with ⟨none, there⟩ | ⟨t, rest, stop, found, there, closes⟩
          · rw [none, there]
            exact ⟨_, rfl, at_stop e filled last rfl rfl⟩
          · rw [found, there]
            obtain ⟨before', eq, rfl⟩ := sliceFrom?_eq_some.mp closes
            refine ⟨_, rfl, ⟨before' ++ [')'], by rw [eq, List.append_assoc]; rfl, ?_, ?_⟩, rfl,
              rfl⟩
            · rw [utf8Length_append]
              rfl
            · exact (List.getLast?_concat ..).symm

/-- Feeding a lexeme by bytes is feeding it. -/
theorem feed?_eq {before : List Char} {x : Lexeme} (e : source = before ++ (x.text ++ x.rest))
    (filled : x.text ≠ []) (positive : ∀ count, x.token = .backticks count → 0 < count)
    (last : s.before = before.getLast?) (pieces : b.pieces = s.pieces)
    (brackets : b.brackets = s.brackets) :
    ∃ c, b.feed? source x (utf8Length before) (utf8Length before + utf8Length x.text) = some c ∧
      At source c (s.feed x) := by
  have begins := sliceFrom?_behind e
  have ends : sliceTo? (utf8Length before) source = some before := by
    rw [e]
    exact sliceTo?_append _ _
  unfold feed? Scan.feed
  dsimp only
  obtain ⟨token, text, rest⟩ := x
  cases token with
  | backticks count =>
    exact openCode?_eq (s := { s with before := text.getLast?, rest }) (positive count rfl) e filled
      rfl pieces brackets
  | stars count | underscores count =>
    refine ⟨_, by
      simp only [pushRun?, ends, begins, Option.bind_eq_bind, Option.bind_some]
      rfl, ?_⟩
    refine at_stop e filled rfl ?_ brackets
    rw [← last]
    simp [Scan.pushRun, Scan.push, scan, pieces]
  | closeBracket =>
    exact closeBracket?_eq (s := { s with before := text.getLast?, rest }) e filled rfl pieces
      brackets
  | _ =>
    refine ⟨_, rfl, at_stop e filled rfl ?_ ?_⟩
    · simp [Scan.pushText, Scan.pushInline, Scan.openBracket, Scan.push, scan, pieces]
    · simp [Scan.pushText, Scan.pushInline, Scan.openBracket, Scan.push, scan, pieces, brackets]

/-- A step by bytes is a step. -/
theorem step?_eq (h : At source b s) :
    (s.rest = [] ∧ b.step? source = some none) ∨
      ∃ c rest next, s.rest = c :: rest ∧ b.step? source = some (some next) ∧
        At source next (s.feed (lex c rest)) := by
  obtain ⟨before, e, position, last⟩ := h.read
  have begins : sliceFrom? b.position source = some s.rest := by
    rw [position, e]
    exact sliceFrom?_append before s.rest
  unfold step?
  rw [begins]
  cases hr : s.rest with
  | nil => exact .inl ⟨rfl, rfl⟩
  | cons c rest =>
    have tiles : source = before ++ ((lex c rest).text ++ (lex c rest).rest) := by
      rw [lex_append, e, hr]
    have cut : slice? b.position (b.position + utf8Length (lex c rest).text) source =
        some (lex c rest).text := by
      rw [position]
      conv => lhs; rw [tiles, ← List.append_assoc]
      exact slice?_append _ _ _
    have positive : ∀ count, (lex c rest).token = .backticks count → 0 < count := fun count eq => by
      have normal := lex_normal c rest
      rwa [eq] at normal
    obtain ⟨next, fed, atNext⟩ := feed?_eq tiles (lex_text_ne_nil c rest) positive last h.pieces
      h.brackets
    refine .inr ⟨c, rest, next, rfl, ?_, atNext⟩
    have token : Sliced.token ⟨(lex c rest).token, (lex c rest).text, (lex c rest).rest⟩ =
      some (lex c rest).token := Sliced.token_eq c rest
    simp only [Option.bind_eq_bind, Option.bind_some, cut, token]
    rw [position]
    exact (congrArg (Option.bind · _) fed :)

theorem run?_eq (h : At source b s) {steps : Nat} (enough : s.rest.length < steps) :
    run? source steps b = some s.run := by
  induction steps generalizing b s with
  | zero => exact absurd enough (Nat.not_lt_zero _)
  | succ steps ih =>
    rw [run?]
    rcases step?_eq h with ⟨ended, step⟩ | ⟨c, rest, next, more, step, atNext⟩
    · rw [step, Scan.run_nil ended, ← h.pieces]
      rfl
    · have shorter := Scan.length_rest_feed_lt more
      rw [step, Scan.run_cons c rest more]
      exact ih atNext (by omega)

/-- Reading inlines from byte to byte fails nowhere, and gives the inlines of the text. -/
theorem parse?_eq (source : List Char) : parse? source = some (parseInlines source) := by
  have start : At source {} { rest := source } := ⟨⟨[], rfl, rfl, rfl⟩, rfl, rfl⟩
  rw [parse?, run?_eq start (Nat.lt_succ_self _)]
  rfl

end Steps

end ByteScan

end MarkdownForest
