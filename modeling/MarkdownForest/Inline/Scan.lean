/-
# MarkdownForest.Inline.Scan -- reading the inlines of a paragraph

A scan goes through the lexemes of a text and keeps the pieces so far, together
with the places of the open brackets among them, the innermost first.

A code span and the target of a link are read straight from the text, and the
lexemes go on after them.  When a bracket closes and a target follows, what
stands after the opening bracket becomes the contents of the link, its emphasis
resolved; brackets of links around it are then inactive, since no link stands in
a link.  Without a target both brackets are text.
-/
import MarkdownForest.Inline.CodeSpan
import MarkdownForest.Inline.Emphasis
import MarkdownForest.Inline.Target
import MarkdownForest.Inline.Token

namespace MarkdownForest

set_option autoImplicit false

/-- The state between two lexemes: the last character read, the text to come, the pieces, and the
places of the open brackets. -/
structure Scan where
  before : Option Char := none
  rest : List Char
  pieces : Array Piece := #[]
  brackets : List Nat := []

namespace Scan

def push (s : Scan) (p : Piece) : Scan :=
  { s with pieces := s.pieces.push p }

def pushInline (s : Scan) (i : Inline) : Scan :=
  s.push (.inline i)

/-- Adds text; neighbouring texts become one in the end. -/
def pushText (s : Scan) (t : List Char) : Scan :=
  s.pushInline (.text t)

/-- Adds an open bracket. -/
def openBracket (s : Scan) (image : Bool) : Scan :=
  { s.push (.bracket image true) with brackets := s.pieces.size :: s.brackets }

/-- Adds the code span that `count` backticks open, or the backticks as text. -/
def openCode (s : Scan) (count : Nat) : Scan :=
  match closeCode count s.rest with
  | some (inside, rest) =>
    { s.pushInline (.code (normalizeCode inside)) with before := some '\x60', rest }
  | none => s.pushText (List.replicate count '\x60')

/-- Adds a run of `count` delimiters that follows the character `before`. -/
def pushRun (s : Scan) (mark : Char) (count : Nat) (before : Option Char) : Scan :=
  s.push (.delim (Delim.ofRun mark count before s.rest.head?))

/-- The link or image that the bracket at place `opener` opens. -/
def closeLink (s : Scan) (opener : Nat) (image : Bool) (target : Target) (rest : List Char) :
    Scan :=
  let children := finish (Emphasis.resolve [] (s.pieces.toList.drop (opener + 1)))
  let link := if image then .image target.url target.title children
    else .link target.url target.title children
  let pieces := (s.pieces.take opener).push (.inline link)
  { s with
    before := some ')'
    rest
    pieces := if image then pieces
      else s.brackets.foldl (fun ps place => ps.modify place Piece.deactivate) pieces }

/-- Resolves a closing bracket. -/
def closeBracket (s : Scan) : Scan :=
  match s.brackets with
  | [] => s.pushText [']']
  | opener :: brackets =>
    let s : Scan := { s with brackets }
    match s.pieces[opener]? with
    | some (.bracket image active) =>
      match if active then Target.read? s.rest else none with
      | some (target, rest) => s.closeLink opener image target rest
      | none =>
        let literal := Piece.inline (.text (Piece.bracketText image))
        { s with pieces := s.pieces.setIfInBounds opener literal }.pushText [']']
    | _ => s.pushText [']']

/-- The state after the lexeme `x`. -/
def feed (s : Scan) (x : Lexeme) : Scan :=
  let t := { s with before := x.text.getLast?, rest := x.rest }
  match x.token with
  | .text u | .spaces u => t.pushText u
  | .escaped c => t.pushText [c]
  | .backslash => t.pushText ['\\']
  | .bang => t.pushText ['!']
  | .bracket => t.pushText ['<']
  | .hardBreak => t.pushInline .lineBreak
  | .softBreak => t.pushInline .softBreak
  | .backticks count => t.openCode count
  | .stars count => t.pushRun '*' count s.before
  | .underscores count => t.pushRun '_' count s.before
  | .linkOpen => t.openBracket false
  | .imageOpen => t.openBracket true
  | .closeBracket => t.closeBracket
  | .uriAutolink url => t.pushInline (.link url [] [.text url])
  | .emailAutolink address => t.pushInline (.link ("mailto:".toList ++ address) [] [.text address])
  | .htmlTag raw => t.pushInline (.html raw)

/-! ## No step lengthens the text to come -/

@[simp] theorem rest_push (s : Scan) (p : Piece) : (s.push p).rest = s.rest := rfl

@[simp] theorem rest_pushInline (s : Scan) (i : Inline) : (s.pushInline i).rest = s.rest := rfl

@[simp] theorem rest_pushText (s : Scan) (t : List Char) : (s.pushText t).rest = s.rest := rfl

@[simp] theorem rest_openBracket (s : Scan) (image : Bool) :
    (s.openBracket image).rest = s.rest := rfl

@[simp] theorem rest_pushRun (s : Scan) (mark : Char) (count : Nat) (before : Option Char) :
    (s.pushRun mark count before).rest = s.rest := rfl

theorem length_rest_openCode_le (s : Scan) (count : Nat) :
    (s.openCode count).rest.length ≤ s.rest.length := by
  unfold openCode
  split
  · next h => exact length_closeCode_le h
  · simp

theorem length_rest_closeBracket_le (s : Scan) :
    s.closeBracket.rest.length ≤ s.rest.length := by
  unfold closeBracket
  split
  · simp
  · dsimp only
    split
    · split
      · next h =>
        split at h
        · exact Target.length_read?_le h
        · simp at h
      · simp
    · simp

theorem length_rest_feed_le (s : Scan) (x : Lexeme) :
    (s.feed x).rest.length ≤ x.rest.length := by
  unfold feed
  dsimp only
  split
  case h_9 => exact length_rest_openCode_le ..
  case h_14 => exact length_rest_closeBracket_le ..
  all_goals simp

theorem length_rest_feed_lt {s : Scan} {c : Char} {rest : List Char} (h : s.rest = c :: rest) :
    (s.feed (lex c rest)).rest.length < s.rest.length := by
  have h₁ := length_rest_feed_le s (lex c rest)
  have h₂ := length_lex_rest_le c rest
  rw [h, List.length_cons]
  omega

/-- The pieces after the whole text. -/
def run (s : Scan) : Array Piece :=
  match h : s.rest with
  | [] => s.pieces
  | c :: rest =>
    have := length_rest_feed_lt h
    (s.feed (lex c rest)).run
termination_by s.rest.length

end Scan

/-- The inlines of a text. -/
def parseInlines (source : List Char) : List Inline :=
  finish (Emphasis.resolve [] (Scan.run { rest := source }).toList)

end MarkdownForest
