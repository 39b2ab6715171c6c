/-
# MarkdownForest.Inline.Piece -- inlines, and the pieces they are made from

While inline text is read its parts lie in one row of pieces: finished inlines,
runs of delimiters that may yet open or close emphasis, and open brackets.  What
stays unresolved is text in the end, and neighbouring texts become one
(`finish`).

Whether a run opens or closes depends on the characters around it
(`Delim.ofRun`); an underscore run never does so inside a word.
-/
import MarkdownForest.Text.Punctuation

namespace MarkdownForest

set_option autoImplicit false

open Text

inductive Inline where
  | text (s : List Char)
  | code (s : List Char)
  | html (raw : List Char)
  | softBreak
  | lineBreak
  | emph (children : List Inline)
  | strong (children : List Inline)
  | link (url title : List Char) (children : List Inline)
  | image (url title : List Char) (children : List Inline)
  deriving Repr, Inhabited

/-! ## Runs of delimiters -/

/-- A run of `count` marks that are left of `orig` in the source. -/
structure Delim where
  mark : Char
  count : Nat
  orig : Nat
  canOpen : Bool
  canClose : Bool
  deriving DecidableEq, Repr

namespace Delim

/-- The edge of a text counts as white space. -/
def spaceAt : Option Char → Bool
  | none => true
  | some c => isSpace c

def punctuationAt : Option Char → Bool
  | none => false
  | some c => isPunctuation c

/-- A run is left-flanking when text follows it: no space after, and punctuation after only if
space or punctuation stands before. -/
def leftFlanking (before after : Option Char) : Bool :=
  !spaceAt after && (!punctuationAt after || spaceAt before || punctuationAt before)

/-- A run is right-flanking when it is left-flanking read backwards. -/
def rightFlanking (before after : Option Char) : Bool :=
  leftFlanking after before

/-- The run of `count` marks between two characters. -/
def ofRun (mark : Char) (count : Nat) (before after : Option Char) : Delim :=
  let left := leftFlanking before after
  let right := rightFlanking before after
  let inWord := mark != '*'
  { mark, count, orig := count
    canOpen := left && (!inWord || !right || punctuationAt before)
    canClose := right && (!inWord || !left || punctuationAt after) }

/-- The rule of three: runs of which one both opens and closes do not match when their lengths add
up to a multiple of three, unless both are multiples. -/
def oddMatch (opener closer : Delim) : Bool :=
  (opener.canClose || closer.canOpen) && (opener.orig + closer.orig) % 3 == 0 &&
    !(opener.orig % 3 == 0 && closer.orig % 3 == 0)

/-- Whether a run may close emphasis. -/
def closes (d : Delim) : Bool :=
  d.canClose && decide (0 < d.count)

/-- Whether a run may open the emphasis that `closer` closes. -/
def opens (d closer : Delim) : Bool :=
  d.mark == closer.mark && d.canOpen && decide (0 < d.count) && !oddMatch d closer

end Delim

/-! ## Pieces -/

inductive Piece where
  | inline (i : Inline)
  | delim (d : Delim)
  | bracket (image active : Bool)
  deriving Repr, Inhabited

namespace Piece

/-- The source of an open bracket. -/
def bracketText (image : Bool) : List Char :=
  if image then ['!', '['] else ['[']

/-- A piece as an inline; what is unresolved is text. -/
def toInline : Piece → Inline
  | inline i => i
  | delim d => .text (List.replicate d.count d.mark)
  | bracket image _ => .text (bracketText image)

/-- A link's bracket that opens nothing any more. -/
def deactivate : Piece → Piece
  | bracket false _ => bracket false false
  | p => p

end Piece

/-- An inline before others, joined with a text after it if it is text. -/
def joinInline : Inline → List Inline → List Inline
  | .text s, .text t :: more => .text (s ++ t) :: more
  | i, more => i :: more

/-- Inlines in which no two neighbours are text. -/
def joinTexts : List Inline → List Inline
  | [] => []
  | i :: more => joinInline i (joinTexts more)

/-- The inlines that pieces stand for. -/
def finish (pieces : List Piece) : List Inline :=
  joinTexts (pieces.map Piece.toInline)

end MarkdownForest
