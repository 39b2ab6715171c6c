/-
# MarkdownForest.Document -- reading documents

`readSource` makes the trees of a whole source; `parse` puts them under a
document, or fails as the reading did.  Bytes are decoded first, strictly.

`documentMade` is the document as far as it was made, also when reading failed:
a forest that reads a document makes its nodes before it learns of the failure.
-/
import MarkdownForest.Block.Build

namespace MarkdownForest

set_option autoImplicit false

/-- Why a source is no document. -/
inductive ParseError where
  | nestingTooDeep (position limit : Nat)
  | invalidUtf8 (position : Nat)
  deriving DecidableEq, Repr

namespace ParseError

/-- The byte that the error points at. -/
def position : ParseError → Nat
  | nestingTooDeep position _ => position
  | invalidUtf8 position => position

def message : ParseError → String
  | nestingTooDeep position limit =>
    "Nesting too deep at " ++ toString position ++ ": more than " ++ toString limit ++ " levels"
  | invalidUtf8 position => "Invalid UTF-8 at byte " ++ toString position

/-- The note beside the place that the error points at. -/
def note : ParseError → String
  | nestingTooDeep _ limit => "nesting exceeds " ++ toString limit ++ " here"
  | invalidUtf8 _ => "invalid byte sequence"

end ParseError

/-- The trees of a source. -/
def readSource (o : ParseOptions) (source : List Char) : Parsed :=
  parseBlocks o 0 false false (Line.ofSource source)

namespace Parsed

/-- The document as far as it was made. -/
def documentMade (p : Parsed) : Tree :=
  .node .document p.trees

/-- The failure as an error. -/
def error? (p : Parsed) : Option ParseError :=
  p.failure.map fun e => .nestingTooDeep e.position e.limit

/-- The document, or why there is none. -/
def document (p : Parsed) : Except ParseError Tree :=
  match p.error? with
  | some e => .error e
  | none => .ok p.documentMade

end Parsed

/-- The document that a source is. -/
def parse (o : ParseOptions) (source : String) : Except ParseError Tree :=
  (readSource o source.toList).document

/-- The document that bytes encode. -/
def parseBytes (o : ParseOptions) (bytes : List UInt8) : Except ParseError Tree :=
  match Text.decode bytes with
  | .ok source => (readSource o source).document
  | .error position => .error (.invalidUtf8 position)

end MarkdownForest
