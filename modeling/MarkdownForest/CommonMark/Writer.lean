/-
# MarkdownForest.CommonMark.Writer -- trees as CommonMark

The text written is normalised: bullets are `-`, code blocks are fenced, rules
are `***`, emphasis prefers `*`.  It is meant to read back as the tree it was
written from.

Inlines are written from left to right; each needs to know the last character
written in the block and whether a line begins (`Spot`), and the inline after
it.  A delimiter is chosen so that its run does not join a neighbour's; inside
an emphasis another is written with underscores.

Neighbouring lists of one type would join, so the marker alternates between
them.  In a tight list the blocks of an item are not set apart, except two
paragraphs.
-/
import MarkdownForest.CommonMark.Escape
import MarkdownForest.Tree

namespace MarkdownForest.CommonMark

set_option autoImplicit false

open Text

/-! ## Inlines -/

/-- Where an inline is written. -/
structure Spot where
  before : Option Char := none
  lineStart : Bool := true

/-- What was written, and whether a line begins after it. -/
structure Written where
  text : List Char
  lineStart : Bool

/-- The spot after `text`. -/
def Spot.after (p : Spot) (text : List Char) (lineStart : Bool) : Spot :=
  ⟨text.getLast?.or p.before, lineStart⟩

/-- The first character of the inline after an emphasis, as far as it matters: its text begins
with it, a break is none, and another inline counts as a delimiter. -/
def firstOf : Option Tree → Option Char
  | none => none
  | some t =>
    match t.content with
    | .text literal => literal.toList.head?
    | .softbreak | .linebreak => none
    | _ => some '*'

def isEmphasis (t : Tree) : Bool :=
  t.kind == .emph || t.kind == .strong

/-- The delimiter of an emphasis after the character `before` and before the inline `next`.  An
underscore is only used where no word touches it, and then to keep apart from a star before or an
emphasis after. -/
def delimiter (before : Option Char) (next : Option Tree) : Char :=
  let after := firstOf next
  let underscoreFits := before != some '_' && !before.any isWord && !after.any isWord
  if underscoreFits && (before == some '*' || next.any isEmphasis) then '_' else '*'

/-- A link in angle brackets, if it can be written so. -/
def autolinkOf? (url title : String) (children : List Tree) : Option (List Char) :=
  match children with
  | [.node (.text literal) _] =>
    if title.isEmpty then autolink? url.toList literal.toList else none
  | _ => none

mutual
/-- An inline inside an emphasis or not, before the inline `next`. -/
def writeInline (inEmph : Bool) (next : Option Tree) (p : Spot) : Tree → Written
  | .node content children =>
    match content with
    | .text literal =>
      if literal.isEmpty then ⟨[], p.lineStart⟩
      else ⟨escapeText p.lineStart literal.toList, false⟩
    | .softbreak => ⟨['\n'], true⟩
    | .linebreak => ⟨['\\', '\n'], true⟩
    | .code literal => ⟨codeSpan literal.toList, false⟩
    | .inlineHtml literal => ⟨literal.toList, false⟩
    | .emph =>
      let mark := if inEmph then '_' else delimiter p.before next
      let inside := writeInlines true ⟨some mark, false⟩ children
      ⟨mark :: inside.text ++ [mark], inside.lineStart⟩
    | .strong =>
      let mark := delimiter p.before next
      let inside := writeInlines false ⟨some mark, false⟩ children
      ⟨[mark, mark] ++ inside.text ++ [mark, mark], inside.lineStart⟩
    | .link url title =>
      match autolinkOf? url title children with
      | some text => ⟨text, false⟩
      | none =>
        let inside := writeInlines inEmph ⟨some '[', false⟩ children
        ⟨'[' :: inside.text ++ ']' :: destination url.toList title.toList, inside.lineStart⟩
    | .image url title =>
      let inside := writeInlines inEmph ⟨some '[', false⟩ children
      ⟨['!', '['] ++ inside.text ++ ']' :: destination url.toList title.toList,
        inside.lineStart⟩
    | _ => ⟨[], p.lineStart⟩

def writeInlines (inEmph : Bool) (p : Spot) : List Tree → Written
  | [] => ⟨[], p.lineStart⟩
  | t :: more =>
    let first := writeInline inEmph more.head? p t
    let rest := writeInlines inEmph (p.after first.text first.lineStart) more
    ⟨first.text ++ rest.text, rest.lineStart⟩
end

/-- The inlines of a paragraph or header. -/
def inlineText (children : List Tree) : List Char :=
  (writeInlines false {} children).text

/-! ## Blocks -/

/-- A header: underlined when it spans lines and its level allows, else on one line, with the last
number sign escaped. -/
def headerText (level : Nat) (text : List Char) : List Char :=
  if level ≤ 2 && text.contains '\n' then
    text ++ '\n' :: List.replicate 3 (if level = 1 then '=' else '-')
  else
    let line := text.map fun c => if c = '\n' then ' ' else c
    let escaped := if line.getLast? = some '#' then line.dropLast ++ ['\\', '#'] else line
    List.replicate level '#' ++ ' ' :: escaped

/-- The marker of the item at place `n` of a list. -/
def itemMarker (type : ListType) (start : Nat) (alternate : Bool) (n : Nat) : List Char :=
  match type with
  | .bullet => [if alternate then '*' else '-', ' ']
  | .ordered => (toString (start + n)).toList ++ [if alternate then ')' else '.', ' ']

/-- What separates a block from the one before it in the same container. -/
def separator (tight : Bool) (previous kind : Kind) : List Char :=
  if tight && !(previous == .paragraph && kind == .paragraph) then ['\n'] else ['\n', '\n']

/-- The type of a list. -/
def listTypeOf? (t : Tree) : Option ListType :=
  match t.content with
  | .list type _ _ => some type
  | _ => none

/-- The blocks written so far in a container: the kind of the last, the type of list it was, and
whether that list had the alternate marker. -/
structure Sequence where
  previous : Option Kind := none
  listType : Option ListType := none
  alternate : Bool := false

/-- Whether a block after the sequence takes the alternate marker. -/
def Sequence.alternates (q : Sequence) (t : Tree) : Bool :=
  (listTypeOf? t).isSome && listTypeOf? t == q.listType && !q.alternate

mutual
/-- A block, with the alternate marker or not. -/
def blockText (alternate : Bool) : Tree → List Char
  | .node content children =>
    match content with
    | .document | .item => blocksText false {} children
    | .blockQuote => quoteLines (blocksText false {} children)
    | .list type start tight => itemsText type start alternate tight 0 children
    | .codeBlock info literal => codeBlock info.toList literal.toList
    | .html literal => dropEndWhile (· == '\n') literal.toList
    | .paragraph => inlineText children
    | .header level => headerText level (inlineText children)
    | .hrule => ['*', '*', '*']
    | c => (writeInline false none {} (.node c children)).text

/-- Blocks after a sequence in one container. -/
def blocksText (tight : Bool) (q : Sequence) : List Tree → List Char
  | [] => []
  | t :: more =>
    let alternate := q.alternates t
    let before := match q.previous with
      | some previous => separator tight previous t.kind
      | none => []
    before ++ blockText alternate t ++ blocksText tight ⟨some t.kind, listTypeOf? t, alternate⟩ more

/-- The items of a list from place `n` on. -/
def itemsText (type : ListType) (start : Nat) (alternate tight : Bool) (n : Nat) :
    List Tree → List Char
  | [] => []
  | .node _ children :: more =>
    let before := if n = 0 then [] else if tight then ['\n'] else ['\n', '\n']
    before ++ hang (itemMarker type start alternate n) (blocksText tight {} children) ++
      itemsText type start alternate tight (n + 1) more
end

/-- The text with a line feed at its end, if there is any text. -/
def endLine (s : List Char) : List Char :=
  if s.isEmpty || s.getLast? = some '\n' then s else s ++ ['\n']

/-- A tree as CommonMark, written as if the inline `next` followed it. -/
def writeBefore (next : Option Tree) (t : Tree) : String :=
  String.ofList (endLine
    (if t.kind.isBlock then blockText false t else (writeInline false next {} t).text))

/-- A tree as CommonMark. -/
def write (t : Tree) : String :=
  writeBefore none t

end MarkdownForest.CommonMark
