/-
# MarkdownForest.Content -- what a node holds, and its fields

The content of a node is its kind together with the data of that kind, so data
and kind cannot disagree.

A field is read and written only on the kinds that have it; the error names the
field and the kind.  Two fields check the value written: a header level lies in
1 to 6, and a list start is a 32-bit number.  A bullet list keeps its start but
does not show it: it is no longer hidden once the list is ordered.
-/
import MarkdownForest.Kind

namespace MarkdownForest

set_option autoImplicit false

inductive Content where
  | document
  | blockQuote
  | list (type : ListType) (start : Nat) (tight : Bool)
  | item
  | codeBlock (info literal : String)
  | html (literal : String)
  | paragraph
  | header (level : Nat)
  | hrule
  | text (literal : String)
  | softbreak
  | linebreak
  | code (literal : String)
  | inlineHtml (literal : String)
  | emph
  | strong
  | link (url title : String)
  | image (url title : String)
  deriving DecidableEq, Repr, Inhabited

namespace Content

def kind : Content → Kind
  | document => .document
  | blockQuote => .blockQuote
  | list .. => .list
  | item => .item
  | codeBlock .. => .codeBlock
  | html .. => .html
  | paragraph => .paragraph
  | header .. => .header
  | hrule => .hrule
  | text .. => .text
  | softbreak => .softbreak
  | linebreak => .linebreak
  | code .. => .code
  | inlineHtml .. => .inlineHtml
  | emph => .emph
  | strong => .strong
  | link .. => .link
  | image .. => .image

/-- The content of a new node. -/
def new : Kind → Content
  | .document => document
  | .blockQuote => blockQuote
  | .list => list .bullet 1 false
  | .item => item
  | .codeBlock => codeBlock "" ""
  | .html => html ""
  | .paragraph => paragraph
  | .header => header 1
  | .hrule => hrule
  | .text => text ""
  | .softbreak => softbreak
  | .linebreak => linebreak
  | .code => code ""
  | .inlineHtml => inlineHtml ""
  | .emph => emph
  | .strong => strong
  | .link => link "" ""
  | .image => image "" ""

@[simp] theorem kind_new (k : Kind) : (new k).kind = k := by
  cases k <;> rfl

/-- The content as an observer sees it: the start of a bullet list is hidden. -/
def visible : Content → Content
  | list .bullet _ tight => list .bullet 1 tight
  | c => c

@[simp] theorem kind_visible (c : Content) : c.visible.kind = c.kind := by
  unfold visible; split <;> rfl

@[simp] theorem visible_visible (c : Content) : c.visible.visible = c.visible := by
  cases c with
  | list type _ _ => cases type <;> rfl
  | _ => rfl

/-- The greatest level of a header. -/
def maxLevel : Nat := 6

/-- Levels lie in their range and starts are 32-bit numbers. -/
def InRange : Content → Prop
  | header level => 1 ≤ level ∧ level ≤ maxLevel
  | list _ start _ => start < UInt32.size
  | _ => True

theorem inRange_new (k : Kind) : (new k).InRange := by
  cases k <;> simp [new, InRange, maxLevel, UInt32.size]

end Content

/-! ## Fields -/

inductive Field where
  | literal | url | title | headerLevel | listType | listStart | listTight | fenceInfo
  deriving DecidableEq, Repr

def Field.name : Field → String
  | .literal => "string_content"
  | .url => "url"
  | .title => "title"
  | .headerLevel => "header_level"
  | .listType => "list_type"
  | .listStart => "list_start"
  | .listTight => "list_tight"
  | .fenceInfo => "fence_info"

/-- Why a field of the right kind was refused. -/
inductive ValueError where
  | levelOutOfRange (value : Int)
  | startOutOfRange (value : Int)
  | bulletStart
  deriving DecidableEq, Repr

namespace ValueError

def field : ValueError → Field
  | levelOutOfRange _ => .headerLevel
  | startOutOfRange _ => .listStart
  | bulletStart => .listStart

def message : ValueError → String
  | levelOutOfRange value => toString value ++ " is outside 1..=" ++ toString Content.maxLevel
  | startOutOfRange value => toString value ++ " is not a valid start"
  | bulletStart => "can't get list_start for a bullet list"

end ValueError

/-- Why a field could not be read or written. -/
inductive FieldError where
  | unavailable (field : Field) (kind : Kind)
  | value (cause : ValueError)
  deriving DecidableEq, Repr

def FieldError.message : FieldError → String
  | unavailable field kind => field.name ++ " is not available on " ++ kind.typeName ++ " nodes"
  | value cause => "invalid value for " ++ cause.field.name ++ ": " ++ cause.message

namespace Content

open Except (ok error)

/-- The literal text of texts, code, raw HTML and code blocks. -/
def getLiteral : Content → Except FieldError String
  | text s | code s | html s | inlineHtml s | codeBlock _ s => ok s
  | c => error (.unavailable .literal c.kind)

def setLiteral (s : String) : Content → Except FieldError Content
  | text _ => ok (text s)
  | code _ => ok (code s)
  | html _ => ok (html s)
  | inlineHtml _ => ok (inlineHtml s)
  | codeBlock info _ => ok (codeBlock info s)
  | c => error (.unavailable .literal c.kind)

def getUrl : Content → Except FieldError String
  | link url _ | image url _ => ok url
  | c => error (.unavailable .url c.kind)

def setUrl (url : String) : Content → Except FieldError Content
  | link _ title => ok (link url title)
  | image _ title => ok (image url title)
  | c => error (.unavailable .url c.kind)

def getTitle : Content → Except FieldError String
  | link _ title | image _ title => ok title
  | c => error (.unavailable .title c.kind)

def setTitle (title : String) : Content → Except FieldError Content
  | link url _ => ok (link url title)
  | image url _ => ok (image url title)
  | c => error (.unavailable .title c.kind)

def getHeaderLevel : Content → Except FieldError Nat
  | header level => ok level
  | c => error (.unavailable .headerLevel c.kind)

def setHeaderLevel (value : Int) : Content → Except FieldError Content
  | header _ =>
    if 1 ≤ value ∧ value ≤ maxLevel then ok (header value.toNat)
    else error (.value (.levelOutOfRange value))
  | c => error (.unavailable .headerLevel c.kind)

def getListType : Content → Except FieldError ListType
  | list type _ _ => ok type
  | c => error (.unavailable .listType c.kind)

def setListType (type : ListType) : Content → Except FieldError Content
  | list _ start tight => ok (list type start tight)
  | c => error (.unavailable .listType c.kind)

/-- The start of an ordered list. -/
def getListStart : Content → Except FieldError Nat
  | list .ordered start _ => ok start
  | list .bullet _ _ => error (.value .bulletStart)
  | c => error (.unavailable .listStart c.kind)

def setListStart (value : Int) : Content → Except FieldError Content
  | list type _ tight =>
    if 0 ≤ value ∧ value < UInt32.size then ok (list type value.toNat tight)
    else error (.value (.startOutOfRange value))
  | c => error (.unavailable .listStart c.kind)

def getListTight : Content → Except FieldError Bool
  | list _ _ tight => ok tight
  | c => error (.unavailable .listTight c.kind)

def setListTight (tight : Bool) : Content → Except FieldError Content
  | list type start _ => ok (list type start tight)
  | c => error (.unavailable .listTight c.kind)

def getFenceInfo : Content → Except FieldError String
  | codeBlock info _ => ok info
  | c => error (.unavailable .fenceInfo c.kind)

def setFenceInfo (info : String) : Content → Except FieldError Content
  | codeBlock _ literal => ok (codeBlock info literal)
  | c => error (.unavailable .fenceInfo c.kind)

end Content

end MarkdownForest
