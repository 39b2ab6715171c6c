/-
# MarkdownForest.Kind -- the kinds of nodes and what may contain what

Nine kinds are blocks and nine are inlines.  Eight kinds are leaves: they never
have children.  A document is never a child; items stand in lists and nowhere
else; the other blocks stand in documents, quotes and items; inlines stand in
paragraphs, headers and the four spans (`Kind.canContain`).

Every kind has a type name, and a symbol that differs from it for two kinds; a
kind is found by either (`Kind.ofName?`).
-/

namespace MarkdownForest

set_option autoImplicit false

inductive Kind where
  | document | blockQuote | list | item | codeBlock | html | paragraph | header | hrule
  | text | softbreak | linebreak | code | inlineHtml | emph | strong | link | image
  deriving DecidableEq, Repr, Inhabited

namespace Kind

/-- Every kind, blocks before inlines. -/
def all : List Kind :=
  [document, blockQuote, list, item, codeBlock, html, paragraph, header, hrule,
    text, softbreak, linebreak, code, inlineHtml, emph, strong, link, image]

def isBlock : Kind → Bool
  | document | blockQuote | list | item | codeBlock | html | paragraph | header | hrule => true
  | _ => false

def isInline (k : Kind) : Bool :=
  !k.isBlock

/-- The kinds that never have children. -/
def isLeaf : Kind → Bool
  | codeBlock | html | hrule | text | softbreak | linebreak | code | inlineHtml => true
  | _ => false

/-- Whether a node of the first kind may have a child of the second. -/
def canContain (parent child : Kind) : Bool :=
  match parent with
  | document | blockQuote | item => child.isBlock && child != document && child != item
  | list => child == item
  | paragraph | header | emph | strong | link | image => child.isInline
  | _ => false

theorem canContain_of_isLeaf {k : Kind} (h : k.isLeaf) (child : Kind) :
    k.canContain child = false := by
  cases k <;> simp_all [isLeaf, canContain]

theorem canContain_document (k : Kind) : k.canContain document = false := by
  cases k <;> rfl

/-! ## Names -/

def typeName : Kind → String
  | document => "document"
  | blockQuote => "block_quote"
  | list => "list"
  | item => "item"
  | codeBlock => "code_block"
  | html => "html"
  | paragraph => "paragraph"
  | header => "header"
  | hrule => "hrule"
  | text => "text"
  | softbreak => "softbreak"
  | linebreak => "linebreak"
  | code => "code"
  | inlineHtml => "inline_html"
  | emph => "emph"
  | strong => "strong"
  | link => "link"
  | image => "image"

def symbol : Kind → String
  | blockQuote => "blockquote"
  | item => "list_item"
  | k => k.typeName

/-- The kind that has `name` as its symbol or its type name. -/
def ofName? (name : String) : Option Kind :=
  all.find? fun k => k.symbol == name || k.typeName == name

/-- The kind that has `name` as its type name. -/
def ofTypeName? (name : String) : Option Kind :=
  all.find? fun k => k.typeName == name

theorem ofName?_symbol (k : Kind) : ofName? k.symbol = some k := by
  cases k <;> decide

theorem ofName?_typeName (k : Kind) : ofName? k.typeName = some k := by
  cases k <;> decide

end Kind

/-! ## Lists -/

inductive ListType where
  | bullet | ordered
  deriving DecidableEq, Repr, Inhabited

namespace ListType

def name : ListType → String
  | bullet => "bullet"
  | ordered => "ordered"

def symbol : ListType → String
  | bullet => "bullet_list"
  | ordered => "ordered_list"

def ofName? (name : String) : Option ListType :=
  [bullet, ordered].find? fun t => t.name == name

end ListType

end MarkdownForest
