/-
# MarkdownForest.Html.Page -- the page being written, and what each node adds

A page is the text written so far.  A node adds something when it is entered and
something when it is left (`Page.enter`, `Page.leave`); leaves and images are
written whole on entering.  Blocks begin on a line of their own.

A paragraph directly in an item of a tight list is bare: it gets no tags.  An
image's description becomes its `alt` text, without markup.
-/
import MarkdownForest.Html.Escape
import MarkdownForest.Tree

namespace MarkdownForest.Html

set_option autoImplicit false

open Text

/-- How a tree is rendered. -/
structure RenderOptions where
  hardbreaks : Bool := false
  safe : Bool := false
  deriving DecidableEq, Repr, Inhabited

/-- The text written so far, the last character first. -/
structure Page where
  reversed : List Char := []

namespace Page

def text (p : Page) : List Char :=
  p.reversed.reverse

/-- Adds text as it is. -/
def add (p : Page) (s : List Char) : Page :=
  ⟨s.reverseAux p.reversed⟩

@[simp] theorem text_add (p : Page) (s : List Char) : (p.add s).text = p.text ++ s := by
  simp [text, add, List.reverseAux_eq]

/-- Adds markup. -/
def tag (p : Page) (s : String) : Page :=
  p.add s.toList

/-- Adds escaped text. -/
def addText (p : Page) (s : String) : Page :=
  p.add (escapeText s.toList)

/-- Starts a new line, unless nothing is written yet or a line has just begun. -/
def startLine (p : Page) : Page :=
  match p.reversed with
  | [] | '\n' :: _ => p
  | _ => p.add ['\n']

/-- Adds an address, or nothing if it is dropped. -/
def addUrl (o : RenderOptions) (url : String) (p : Page) : Page :=
  if o.safe && isUnsafeUrl url.toList then p else p.add (escapeAddress url.toList)

/-- Adds a title attribute, unless the title is empty. -/
def addTitle (title : String) (p : Page) : Page :=
  if title.isEmpty then p else ((p.tag " title=\"").addText title).tag "\""

/-- What stands for raw HTML in safe rendering. -/
def rawOmitted : String := "<!-- raw HTML omitted -->"

/-- Adds raw HTML, or a comment in its place. -/
def addRaw (o : RenderOptions) (raw : String) (p : Page) : Page :=
  if o.safe then p.tag rawOmitted else p.tag raw

/-- The first word of an info string. -/
def language (info : String) : List Char :=
  (trimStart info.toList).takeWhile fun c => !isSpace c

/-- Adds the class that the first word of an info string gives to code. -/
def addLanguage (info : String) (p : Page) : Page :=
  match language info with
  | [] => p
  | word => ((p.tag " class=\"language-").add (escapeText word)).tag "\""

/-- What is written on entering a node.  `bare` tells of a paragraph without tags, and `alt` is the
description of an image. -/
def enter (o : RenderOptions) (bare : Bool) (alt : List Char) (c : Content) (p : Page) : Page :=
  match c with
  | .document => p
  | .blockQuote => p.startLine.tag "<blockquote>\n"
  | .list .bullet _ _ => p.startLine.tag "<ul>\n"
  | .list .ordered start _ =>
    if start = 1 then p.startLine.tag "<ol>\n"
    else p.startLine.tag ("<ol start=\"" ++ toString start ++ "\">\n")
  | .item => p.startLine.tag "<li>"
  | .header level => p.startLine.tag ("<h" ++ toString level ++ ">")
  | .codeBlock info literal =>
    ((((p.startLine.tag "<pre><code").addLanguage info).tag ">").addText literal).tag
      "</code></pre>\n"
  | .html literal => (p.startLine.addRaw o literal).startLine
  | .paragraph => if bare then p else p.startLine.tag "<p>"
  | .hrule => p.startLine.tag "<hr />\n"
  | .text literal => p.addText literal
  | .softbreak => if o.hardbreaks then p.tag "<br />\n" else p.tag "\n"
  | .linebreak => p.tag "<br />\n"
  | .code literal => ((p.tag "<code>").addText literal).tag "</code>"
  | .inlineHtml literal => p.addRaw o literal
  | .emph => p.tag "<em>"
  | .strong => p.tag "<strong>"
  | .link url title => ((((p.tag "<a href=\"").addUrl o url).tag "\"").addTitle title).tag ">"
  | .image url title =>
    ((((((p.tag "<img src=\"").addUrl o url).tag "\" alt=\"").add (escapeText alt)).tag
      "\"").addTitle title).tag " />"

/-- What is written on leaving a node. -/
def leave (bare : Bool) (c : Content) (p : Page) : Page :=
  match c with
  | .blockQuote => p.startLine.tag "</blockquote>\n"
  | .list .bullet _ _ => p.startLine.tag "</ul>\n"
  | .list .ordered _ _ => p.startLine.tag "</ol>\n"
  | .item => p.tag "</li>\n"
  | .header level => p.tag ("</h" ++ toString level ++ ">\n")
  | .paragraph => if bare then p else p.tag "</p>\n"
  | .emph => p.tag "</em>"
  | .strong => p.tag "</strong>"
  | .link _ _ => p.tag "</a>"
  | _ => p

end Page

/-- The plain text that a node itself adds to a description. -/
def plainContent : Content → List Char
  | .text literal | .code literal | .inlineHtml literal => literal.toList
  | .softbreak | .linebreak => [' ']
  | _ => []

end MarkdownForest.Html
