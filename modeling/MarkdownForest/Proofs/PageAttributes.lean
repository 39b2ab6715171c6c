/-
# MarkdownForest.Proofs.PageAttributes -- the attributes that a reader finds in a page

A page is read one character at a time, with the states of a tokenizer: outside
tags, in the name of an element, in the name of an attribute, in a value with
quotes or without, in a comment.  What is read is nothing but the text, so an
attribute is found wherever a reader would take the text to have one, whoever
wrote it.

* `Spot.step`, `Spot.read`: one character, a text;
* `Tag.Sound.read`: a tag of the vocabulary has the attributes it was given;
* `Gives p p' as`: from a page to a longer one, by a text in which a reader
  finds the attributes `as`, and after which it is outside tags again;
* `gives_enter`, `gives_leave`: what one node adds with safe rendering;
* `gives_events`: what a walk adds, by induction on its events.
-/
import MarkdownForest.Proofs.SafeRendering

namespace MarkdownForest

set_option autoImplicit false

namespace Html

/-! ## Readers -/

deriving instance DecidableEq for Attribute

/-- Where a reader is in a text. -/
inductive Spot where
  | outside
  /-- Behind the bracket that may open a tag. -/
  | opened
  | closing
  | element
  /-- In a tag, before the next attribute. -/
  | between
  | name (n : List Char)
  /-- Behind a name, which may have a value. -/
  | named (n : List Char)
  /-- Behind an equals sign. -/
  | before (n : List Char)
  | quoted (n : List Char) (mark : Char) (v : List Char)
  | bare (n v : List Char)
  /-- Behind an opening bracket and an exclamation mark. -/
  | bang
  | bangDash
  /-- What is dropped up to the next closing bracket. -/
  | bogus
  /-- In a comment, behind so many dashes. -/
  | comment (dashes : Nat)
  deriving DecidableEq

namespace Spot

def isBlank (c : Char) : Bool :=
  [' ', '\n', '\t', '\x0C', '\r'].contains c

/-- An attribute that is complete. -/
def found (n v : List Char) : List Attribute :=
  [⟨String.ofList n, v⟩]

/-- Where a reader is after a character, and the attributes that the character completes. -/
def step : Spot → Char → Spot × List Attribute
  | outside, c => (if c = '<' then opened else outside, [])
  | opened, c =>
    (if c.isAlpha then element
      else if c = '/' then closing
      else if c = '!' then bang
      else if c = '?' then bogus
      else if c = '<' then opened
      else outside, [])
  | closing, c => (if c.isAlpha then element else if c = '>' then outside else bogus, [])
  | element, c =>
    (if c = '>' then outside else if isBlank c ∨ c = '/' then between else element, [])
  | between, c =>
    (if c = '>' then outside else if isBlank c ∨ c = '/' then between else name [c.toLower], [])
  | name n, c =>
    if c = '=' then (before n, [])
    else if c = '>' then (outside, found n [])
    else if c = '/' then (between, found n [])
    else if isBlank c then (named n, [])
    else (name (n ++ [c.toLower]), [])
  | named n, c =>
    if c = '=' then (before n, [])
    else if c = '>' then (outside, found n [])
    else if c = '/' then (between, found n [])
    else if isBlank c then (named n, [])
    else (name [c.toLower], found n [])
  | before n, c =>
    if isBlank c then (before n, [])
    else if c = '>' then (outside, found n [])
    else if c = '\x22' ∨ c = '\x27' then (quoted n c [], [])
    else (bare n [c], [])
  | quoted n mark v, c => if c = mark then (between, found n v) else (quoted n mark (v ++ [c]), [])
  | bare n v, c =>
    if c = '>' then (outside, found n v)
    else if isBlank c then (between, found n v)
    else (bare n (v ++ [c]), [])
  | bang, c => (if c = '-' then bangDash else if c = '>' then outside else bogus, [])
  | bangDash, c => (if c = '-' then comment 2 else if c = '>' then outside else bogus, [])
  | bogus, c => (if c = '>' then outside else bogus, [])
  | comment dashes, c =>
    (if c = '-' then comment (dashes + 1)
      else if c = '>' ∧ 2 ≤ dashes then outside
      else comment 0, [])

/-- Where a reader is after a text, and the attributes that it finds in it. -/
def read : Spot → List Char → Spot × List Attribute
  | q, [] => (q, [])
  | q, c :: s =>
    let (q', here) := q.step c
    let (r, later) := q'.read s
    (r, here ++ later)

variable {q q' r : Spot} {s t : List Char} {as bs : List Attribute}

theorem read_cons {c : Char} (here : q.step c = (q', as)) (later : q'.read s = (r, bs)) :
    q.read (c :: s) = (r, as ++ bs) := by
  rw [read, here]
  simp only [later]

/-- One text after the other. -/
theorem read_append (here : q.read s = (q', as)) (later : q'.read t = (r, bs)) :
    q.read (s ++ t) = (r, as ++ bs) := by
  induction s generalizing q as with
  | nil =>
    cases here
    exact later
  | cons c s ih =>
    rw [read] at here
    cases here
    rw [List.append_assoc]
    exact read_cons rfl (ih rfl)

/-- Outside tags a reader stays outside, up to an opening bracket. -/
theorem read_words (words : ∀ c ∈ s, c ≠ '<') : outside.read s = (outside, []) := by
  induction s with
  | nil => rfl
  | cons c s ih =>
    obtain ⟨here, later⟩ := List.forall_mem_cons.mp words
    exact read_cons (by rw [step, if_neg here]) (ih later)

/-- A value in quotes, up to the quote that ends it. -/
theorem read_value {n v w : List Char} {mark : Char} (inside : ∀ c ∈ w, c ≠ mark) :
    (quoted n mark v).read (w ++ [mark]) = (between, found n (v ++ w)) := by
  induction w generalizing v with
  | nil =>
    rw [List.append_nil, List.nil_append, read, step, if_pos rfl]
    rfl
  | cons c w ih =>
    obtain ⟨here, later⟩ := List.forall_mem_cons.mp inside
    have stays : (quoted n mark v).step c = (quoted n mark (v ++ [c]), []) := by
      rw [step, if_neg here]
    rw [List.append_cons v]
    exact read_cons stays (ih later)

end Spot

open Spot

/-! ## Tags -/

/-- An attribute of the vocabulary, behind an element's name or another attribute. -/
theorem Attribute.Sound.read {a : Attribute} {q : Spot} (h : a.Sound)
    (blank : q.step ' ' = (between, [])) : q.read a.text = (between, [a]) := by
  obtain ⟨n, v⟩ := a
  have name : ∀ n ∈ attributes,
      between.read (n.toList ++ ['=', '\x22']) = (quoted n.toList '\x22' [], []) := by
    decide
  have value : (quoted n.toList '\x22' []).read (v ++ ['\x22']) = (between, [⟨n, v⟩]) := by
    rw [read_value fun c hc => (h.value c hc).1, found, String.ofList_toList, List.nil_append]
  have text : Attribute.text ⟨n, v⟩ = ' ' :: (n.toList ++ ['=', '\x22'] ++ (v ++ ['\x22'])) := by
    simp [Attribute.text]
  rw [text]
  exact read_cons blank (read_append (name n h.named) value)

/-- The attributes of a tag, up to what ends it. -/
theorem read_attributes {given : List Attribute} {q : Spot} {ending : List Char}
    (sound : ∀ a ∈ given, a.Sound) (blank : q.step ' ' = (between, []))
    (ended : q.read ending = (outside, [])) (behind : between.read ending = (outside, [])) :
    q.read (given.flatMap Attribute.text ++ ending) = (outside, given) := by
  induction given generalizing q with
  | nil => exact ended
  | cons a given ih =>
    obtain ⟨here, later⟩ := List.forall_mem_cons.mp sound
    rw [List.flatMap_cons, List.append_assoc]
    exact read_append (here.read blank) (ih later rfl behind)

namespace Tag

def given : Tag → List Attribute
  | opening _ as | void _ as => as
  | closing _ | omitted => []

/-- In a tag of the vocabulary a reader finds the attributes it was given. -/
theorem Sound.read {t : Tag} (h : t.Sound) : outside.read t.text = (outside, t.given) := by
  have named : ∀ n ∈ elements ++ voids, outside.read ('<' :: n.toList) = (element, []) := by decide
  cases t with
  | opening n as =>
    rw [text, List.append_assoc]
    have name := named n (List.mem_append_left _ h.1)
    exact read_append name (read_attributes h.2 rfl rfl rfl)
  | closing n =>
    have closed : ∀ n ∈ elements,
        outside.read ('<' :: '/' :: n.toList ++ ['>']) = (outside, []) := by
      decide
    exact closed n h
  | void n as =>
    rw [text, List.append_assoc]
    have name := named n (List.mem_append_right _ h.1)
    exact read_append name (read_attributes h.2 rfl rfl rfl)
  | omitted => decide

end Tag

/-! ## Pages -/

/-- From a page to a longer one, by a text in which a reader finds attributes. -/
def Gives (p p' : Page) (as : List Attribute) : Prop :=
  ∃ s, p'.text = p.text ++ s ∧ outside.read s = (outside, as)

namespace Gives

variable {p p₁ p₂ : Page} {as bs : List Attribute}

theorem refl (p : Page) : Gives p p [] :=
  ⟨[], (List.append_nil _).symm, rfl⟩

theorem trans (h : Gives p p₁ as) (h' : Gives p₁ p₂ bs) : Gives p p₂ (as ++ bs) := by
  obtain ⟨s, e, reads⟩ := h
  obtain ⟨t, e', reads'⟩ := h'
  exact ⟨s ++ t, by rw [e', e, List.append_assoc], read_append reads reads'⟩

theorem words {s : List Char} (p : Page) (words : ∀ c ∈ s, c ≠ '<') : Gives p (p.add s) [] :=
  ⟨s, p.text_add s, read_words words⟩

theorem literal (p : Page) (s : String) : Gives p (p.addText s) [] :=
  words p fun c hc => (harmless_escapeText s.toList c hc).2.1

/-- Markup that is always the same. -/
theorem fixed {s : String} (p : Page) (reads : outside.read s.toList = (outside, [])) :
    Gives p (p.tag s) [] :=
  ⟨s.toList, p.text_add _, reads⟩

theorem startLine (p : Page) : Gives p p.startLine [] := by
  rcases p.startLine_cases with same | line
  · rw [same]
    exact refl p
  · rw [line]
    exact words p (by simp)

/-- Something begins on a line of its own. -/
theorem onLine (h : Gives p.startLine p₁ as) : Gives p p₁ as :=
  (startLine p).trans h

/-- Something that ends its line. -/
theorem toLine (h : Gives p p₁ as) : Gives p p₁.startLine as := by
  rw [← List.append_nil as]
  exact h.trans (startLine p₁)

/-- A tag that is put together. -/
theorem tagged {t : Tag} (sound : t.Sound) (h : p.Tagged t p₁) : Gives p p₁ t.given := by
  obtain h | h := h
  · exact ⟨t.text, h, sound.read⟩
  · refine ⟨t.text ++ ['\n'], by rw [h, List.append_assoc], ?_⟩
    rw [← List.append_nil t.given]
    exact read_append sound.read rfl

end Gives

/-! ## Nodes -/

section Nodes

variable {o : RenderOptions} {bare : Bool} {alt : List Char} {c : Content} {p : Page}

/-- The attributes of a node, whose description is `alt`. -/
def givenBy (o : RenderOptions) (alt : List Char) : Content → List Attribute
  | .list .ordered start _ => startAttributes start
  | .codeBlock info _ => languageAttributes info
  | .link url title => ⟨"href", urlValue o url⟩ :: titleAttributes title
  | .image url title =>
    ⟨"src", urlValue o url⟩ :: ⟨"alt", escapeText alt⟩ :: titleAttributes title
  | _ => []

/-- Raw HTML is left out. -/
theorem gives_raw (safe : o.safe = true) (p : Page) (raw : String) :
    Gives p (p.addRaw o raw) [] := by
  rw [Page.addRaw, if_pos safe]
  exact .fixed p (by decide)

/-- A header's tags are of the vocabulary. -/
theorem header_sound {level : Nat} (range : (Content.header level).InRange) :
    (Tag.opening ("h" ++ toString level) []).Sound ∧
      (Tag.closing ("h" ++ toString level)).Sound :=
  ⟨⟨(header_tags range).1, List.forall_mem_nil _⟩, (header_tags range).1⟩

/-- With safe rendering, entering a node adds its attributes. -/
theorem gives_enter (safe : o.safe = true) (range : c.InRange) :
    Gives p (p.enter o bare alt c) (givenBy o alt c) := by
  cases c with
  | document => exact .refl p
  | blockQuote => exact .onLine (.fixed _ (by decide))
  | list type start tight =>
    cases type with
    | bullet => exact .onLine (.fixed _ (by decide))
    | ordered => exact .onLine (.tagged (sound_ordered start) (tagged_ordered start tight))
  | item => exact .onLine (.fixed _ (by decide))
  | header level =>
    have text := (header_tags range).2.1
    exact .onLine (.tagged (header_sound range).1 (.tag (.inl text)))
  | codeBlock info literal =>
    have before : Gives p (p.startLine.tag "<pre>") [] := .onLine (.fixed _ (by decide))
    have code := before.trans (.tagged (sound_code info) (tagged_language info))
    have closing : ∀ p : Page, Gives p (p.tag "</code></pre>\n") [] := fun p =>
      .fixed p (by decide)
    have whole := (code.trans (.literal _ literal)).trans (closing _)
    rw [Page.enter, tag_preCode]
    simpa [Tag.given, givenBy] using whole
  | html literal => exact .onLine (gives_raw safe _ literal).toLine
  | paragraph =>
    cases bare with
    | true => exact .refl p
    | false => exact .onLine (.fixed _ (by decide))
  | hrule => exact .onLine (.fixed _ (by decide))
  | text literal => exact .literal p literal
  | softbreak =>
    rw [Page.enter]
    split
    · exact .fixed p (by decide)
    · exact .fixed p (by decide)
  | linebreak => exact .fixed p (by decide)
  | code literal =>
    have before : Gives p (p.tag "<code>") [] := .fixed p (by decide)
    exact (before.trans (.literal _ literal)).trans (.fixed _ (by decide))
  | inlineHtml literal => exact gives_raw safe p literal
  | emph => exact .fixed p (by decide)
  | strong => exact .fixed p (by decide)
  | link url title => exact .tagged (sound_link o url title) (tagged_link url title)
  | image url title => exact .tagged (sound_image o url title alt) (tagged_image url title)

/-- Leaving a node adds no attribute. -/
theorem gives_leave (range : c.InRange) : Gives p (p.leave bare c) [] := by
  cases c with
  | blockQuote => exact .onLine (.fixed _ (by decide))
  | list type start tight =>
    cases type with
    | bullet => exact .onLine (.fixed _ (by decide))
    | ordered => exact .onLine (.fixed _ (by decide))
  | header level =>
    have text := (header_tags range).2.2
    exact .tagged (header_sound range).2 (.tag (.inr text))
  | paragraph =>
    cases bare with
    | true => exact .refl p
    | false => exact .fixed p (by decide)
  | item | emph | strong | link => exact .fixed p (by decide)
  | document | codeBlock | html | hrule | text | softbreak | linebreak | code | inlineHtml
  | image => exact .refl p

end Nodes

end Html

/-! ## Walks -/

namespace Forest

open Html

variable {f : Forest} {o : RenderOptions}

/-- The attributes that a walk event adds to a page. -/
def givenAt (f : Forest) (o : RenderOptions) : WalkEvent → List Attribute
  | .enter x => givenBy o (if f.isImage x then f.description x else []) (f.contentAt x)
  | .exit _ => []

/-- With safe rendering, a walk over live nodes adds the attributes of its events. -/
theorem Sound.gives_events (sound : Sound f) (safe : o.safe = true) (p : Page)
    {es : List WalkEvent} (live : ∀ e ∈ es, f.contains e.node) :
    Gives p (es.foldl (f.renderEvent o) p) (es.flatMap (f.givenAt o)) := by
  induction es generalizing p with
  | nil => exact .refl p
  | cons e es ih =>
    obtain ⟨here, later⟩ := List.forall_mem_cons.mp live
    have range := sound.inRange (content?_eq here)
    have step : Gives p (f.renderEvent o p e) (f.givenAt o e) := by
      cases e with
      | enter x => exact gives_enter safe range
      | exit x => exact gives_leave range
    rw [List.foldl_cons, List.flatMap_cons]
    exact step.trans (ih _ later)

end Forest

end MarkdownForest
