/-
# MarkdownForest.Proofs.SafeRendering -- safe pages keep to their vocabulary

With safe rendering no literal, address, title or info string, and no raw HTML,
adds a tag of its own: the tags of a page are those of its tree.

* `skeleton o q t`: the shapes of a tree, by recursion over the tree alone;
* `Adds p p' ss`: from a page to a longer one, by a text with the shapes `ss`;
* `adds_leave`, `adds_enter`: what one node adds, around what is inside it or
  whole;
* `adds_renderOnto`: what a tree adds are its shapes.

`run_safe_html` is the statement on every live node of every forest that
requests lead to.
-/
import MarkdownForest.Proofs.Markup
import MarkdownForest.Proofs.Rendering
import MarkdownForest.Proofs.Requests

namespace MarkdownForest

set_option autoImplicit false

namespace Html

/-! ## The shapes of trees -/

/-- The shapes of a node, around those inside it.  Neither literals nor addresses, titles and info
strings have any. -/
def shapesOf (o : RenderOptions) (bare : Bool) (inside : List Shape) : Content → List Shape
  | .document => inside
  | .blockQuote => [.element "blockquote" inside]
  | .list .bullet _ _ => [.element "ul" inside]
  | .list .ordered _ _ => [.element "ol" inside]
  | .item => [.element "li" inside]
  | .header level => [.element ("h" ++ toString level) inside]
  | .codeBlock _ _ => [.element "pre" [.element "code" []]]
  | .html _ | .inlineHtml _ => [.omitted]
  | .paragraph => if bare then inside else [.element "p" inside]
  | .hrule => [.void "hr"]
  | .text _ => []
  | .softbreak => if o.hardbreaks then [.void "br"] else []
  | .linebreak => [.void "br"]
  | .code _ => [.element "code" []]
  | .emph => [.element "em" inside]
  | .strong => [.element "strong" inside]
  | .link _ _ => [.element "a" inside]
  | .image _ _ => [.void "img"]

mutual
/-- The shapes of a tree at a place. -/
def skeleton (o : RenderOptions) (q : Place) : Tree → List Shape
  | .node c children => shapesOf o q.grandparentTight (skeletons o (q.below c) children) c

def skeletons (o : RenderOptions) (q : Place) : List Tree → List Shape
  | [] => []
  | t :: more => skeleton o q t ++ skeletons o q more
end

/-! ## Pages -/

/-- From a page to a longer one, by a text that has shapes. -/
def Adds (p p' : Page) (ss : List Shape) : Prop :=
  ∃ s, p'.text = p.text ++ s ∧ Markup ss s

/-- From a page to the one with a tag more, and perhaps the end of its line. -/
def Page.Tagged (p : Page) (t : Tag) (p' : Page) : Prop :=
  p'.text = p.text ++ t.text ∨ p'.text = p.text ++ t.text ++ ['\n']

section Pages

variable {p p₁ p₂ p₃ : Page} {ss ts : List Shape} {s : List Char} {name : String}
  {given : List Attribute}

theorem Page.Tagged.text_eq {t : Tag} (h : p.Tagged t p₁) :
    ∃ space, p₁.text = p.text ++ (t.text ++ space) ∧ Markup [] space := by
  obtain h | h := h
  · exact ⟨[], by rw [h, List.append_nil], .nil⟩
  · have words : ∀ c ∈ ['\n'], c ≠ '<' ∧ c ≠ '>' := List.all_iff_forall_prop.mp (by decide)
    exact ⟨['\n'], by rw [h, List.append_assoc], .ofWords words⟩

theorem Page.tag_tag (s t : String) : (p.tag s).tag t = p.tag (s ++ t) := by
  simp [Page.tag, Page.add, List.reverseAux_eq]

theorem Page.Tagged.tag {t : Tag} {s : String}
    (h : s.toList = t.text ∨ s.toList = t.text ++ ['\n']) : p.Tagged t (p.tag s) := by
  obtain h | h := h
  · exact .inl (by rw [Page.tag, Page.text_add, h])
  · exact .inr (by rw [Page.tag, Page.text_add, h, List.append_assoc])

/-- Beginning a line adds a line feed, or nothing. -/
theorem Page.startLine_cases (p : Page) : p.startLine = p ∨ p.startLine = p.add ['\n'] := by
  unfold Page.startLine
  split
  · exact .inl rfl
  · exact .inl rfl
  · exact .inr rfl

namespace Adds

theorem refl (p : Page) : Adds p p [] :=
  ⟨[], (List.append_nil _).symm, .nil⟩

theorem trans (h : Adds p p₁ ss) (h' : Adds p₁ p₂ ts) : Adds p p₂ (ss ++ ts) := by
  obtain ⟨s, e, m⟩ := h
  obtain ⟨t, e', m'⟩ := h'
  exact ⟨s ++ t, by rw [e', e, List.append_assoc], m.append m'⟩

theorem words (p : Page) (words : ∀ c ∈ s, c ≠ '<' ∧ c ≠ '>') : Adds p (p.add s) [] :=
  ⟨s, p.text_add s, .ofWords words⟩

theorem literal (p : Page) (s : String) : Adds p (p.addText s) [] :=
  words p fun c hc => (harmless_escapeText s.toList c hc).2

theorem startLine (p : Page) : Adds p p.startLine [] := by
  rcases p.startLine_cases with same | line
  · rw [same]
    exact refl p
  · rw [line]
    exact words p (by simp)

/-- Something begins on a line of its own. -/
theorem onLine (h : Adds p.startLine p₁ ss) : Adds p p₁ ss :=
  (startLine p).trans h

/-- Something ends a line. -/
theorem toLine (h : Adds p p₁ ss) : Adds p p₁.startLine ss := by
  rw [← List.append_nil ss]
  exact h.trans (startLine p₁)

/-- An element, around what is added between its tags. -/
theorem element (sound : (Tag.opening name given).Sound)
    (opened : p.Tagged (.opening name given) p₁) (h : Adds p₁ p₂ ss)
    (closed : p₂.Tagged (.closing name) p₃) : Adds p p₃ [.element name ss] := by
  -- the end of a line after the first tag is inside, that after the last one follows
  obtain ⟨before, e₁, blank⟩ := opened.text_eq
  obtain ⟨s, e₂, inside⟩ := h
  obtain ⟨after, e₃, blank'⟩ := closed.text_eq
  refine ⟨_, ?_, (blank.append inside).element sound blank'⟩
  rw [e₃, e₂, e₁]
  simp only [List.append_assoc]

/-- An element without attributes. -/
theorem plain {opening closing : String} (named : name ∈ elements)
    (opened : opening.toList = (Tag.opening name []).text ∨
      opening.toList = (Tag.opening name []).text ++ ['\n'])
    (h : Adds (p.tag opening) p₂ ss)
    (closed : closing.toList = (Tag.closing name).text ∨
      closing.toList = (Tag.closing name).text ++ ['\n']) :
    Adds p (p₂.tag closing) [.element name ss] := by
  have sound : (Tag.opening name []).Sound := ⟨named, List.forall_mem_nil _⟩
  exact element sound (.tag opened) h (.tag closed)

theorem void (sound : (Tag.void name given).Sound) (h : p.Tagged (.void name given) p₁) :
    Adds p p₁ [.void name] := by
  obtain ⟨space, e, blank⟩ := h.text_eq
  exact ⟨_, e, blank.void sound⟩

/-- A void without attributes. -/
theorem plainVoid {s : String} (named : name ∈ voids)
    (h : s.toList = (Tag.void name []).text ∨ s.toList = (Tag.void name []).text ++ ['\n']) :
    Adds p (p.tag s) [.void name] := by
  have sound : (Tag.void name []).Sound := ⟨named, List.forall_mem_nil _⟩
  exact void sound (.tag h)

theorem omitted (h : p.Tagged .omitted p₁) : Adds p p₁ [.omitted] := by
  obtain ⟨space, e, blank⟩ := h.text_eq
  exact ⟨_, e, blank.omitted⟩

end Adds

end Pages

/-! ## Attributes -/

section Attributes

variable (o : RenderOptions) (url title info : String) (start : Nat)

/-- The value for an address; it is empty if the address is dropped. -/
def urlValue : List Char :=
  if o.safe && isUnsafeUrl url.toList then [] else escapeAddress url.toList

def titleAttributes : List Attribute :=
  if title.isEmpty then [] else [⟨"title", escapeText title.toList⟩]

/-- The class that the first word of an info string gives. -/
def languageAttributes : List Attribute :=
  match Page.language info with
  | [] => []
  | word => [⟨"class", "language-".toList ++ escapeText word⟩]

def startAttributes : List Attribute :=
  if start = 1 then [] else [⟨"start", (toString start).toList⟩]

theorem harmless_urlValue : ∀ c ∈ urlValue o url, Harmless c := by
  rw [urlValue]
  split
  · exact List.forall_mem_nil _
  · exact harmless_escapeAddress url.toList

theorem sound_titleAttributes : ∀ a ∈ titleAttributes title, a.Sound := by
  rw [titleAttributes]
  split
  · exact List.forall_mem_nil _
  · exact List.forall_mem_singleton.mpr ⟨by simp [attributes], harmless_escapeText title.toList⟩

theorem sound_languageAttributes : ∀ a ∈ languageAttributes info, a.Sound := by
  rw [languageAttributes]
  split
  · exact List.forall_mem_nil _
  · refine List.forall_mem_singleton.mpr ⟨by simp [attributes], ?_⟩
    intro c hc
    have start : ∀ c ∈ "language-".toList, Harmless c :=
      List.all_iff_forall_prop.mp (by decide)
    obtain hc | hc := List.mem_append.mp hc
    · exact start c hc
    · exact harmless_escapeText _ c hc

theorem sound_startAttributes : ∀ a ∈ startAttributes start, a.Sound := by
  rw [startAttributes]
  split
  · exact List.forall_mem_nil _
  · exact List.forall_mem_singleton.mpr ⟨by simp [attributes], harmless_toString start⟩

theorem sound_code : (Tag.opening "code" (languageAttributes info)).Sound :=
  ⟨by decide, sound_languageAttributes info⟩

theorem sound_ordered : (Tag.opening "ol" (startAttributes start)).Sound :=
  ⟨by decide, sound_startAttributes start⟩

theorem sound_link :
    (Tag.opening "a" (⟨"href", urlValue o url⟩ :: titleAttributes title)).Sound := by
  have href : Attribute.Sound ⟨"href", urlValue o url⟩ :=
    ⟨by simp [attributes], harmless_urlValue o url⟩
  exact ⟨by decide, List.forall_mem_cons.mpr ⟨href, sound_titleAttributes title⟩⟩

theorem sound_image (alt : List Char) :
    (Tag.void "img"
      (⟨"src", urlValue o url⟩ :: ⟨"alt", escapeText alt⟩ :: titleAttributes title)).Sound := by
  have src : Attribute.Sound ⟨"src", urlValue o url⟩ :=
    ⟨by simp [attributes], harmless_urlValue o url⟩
  have description : Attribute.Sound ⟨"alt", escapeText alt⟩ :=
    ⟨by simp [attributes], harmless_escapeText alt⟩
  have more := List.forall_mem_cons.mpr ⟨description, sound_titleAttributes title⟩
  exact ⟨by decide, List.forall_mem_cons.mpr ⟨src, more⟩⟩

variable {p : Page}

theorem text_addUrl : (p.addUrl o url).text = p.text ++ urlValue o url := by
  rw [Page.addUrl, urlValue]
  split
  · exact (List.append_nil _).symm
  · exact p.text_add _

theorem text_addTitle :
    (p.addTitle title).text = p.text ++ (titleAttributes title).flatMap Attribute.text := by
  rw [Page.addTitle, titleAttributes]
  split
  · exact (List.append_nil _).symm
  · simp [Page.tag, Page.addText, Attribute.text]

theorem text_addLanguage :
    (p.addLanguage info).text = p.text ++ (languageAttributes info).flatMap Attribute.text := by
  rw [Page.addLanguage, languageAttributes]
  cases Page.language info with
  | nil => exact (List.append_nil _).symm
  | cons c word => simp [Page.tag, Attribute.text]

end Attributes

/-! ## Nodes -/

section Nodes

variable {o : RenderOptions} {bare : Bool} {alt : List Char} {c : Content} {p p' : Page}
  {ss : List Shape}

/-! The tags that are put together. -/

theorem header_tags {level : Nat} (range : (Content.header level).InRange) :
    "h" ++ toString level ∈ elements ∧
      ("<h" ++ toString level ++ ">").toList = (Tag.opening ("h" ++ toString level) []).text ∧
      ("</h" ++ toString level ++ ">\n").toList =
        (Tag.closing ("h" ++ toString level)).text ++ ['\n'] := by
  have every : ∀ level < 7, 1 ≤ level → "h" ++ toString level ∈ elements := by decide
  refine ⟨every level (Nat.lt_succ_of_le range.2) range.1, ?_, ?_⟩
  · simp [Tag.text]
  · simp [Tag.text]

theorem tagged_ordered (start : Nat) (tight : Bool) :
    p.startLine.Tagged (.opening "ol" (startAttributes start))
      (p.enter o bare alt (.list .ordered start tight)) := by
  rw [Page.enter, startAttributes]
  split
  · exact .tag (.inr (by decide))
  · exact .tag (.inr (by simp [Tag.text, Attribute.text]))

theorem tagged_link (url title : String) :
    p.Tagged (.opening "a" (⟨"href", urlValue o url⟩ :: titleAttributes title))
      (p.enter o bare alt (.link url title)) :=
  .inl (by simp [Page.enter, Page.tag, text_addUrl, text_addTitle, Tag.text, Attribute.text])

theorem tagged_image (url title : String) :
    p.Tagged
      (.void "img" (⟨"src", urlValue o url⟩ :: ⟨"alt", escapeText alt⟩ :: titleAttributes title))
      (p.enter o bare alt (.image url title)) :=
  .inl (by simp [Page.enter, Page.tag, text_addUrl, text_addTitle, Tag.text, Attribute.text])

theorem tagged_language (info : String) :
    p.Tagged (.opening "code" (languageAttributes info))
      (((p.tag "<code").addLanguage info).tag ">") :=
  .inl (by simp [Page.tag, text_addLanguage, Tag.text])

theorem tag_preCode (p : Page) : p.tag "<pre><code" = (p.tag "<pre>").tag "<code" := by
  rw [Page.tag_tag]
  rfl

theorem tag_codePre (p : Page) : p.tag "</code></pre>\n" = (p.tag "</code>").tag "</pre>\n" := by
  rw [Page.tag_tag]
  rfl

/-- Code whose tag may name a language, around its literal. -/
theorem adds_code (info literal : String) :
    Adds p (((((p.tag "<code").addLanguage info).tag ">").addText literal).tag "</code>")
      [.element "code" []] :=
  .element (sound_code info) (tagged_language info) (.literal _ literal) (.tag (by decide))

/-- Raw HTML is left out. -/
theorem adds_raw (safe : o.safe = true) (raw : String) : Adds p (p.addRaw o raw) [.omitted] := by
  rw [Page.addRaw, if_pos safe]
  exact .omitted (.tag (.inl rfl))

/-- What a node that is left again adds, around what is inside it. -/
theorem adds_leave (range : c.InRange) (inner : c.kind.isLeaf = false) (other : c.kind ≠ .image)
    (inside : Adds (p.enter o bare alt c) p' ss) :
    Adds p (p'.leave bare c) (shapesOf o bare ss c) := by
  cases c with
  | document => exact inside
  | blockQuote => exact .onLine (.plain (by decide) (by decide) inside.toLine (by decide))
  | list type start tight =>
    cases type with
    | bullet => exact .onLine (.plain (by decide) (by decide) inside.toLine (by decide))
    | ordered =>
      exact .onLine (.element (sound_ordered start) (tagged_ordered start tight) inside.toLine
        (.tag (by decide)))
  | item => exact .onLine (.plain (by decide) (by decide) inside (by decide))
  | header level =>
    obtain ⟨named, opening, closing⟩ := header_tags range
    exact .onLine (.plain named (.inl opening) inside (.inr closing))
  | paragraph =>
    cases bare with
    | true => exact inside
    | false => exact .onLine (.plain (by decide) (by decide) inside (by decide))
  | emph => exact .plain (by decide) (by decide) inside (by decide)
  | strong => exact .plain (by decide) (by decide) inside (by decide)
  | link url title =>
    exact .element (sound_link o url title) (tagged_link url title) inside (.tag (by decide))
  | image url title => exact absurd rfl other
  | codeBlock | html | hrule | text | softbreak | linebreak | code | inlineHtml => cases inner

/-- What a node that is written whole adds. -/
theorem adds_enter (safe : o.safe = true) (whole : c.kind.isLeaf ∨ c.kind = .image) :
    Adds p (p.enter o bare alt c) (shapesOf o bare ss c) := by
  cases c with
  | codeBlock info literal =>
    rw [Page.enter, tag_preCode, tag_codePre]
    exact .onLine (.plain (by decide) (by decide) (adds_code info literal) (by decide))
  | html literal => exact .onLine (adds_raw safe literal).toLine
  | hrule => exact .onLine (.plainVoid (by decide) (by decide))
  | text literal => exact .literal p literal
  | softbreak =>
    rw [Page.enter, shapesOf]
    split
    · exact .plainVoid (by decide) (by decide)
    · exact .words p (List.all_iff_forall_prop.mp (by decide))
  | linebreak => exact .plainVoid (by decide) (by decide)
  | code literal => exact .plain (by decide) (by decide) (.literal _ literal) (by decide)
  | inlineHtml literal => exact adds_raw safe literal
  | image url title => exact .void (sound_image o url title alt) (tagged_image url title)
  | document | blockQuote | list | item | paragraph | header | emph | strong | link =>
    simp [Content.kind, Kind.isLeaf] at whole

end Nodes

/-! ## Trees -/

section Trees

variable {o : RenderOptions}

mutual
/-- With safe rendering a tree adds its shapes. -/
theorem adds_renderOnto (safe : o.safe = true) (q : Place) (p : Page) :
    ∀ t : Tree, t.WellFormed → Adds p (renderOnto o q p t) (skeleton o q t)
  | .node c ts => by
    intro h
    simp only [Tree.WellFormed] at h
    obtain ⟨range, -, below⟩ := h
    rw [skeleton]
    by_cases image : c.kind = .image
    · rw [renderOnto_image image]
      exact adds_enter safe (.inr image)
    · rw [renderOnto_other image]
      split
      · rename_i leaf
        exact adds_enter safe (.inl leaf)
      · rename_i inner
        apply adds_leave range (Bool.eq_false_iff.mpr inner) image
        exact adds_renderAllOnto safe (q.below c) (p.enter o q.grandparentTight [] c) ts below

theorem adds_renderAllOnto (safe : o.safe = true) (q : Place) (p : Page) :
    ∀ ts : List Tree, Tree.WellFormedList ts →
      Adds p (renderAllOnto o q p ts) (skeletons o q ts)
  | [] => fun _ => .refl p
  | t :: ts => by
    intro h
    simp only [Tree.WellFormedList] at h
    rw [renderAllOnto, skeletons]
    exact (adds_renderOnto safe q p t h.1).trans (adds_renderAllOnto safe q _ ts h.2)
end

/-- Safely rendered, a tree at a place has its shapes. -/
theorem markup_renderAt (safe : o.safe = true) (q : Place) {t : Tree} (h : t.WellFormed) :
    Markup (skeleton o q t) (renderAt o q t).toList := by
  obtain ⟨s, e, markup⟩ := adds_renderOnto safe q {} t h
  have text : (renderAt o q t).toList = s := by
    rw [renderAt, String.toList_ofList, e]
    rfl
  rw [text]
  exact markup

end Trees

end Html

/-! ## Forests -/

theorem Content.inRange_visible {c : Content} (h : c.InRange) : c.visible.InRange := by
  cases c with
  | list type start tight =>
    cases type with
    | bullet =>
      show 1 < UInt32.size
      decide
    | ordered => exact h
  | _ => exact h

namespace Forest

open Html

variable {f : Forest} {x : NodeId}

/-- The tree that a live node shows is well formed. -/
theorem Sound.wellFormed_treeAt (s : Sound f) (hx : f.contains x) : (f.treeAt x).WellFormed := by
  refine s.linked.induction_below (motive := fun x => (f.treeAt x).WellFormed)
    (fun x hx ih => ?_) x hx
  have content := content?_eq hx
  rw [s.linked.treeAt_eq hx, Tree.WellFormed, Tree.wellFormedList_iff]
  refine ⟨Content.inRange_visible (s.inRange content), ?_, ?_⟩
  · intro t ht
    obtain ⟨y, hy, rfl⟩ := List.mem_map.mp ht
    have live := (s.linked.live hy).1
    have fits := s.placed (s.linked.parent?_iff.mpr hy) (content?_eq live) content
    rw [s.linked.treeAt_eq live, Tree.kind, Tree.content, Content.kind_visible,
      Content.kind_visible]
    exact fits
  · intro t ht
    obtain ⟨y, hy, rfl⟩ := List.mem_map.mp ht
    exact ih y hy

/-- **Safe rendering keeps to its vocabulary.**  Every live node of a forest is rendered, along the
links and by its tree alike, and what is written has the shapes of the tree: whatever literals,
addresses, titles and info strings hold, no tag is made by them, every tag is closed where the tree
closes it, and every angle bracket that opens something begins a tag of the vocabulary. -/
theorem run_safe_html (rs : List Request) (x : NodeId) (hardbreaks : Bool)
    (live : (run rs).contains x) :
    let o : RenderOptions := { hardbreaks, safe := true }
    ∃ s t, (LinkWalk.html (run rs) o x).run = .some (.ok s) ∧ (run rs).html o x = .ok s ∧
      (run rs).snapshot x = .ok t ∧ Markup (skeleton o ((run rs).placeAt x) t) s.toList ∧
      Angles s.toList := by
  intro o
  have sound := sound_run rs
  have html := sound.linked.html_renderAt (o := o) live
  have markup := markup_renderAt (o := o) rfl ((run rs).placeAt x) (sound.wellFormed_treeAt live)
  refine ⟨_, _, ?_, html, snapshot_ok.mpr ⟨live, rfl⟩, markup, markup.angles⟩
  rw [sound.linked.linkHtml_eq live, html]

/-- A paragraph whose link, title and literals try to leave it. -/
def escapees : List Request :=
  [.newNode .paragraph, .newNode .link, .newNode .text, .newNode .inlineHtml,
    .appendChild ⟨0, 0⟩ ⟨1, 0⟩, .appendChild ⟨1, 0⟩ ⟨2, 0⟩, .appendChild ⟨0, 0⟩ ⟨3, 0⟩,
    .set (.url "\"><hr>") ⟨1, 0⟩, .set (.title "\"></a>") ⟨1, 0⟩, .set (.literal "</a><p>") ⟨2, 0⟩,
    .set (.literal "</p>") ⟨3, 0⟩]

theorem escapees_safe_html :
    let o : RenderOptions := { hardbreaks := true, safe := true }
    (run escapees).contains ⟨0, 0⟩ ∧
      (run escapees).html o ⟨0, 0⟩ = .ok
        ("<p><a href=\"%22%3E%3Chr%3E\" title=\"&quot;&gt;&lt;/a&gt;\">&lt;/a&gt;&lt;p&gt;</a>" ++
          "<!-- raw HTML omitted --></p>\n") ∧
      ∃ s t, (LinkWalk.html (run escapees) o ⟨0, 0⟩).run = .some (.ok s) ∧
        (run escapees).html o ⟨0, 0⟩ = .ok s ∧ (run escapees).snapshot ⟨0, 0⟩ = .ok t ∧
        Markup (skeleton o ((run escapees).placeAt ⟨0, 0⟩) t) s.toList ∧ Angles s.toList := by
  intro o
  have live : (run escapees).contains ⟨0, 0⟩ := by decide
  refine ⟨live, ?_, run_safe_html escapees ⟨0, 0⟩ true live⟩
  decide +kernel

end Forest

end MarkdownForest
