/-
# MarkdownForest.Proofs.NestedLinks -- links in links of a document

What is found in the texts of blocks holds for documents: a link inside a link is
an autolink of the source (`parse_nestedLinks`), and this does happen
(`parse_autolink_in_link`).

* `Layout.infix_inlineText`: what is on one line of the text of a header or
  paragraph stands in one of the lines of the block;
* `Line.From`: an autolink that stands in a line, however deep inside containers,
  stands in the source.
-/
import MarkdownForest.Proofs.BlocksInside
import MarkdownForest.Proofs.Nesting
import MarkdownForest.Proofs.ScannedLinks
import MarkdownForest.Proofs.SourceLines

namespace MarkdownForest

set_option autoImplicit false

/-! ## The links of trees -/

namespace Tree

mutual
/-- The links of a tree, the outer before the inner. -/
def links : Tree → List Tree
  | node c ts => if c.kind = .link then node c ts :: linksList ts else linksList ts

def linksList : List Tree → List Tree
  | [] => []
  | t :: ts => t.links ++ linksList ts
end

@[simp] theorem linksList_nil : linksList [] = [] := by
  rw [linksList]

@[simp] theorem linksList_cons (t : Tree) (ts : List Tree) :
    linksList (t :: ts) = t.links ++ linksList ts := by
  rw [linksList]

/-- The node of an autolink that stands in `source`, with or without typographic punctuation. -/
def IsAutolink (smart : Bool) (source : List Char) (t : Tree) : Prop :=
  ∃ url address, IsAddress source url address ∧
    t = (Inline.link url [] [.text address]).toTree smart

/-- Links have no links inside but autolinks that stand in `source`. -/
def LinksApart (smart : Bool) (source : List Char) (ts : List Tree) : Prop :=
  ∀ t ∈ linksList ts, ∀ u ∈ linksList t.children, u.IsAutolink smart source

variable {smart : Bool} {source : List Char} {t : Tree} {ss ts : List Tree}

theorem LinksApart.nil : LinksApart smart source [] := by
  intro t ht
  rw [linksList_nil] at ht
  cases ht

theorem LinksApart.cons (h : LinksApart smart source [t]) (h' : LinksApart smart source ts) :
    LinksApart smart source (t :: ts) := by
  intro u hu
  rw [linksList_cons, List.mem_append] at hu
  rcases hu with hu | hu
  · exact h u (by simpa using hu)
  · exact h' u hu

/-- A node that is no link has the links of its children. -/
theorem LinksApart.node {c : Content} (other : c.kind ≠ .link) (h : LinksApart smart source ts) :
    LinksApart smart source [.node c ts] := by
  intro u hu
  rw [linksList_cons, linksList_nil, List.append_nil, links, if_neg other] at hu
  exact h u hu

end Tree

namespace Inline

mutual
theorem links_toTree (smart : Bool) : (i : Inline) → (i.toTree smart).links =
    i.links.map (toTree smart)
  | text _ | code _ | html _ | softBreak | lineBreak => by
    simp [toTree, Tree.leaf, Tree.links, Content.kind, links]
  | emph is | strong is | image _ _ is => by
    simp [toTree, Tree.links, Content.kind, links, linksList_toTrees smart is]
  | link _ _ is => by
    simp [toTree, Tree.links, Content.kind, links, linksList_toTrees smart is]

theorem linksList_toTrees (smart : Bool) : (is : List Inline) →
    Tree.linksList (toTrees smart is) = (linksList is).map (toTree smart)
  | [] => by simp [toTrees]
  | i :: is => by
    simp [toTrees, links_toTree smart i, linksList_toTrees smart is]
end

theorem children_toTree (smart : Bool) (i : Inline) :
    (i.toTree smart).children = toTrees smart i.children := by
  cases i <;> simp [toTree, Tree.leaf, Tree.children, children, toTrees]

end Inline

/-- A link inside a link of inline trees is an autolink that stands in the text. -/
theorem linksApart_inlineTrees (smart : Bool) (text : List Char) :
    Tree.LinksApart smart text (inlineTrees smart text) := by
  intro t ht u hu
  rw [inlineTrees, Inline.linksList_toTrees] at ht
  obtain ⟨k, hk, rfl⟩ := List.mem_map.mp ht
  rw [Inline.children_toTree, Inline.linksList_toTrees] at hu
  obtain ⟨j, hj, rfl⟩ := List.mem_map.mp hu
  obtain ⟨url, address, stands, rfl⟩ := linksApart_parseInlines text k hk j hj
  exact ⟨url, address, stands, rfl⟩

/-! ## Lines -/

section Infixes

variable {u s t : List Char}

theorem prefix_trimEnd (s : List Char) : Text.trimEnd s <+: s :=
  Text.prefix_dropEndWhile Text.isSpace s

/-- What is on one line stands in front of a line feed or behind it. -/
theorem infix_around (oneLine : '\n' ∉ u) (h : u <:+: s ++ '\n' :: t) :
    u <:+: s ∨ u <:+: t := by
  obtain ⟨p, q, e⟩ := h
  rw [List.append_assoc] at e
  rcases List.append_eq_append_iff.mp e with ⟨r, hs, hq⟩ | ⟨r, -, ht⟩
  · rcases List.append_eq_append_iff.mp hq with ⟨v, hr, -⟩ | ⟨v, hu, feed⟩
    · exact .inl ⟨p, v, by rw [hs, hr, List.append_assoc]⟩
    · cases v with
      | nil => exact .inl ⟨p, [], by rw [hs, hu, List.append_nil, List.append_nil]⟩
      | cons c v =>
        obtain rfl := (List.cons.inj feed).1
        exact absurd (hu ▸ List.mem_append_right r List.mem_cons_self) oneLine
  · cases r with
    | nil =>
      cases u with
      | nil => exact .inl List.nil_infix
      | cons c u =>
        obtain rfl := (List.cons.inj ht).1
        exact absurd List.mem_cons_self oneLine
    | cons c r => exact .inr ⟨r, q, by rw [List.append_assoc]; exact (List.cons.inj ht).2.symm⟩

/-- What is on one line stands in one of the lines that are put together. -/
theorem infix_intercalate {lines : List (List Char)} (filled : u ≠ []) (oneLine : '\n' ∉ u)
    (h : u <:+: List.intercalate ['\n'] lines) : ∃ s ∈ lines, u <:+: s := by
  induction lines with
  | nil => exact absurd (List.infix_nil.mp h) filled
  | cons s lines ih =>
    cases lines with
    | nil =>
      rw [List.intercalate_singleton] at h
      exact ⟨s, List.mem_cons_self, h⟩
    | cons t lines =>
      rw [List.intercalate_cons_cons] at h
      rcases infix_around oneLine (by simpa using h) with h | h
      · exact ⟨s, List.mem_cons_self, h⟩
      · obtain ⟨k, hk, h⟩ := ih h
        exact ⟨k, List.mem_cons_of_mem _ hk, h⟩

end Infixes

namespace Layout

/-- The text of a header or paragraph. -/
def inlineText : Layout → List Char
  | header _ text => text
  | paragraph text => text
  | _ => []

theorem infix_header? {s text : List Char} {level : Nat} (h : header? s = some (level, text)) :
    text <:+: s := by
  have closing : ∀ t : List Char, dropClosing t <+: t := by
    intro t
    unfold dropClosing
    dsimp only
    split
    · exact List.nil_prefix
    · split
      · exact (prefix_trimEnd _).trans (Text.prefix_dropEndWhile _ _)
      · exact List.prefix_refl t
  unfold header? at h
  dsimp only at h
  split at h
  · cases h
  · split at h
    · obtain rfl := (Prod.mk.inj (Option.some.inj h)).2
      exact (closing _).isInfix.trans
        ((prefix_trimEnd _).isInfix.trans
          ((List.dropWhile_suffix _).trans (List.drop_suffix _ _)).isInfix)
    · cases h

/-- Every further line of a paragraph is one of the lines that are left, trimmed. -/
theorem exists_of_takeParagraph {ls : List Line} {s : List Char} (h : s ∈ (takeParagraph ls).1) :
    ∃ k ∈ ls, s <:+ k.text := by
  induction ls with
  | nil => cases h
  | cons l ls ih =>
    simp only [takeParagraph] at h
    split at h
    · cases h
    · split at h
      · cases h
      · split at h
        · cases h
        · rcases List.mem_cons.mp h with rfl | h
          · exact ⟨l, List.mem_cons_self, List.dropWhile_suffix _⟩
          · obtain ⟨k, hk, suffix⟩ := ih h
            exact ⟨k, List.mem_cons_of_mem _ hk, suffix⟩

/-- What is on one line of the text of a block stands in one of the lines of the block. -/
theorem infix_inlineText {l : Line} {ls : List Line} {u : List Char} (filled : u ≠ [])
    (oneLine : '\n' ∉ u) (h : u <:+: (take l ls).layout.inlineText) :
    ∃ k ∈ l :: ls, u <:+: k.text := by
  have noText : ¬ u <:+: [] := fun h => filled (List.infix_nil.mp h)
  have rest : l.rest <:+: l.text := (List.dropWhile_suffix _).isInfix
  unfold take at h
  split at h
  · exact absurd h noText
  split at h
  · exact absurd h noText
  split at h
  · rename_i header
    exact ⟨l, List.mem_cons_self, h.trans ((infix_header? header).trans rest)⟩
  split at h
  · exact absurd h noText
  split at h
  · exact absurd h noText
  split at h
  · exact absurd h noText
  split at h
  · exact absurd h noText
  · have text : u <:+: List.intercalate ['\n'] (l.rest :: (takeParagraph ls).1) := by
      refine h.trans ?_
      unfold takeText
      dsimp only
      split <;> exact (prefix_trimEnd _).isInfix
    obtain ⟨s, hs, inside⟩ := infix_intercalate filled oneLine text
    rcases List.mem_cons.mp hs with rfl | hs
    · exact ⟨l, List.mem_cons_self, inside.trans rest⟩
    · obtain ⟨k, hk, suffix⟩ := exists_of_takeParagraph hs
      exact ⟨k, List.mem_cons_of_mem _ hk, inside.trans suffix.isInfix⟩

end Layout

namespace Line

/-- What is on one line and begins with an angle bracket stands in the source if it stands in the
line. -/
def From (source : List Char) (l : Line) : Prop :=
  ∀ u, '\n' ∉ u → u.head? = some '<' → u <:+: l.text → u <:+: source

theorem keeps_from (source : List Char) : Keeps (From source) where
  strip := by
    intro l n h u oneLine bracket inside
    exact h u oneLine bracket (inside.trans (List.drop_suffix _ _).isInfix)
  unquoted := by
    intro l _ h u oneLine bracket inside
    exact h u oneLine bracket (inside.trans (List.drop_suffix _ _).isInfix)
  item := by
    intro l m _ h u oneLine bracket inside
    exact h u oneLine bracket (inside.trans (List.drop_suffix _ _).isInfix)
  emptied := by
    intro l _ u _ bracket inside
    rw [List.infix_nil.mp inside] at bracket
    cases bracket

/-- Only leading tabs are expanded, and what begins with an angle bracket stands behind them. -/
theorem infix_expandTabs {u s : List Char} {column : Nat} (bracket : u.head? = some '<')
    (h : u <:+: expandTabs column s) : u <:+: s := by
  have behind : ∀ (n : Nat) {s : List Char}, u <:+: List.replicate n ' ' ++ s → u <:+: s := by
    intro n s inside
    induction n with
    | zero => exact inside
    | succ n ih =>
      rw [List.replicate_succ, List.cons_append] at inside
      rcases List.infix_cons_iff.mp inside with first | inside
      · cases u with
        | nil => cases bracket
        | cons c u =>
          obtain rfl := Option.some.inj bracket
          obtain ⟨q, e⟩ := first
          exact absurd (List.cons.inj e).1 (by decide)
      · exact ih inside
  fun_induction expandTabs column s with
  | case1 column s ih => exact (ih (behind _ h)).trans (List.suffix_cons _ _).isInfix
  | case2 column s ih => exact (ih (behind 1 h)).trans (List.suffix_cons _ _).isInfix
  | case3 => exact h

theorem from_ofSource {source : List Char} : ∀ l ∈ ofSource source, l.From source := by
  intro l hl u _ bracket inside
  obtain ⟨before, raw, after, standing, rfl⟩ := exists_isLineOf hl
  have bare : dropCarriageReturn raw <+: raw := by
    unfold dropCarriageReturn
    split
    · exact List.dropLast_prefix raw
    · exact List.prefix_refl raw
  refine ((infix_expandTabs bracket inside).trans bare.isInfix).trans ⟨before, after, ?_⟩
  rw [standing.split, List.append_assoc]

end Line

/-! ## Documents -/

theorem IsAddress.of_lines {source text url address : List Char} {lines : List Line}
    (h : IsAddress text url address) (from_ : ∀ l ∈ lines, l.From source)
    (inside : ∀ u : List Char, u ≠ [] → '\n' ∉ u → u <:+: text → ∃ l ∈ lines, u <:+: l.text) :
    IsAddress source url address := by
  have oneLine : '\n' ∉ '<' :: (address ++ ['>']) := by
    simp [h.oneLine]
  obtain ⟨l, hl, stands⟩ := inside _ (List.cons_ne_nil _ _) oneLine h.stands
  exact { h with stands := from_ l hl _ oneLine rfl stands }

/-- The links of a block without blocks inside. -/
theorem linksApart_leafTree (smart : Bool) {source : List Char} {l : Line} {ls : List Line}
    (lines : ∀ k ∈ l :: ls, k.From source) :
    Tree.LinksApart smart source [(Layout.take l ls).layout.leafTree smart] := by
  have inside : ∀ u : List Char, u ≠ [] → '\n' ∉ u →
      u <:+: (Layout.take l ls).layout.inlineText → ∃ k ∈ l :: ls, u <:+: k.text :=
    fun u filled oneLine => Layout.infix_inlineText filled oneLine
  have text : ∀ c : Content, c.kind ≠ .link →
      Tree.LinksApart smart source
        [.node c (inlineTrees smart (Layout.take l ls).layout.inlineText)] := by
    intro c other
    refine Tree.LinksApart.node other fun t ht u hu => ?_
    obtain ⟨url, address, stands, rfl⟩ := linksApart_inlineTrees smart _ t ht u hu
    exact ⟨url, address, stands.of_lines lines inside, rfl⟩
  generalize (Layout.take l ls).layout = x at text
  cases x with
  | header level s => exact text (.header level) nofun
  | paragraph s => exact text .paragraph nofun
  | code info literal => exact Tree.LinksApart.node nofun .nil
  | html literal => exact Tree.LinksApart.node nofun .nil
  | rule | quote _ _ | list _ _ _ _ => exact Tree.LinksApart.node nofun .nil

/-- A container has the links that are inside. -/
theorem linksApart_within {smart : Bool} {source : List Char} {c : Content} {separated : Bool}
    {inside more : Parsed} (other : c.kind ≠ .link)
    (h : Tree.LinksApart smart source inside.trees) (h' : Tree.LinksApart smart source more.trees) :
    Tree.LinksApart smart source (Parsed.within c separated inside more).trees := by
  obtain ⟨after, made, e⟩ := Parsed.trees_within c separated inside more
  rw [e]
  rcases made with rfl | rfl
  · exact (h.node other).cons .nil
  · exact (h.node other).cons h'

/-- Reading makes no links inside links but autolinks of the source. -/
theorem lineInduction_linksApart (o : ParseOptions) (source : List Char) :
    LineInduction o
      (fun _ lines p => (∀ l ∈ lines, l.From source) → Tree.LinksApart o.smart source p.trees)
      fun _ items p =>
        (∀ item ∈ items, ∀ l ∈ item, l.From source) → Tree.LinksApart o.smart source p.trees where
  noBlocks := by
    intro _ _
    exact .nil
  noItems := by
    intro _ _
    exact .nil
  blank := by
    intro _ l ls p _ more lines
    exact more (List.forall_mem_cons.mp lines).2
  tooDeep := by
    intro _ l ls _ _ _ _
    exact .nil
  leaf := by
    intro _ l ls separated more _ after lines
    exact (linksApart_leafTree o.smart lines).cons (after (Layout.forall_rest_take lines))
  quote := by
    intro _ l ls offset inner separated inside more _ opens _ within after lines
    obtain ⟨hl, hls⟩ := List.forall_mem_cons.mp lines
    have inside := within ((Line.keeps_from source).quote hl hls opens)
    exact linksApart_within nofun inside (after (Layout.forall_rest_take lines))
  list := by
    intro _ l ls offset m items spaced tight separated inside more _ opens _ _ within after lines
    obtain ⟨hl, hls⟩ := List.forall_mem_cons.mp lines
    have inside := within ((Line.keeps_from source).list hl hls opens)
    exact linksApart_within nofun inside (after (Layout.forall_rest_take lines))
  item := by
    intro _ item items inside more within after lines
    obtain ⟨hitem, hitems⟩ := List.forall_mem_cons.mp lines
    exact linksApart_within nofun (within hitem) (after hitems)

/-- In a document that was read, a link below a link is an autolink that stands in the source,
whether images, emphasis or nothing is between them.  A source without autolinks has no link below a
link. -/
theorem parse_nestedLinks {o : ParseOptions} {source : String} {document : Tree}
    (h : parse o source = .ok document) :
    ∀ t ∈ document.links, ∀ u ∈ Tree.linksList t.children, u.IsAutolink o.smart source.toList := by
  obtain ⟨-, rfl⟩ := parse_eq_ok.mp h
  have blocks := (lineInduction_linksApart o source.toList).blocks 0 false false
    (Line.ofSource source.toList) Line.from_ofSource
  intro t ht
  rw [Tree.links, if_neg nofun] at ht
  exact blocks t ht

/-- An autolink in an emphasis in an image in a link; a link in brackets is none. -/
theorem parse_nestedLinks_image :
    ∃ document, parse { smart := true } "[![*<http://a>*](b) c](d)\n\n> [[e](f)](g)" = .ok document ∧
      document.links.length = 3 ∧
      ∀ t ∈ document.links, ∀ u ∈ Tree.linksList t.children,
        u.IsAutolink true "[![*<http://a>*](b) c](d)\n\n> [[e](f)](g)".toList := by
  have read : parse { smart := true } "[![*<http://a>*](b) c](d)\n\n> [[e](f)](g)" = .ok
      (.node .document
        [.node .paragraph [.node (.link "d" "") [.node (.image "b" "") [.node .emph
            [.node (.link "http://a" "") [.leaf (.text "http://a")]]], .leaf (.text " c")]],
          .node .blockQuote [.node .paragraph
            [.leaf (.text "["), .node (.link "f" "") [.leaf (.text "e")],
              .leaf (.text "](g)")]]]) := by
    decide +kernel
  exact ⟨_, read, by decide +kernel, parse_nestedLinks read⟩

/-- The brackets around an autolink become a link around a link. -/
theorem parse_autolink_in_link :
    parse {} "[<http://a>](b)" =
        .ok (.node .document [.node .paragraph [.node (.link "b" "")
          [.node (.link "http://a" "") [.leaf (.text "http://a")]]]]) ∧
      ¬ ∀ (o : ParseOptions) (source : String) (document : Tree), parse o source = .ok document →
        ∀ t ∈ document.links, Tree.linksList t.children = [] := by
  have read : parse {} "[<http://a>](b)" =
      .ok (.node .document [.node .paragraph [.node (.link "b" "")
        [.node (.link "http://a" "") [.leaf (.text "http://a")]]]]) := by
    decide +kernel
  refine ⟨read, fun apart => ?_⟩
  have outer := apart _ _ _ read
    (.node (.link "b" "") [.node (.link "http://a" "") [.leaf (.text "http://a")]])
    (by simp [Tree.links, Content.kind])
  simp [Tree.links, Tree.children, Content.kind] at outer

end MarkdownForest
