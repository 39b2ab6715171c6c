/-
# MarkdownForest.Proofs.ScannedLinks -- links in links of a text

The links of inlines are listed in the order in which they stand.  Resolving
emphasis does not change the list (`Emphasis.links_resolve`), so what stands behind
a bracket has the links that the link made of it has inside.

Behind an active bracket of a link only autolinks stand, and this is what every
step of the scan keeps (`Scan.KeepsApart.feed`).  A link that is closed leaves no
such bracket active; an autolink does.  So a link inside a link is an autolink that
stands in the text (`linksApart_parseInlines`).
-/
import MarkdownForest.Proofs.Autolinks
import MarkdownForest.Proofs.ScanSlices

namespace MarkdownForest

set_option autoImplicit false

/-! ## The links of inlines -/

namespace Inline

mutual
/-- The links of an inline, the outer before the inner. -/
def links : Inline → List Inline
  | emph is | strong is | image _ _ is => linksList is
  | link url title is => link url title is :: linksList is
  | _ => []

def linksList : List Inline → List Inline
  | [] => []
  | i :: is => i.links ++ linksList is
end

/-- The inlines that stand in another. -/
def children : Inline → List Inline
  | emph is | strong is | link _ _ is | image _ _ is => is
  | _ => []

@[simp] theorem linksList_nil : linksList [] = [] := by
  rw [linksList]

@[simp] theorem linksList_cons (i : Inline) (is : List Inline) :
    linksList (i :: is) = i.links ++ linksList is := by
  rw [linksList]

/-- Joining texts takes away no link. -/
theorem linksList_joinTexts (is : List Inline) : linksList (joinTexts is) = linksList is := by
  induction is with
  | nil => rfl
  | cons i is ih =>
    rw [joinTexts, linksList_cons, ← ih]
    unfold joinInline
    split
    · rename_i joined
      rw [joined]
      simp [links]
    · rw [linksList_cons]

end Inline

open Inline (linksList)

/-- The links of a piece. -/
def Piece.links (p : Piece) : List Inline :=
  p.toInline.links

/-- The links of pieces. -/
def pieceLinks (ps : List Piece) : List Inline :=
  ps.flatMap Piece.links

theorem linksList_finish (ps : List Piece) : linksList (finish ps) = pieceLinks ps := by
  rw [finish, Inline.linksList_joinTexts]
  induction ps with
  | nil => rfl
  | cons p ps ih =>
    rw [List.map_cons, Inline.linksList_cons, ih]
    rfl

namespace Emphasis

theorem links_remaining (d : Delim) (used : Nat) : pieceLinks (remaining d used) = [] := by
  unfold remaining
  split
  · rfl
  · simp [pieceLinks, Piece.links, Piece.toInline, Inline.links]

theorem links_wrap (used : Nat) (is : List Inline) : (wrap used is).links = linksList is := by
  unfold wrap
  split <;> rw [Inline.links]

/-- Emphasis is put around pieces where they stand, and around all their links. -/
theorem links_resolve (left right : List Piece) :
    pieceLinks (resolve left right) = pieceLinks (left.reverse ++ right) := by
  fun_induction resolve left right with
  | case1 left => simp
  | case2 left p more hc ih => simpa using ih
  | case3 left p more closer hc ho ih => simpa using ih
  | case4 left p more closer hc above opener below ho _ used between ih =>
    obtain ⟨rfl, -⟩ := findOpener_eq_some ho
    obtain ⟨rfl, -⟩ := closer?_eq_some hc
    have run (d : Delim) : (Piece.delim d).links = [] := by
      simp [Piece.links, Piece.toInline, Inline.links]
    have inside : (Piece.inline between).links = pieceLinks above.reverse := by
      rw [Piece.links, Piece.toInline, links_wrap, linksList_finish]
    have opening := links_remaining opener used
    have closing := links_remaining closer used
    have reversed : pieceLinks (remaining opener used).reverse = [] := by
      unfold remaining at opening ⊢
      split <;> simp_all
    rw [ih]
    simp only [pieceLinks, List.reverse_cons, List.reverse_append, List.flatMap_append,
      List.flatMap_cons, List.flatMap_nil, List.append_nil, List.append_assoc, run,
      List.nil_append] at inside closing reversed ⊢
    rw [inside, closing, reversed]
    simp

end Emphasis

/-! ## Autolinks -/

/-- The token of an autolink, and the url that the link has. -/
def Token.autolink? : Token → Option (List Char × List Char)
  | .uriAutolink url => some (url, url)
  | .emailAutolink address => some ("mailto:".toList ++ address, address)
  | _ => none

/-- What stands between the brackets of an autolink that stands in the text `source`, and the url of
the link. -/
structure IsAddress (source url address : List Char) : Prop where
  stands : '<' :: (address ++ ['>']) <:+: source
  oneLine : '\n' ∉ address
  read : ∃ s, (lex '<' s).token.autolink? = some (url, address)

/-- The inline of an autolink that stands in the text `source`. -/
def Inline.IsAutolink (source : List Char) (i : Inline) : Prop :=
  ∃ url address, IsAddress source url address ∧ i = .link url [] [.text address]

theorem Inline.IsAutolink.links {source : List Char} {i : Inline} (h : i.IsAutolink source) :
    i.links = [i] ∧ linksList i.children = [] := by
  obtain ⟨url, address, -, rfl⟩ := h
  simp [Inline.links, Inline.children]

/-- Only an angle bracket begins an autolink. -/
theorem lex_autolink {c : Char} {s : List Char} (h : (lex c s).token.autolink?.isSome) :
    c = '<' := by
  unfold lex at h
  split at h
  · unfold Lexeme.ofSpace at h
    dsimp only at h
    split at h
    · split at h <;> simp [Token.autolink?] at h
    · simp [Token.autolink?] at h
  · simp [Token.autolink?] at h
  · unfold Lexeme.ofBackslash at h
    split at h
    · simp [Token.autolink?] at h
    · split at h
      · simp [Token.autolink?] at h
      · split at h <;> simp [Token.autolink?] at h
  · simp [Lexeme.run, Token.autolink?] at h
  · simp [Lexeme.run, Token.autolink?] at h
  · simp [Lexeme.run, Token.autolink?] at h
  · simp [Token.autolink?] at h
  · simp [Token.autolink?] at h
  · split at h <;> simp [Token.autolink?] at h
  · rfl
  · simp [Lexeme.run, Token.autolink?] at h

/-- An autolink that is read from a text stands in it. -/
theorem isAddress_of_lex {c : Char} {s source url address : List Char} (stands : c :: s <:+: source)
    (read : (lex c s).token.autolink? = some (url, address)) : IsAddress source url address := by
  obtain rfl := lex_autolink (by rw [read]; rfl)
  have found : (angleRun 0 ['<'] s).1.isAutolink ∧
      address = ((angleRun 0 ['<'] s).2.1.reverse.drop 1).dropLast := by
    simp only [lex, Lexeme.ofAngle, Lexeme.angleToken] at read
    cases end' : (angleRun 0 ['<'] s).1 with
    | uri | email =>
      rw [end'] at read
      exact ⟨rfl, (Prod.mk.inj (Option.some.inj read)).2.symm⟩
    | _ =>
      rw [end'] at read
      cases read
  obtain ⟨inside, text, -, oneLine⟩ := Lexeme.autolink_eq found.1
  obtain rfl : address = inside := by
    rw [found.2, text]
    simp
  refine ⟨?_, oneLine, s, read⟩
  have whole := angleRun_append 0 ['<'] s
  rw [text] at whole
  exact (List.IsPrefix.isInfix ⟨_, whole⟩).trans stands

/-! ## Pieces -/

/-- No link of the pieces has another inside but autolinks of `source`, and behind a bracket at one
of the places, if a link may come of it, no other links stand. -/
structure LinksApart (source : List Char) (ps : List Piece) (places : List Nat) : Prop where
  inside : ∀ k ∈ pieceLinks ps, ∀ j ∈ linksList k.children, j.IsAutolink source
  behind : ∀ place ∈ places, ps[place]? = some (.bracket false true) →
    ∀ j ∈ pieceLinks (ps.drop (place + 1)), j.IsAutolink source

theorem mem_pieceLinks {ps : List Piece} {k : Inline} :
    k ∈ pieceLinks ps ↔ ∃ p ∈ ps, k ∈ p.links :=
  List.mem_flatMap

theorem pieceLinks_subset {ps qs : List Piece} (h : ps ⊆ qs) : pieceLinks ps ⊆ pieceLinks qs := by
  intro k hk
  obtain ⟨p, hp, mem⟩ := mem_pieceLinks.mp hk
  exact mem_pieceLinks.mpr ⟨p, h hp, mem⟩

namespace LinksApart

variable {source : List Char} {ps : List Piece} {places : List Nat}

/-- A piece whose links are autolinks may come after any pieces. -/
theorem push {p : Piece} (h : LinksApart source ps places)
    (auto : ∀ j ∈ p.links, j.IsAutolink source) : LinksApart source (ps ++ [p]) places where
  inside := by
    intro k hk
    rw [pieceLinks, List.flatMap_append, List.mem_append, List.flatMap_singleton] at hk
    rcases hk with hk | hk
    · exact h.inside k hk
    · simp [(auto k hk).links.2]
  behind := by
    intro place hp opens j hj
    rcases Nat.lt_or_ge place ps.length with lt | ge
    · rw [List.getElem?_append_left lt] at opens
      rw [List.drop_append_of_le_length lt, pieceLinks, List.flatMap_append, List.mem_append,
        List.flatMap_singleton] at hj
      rcases hj with hj | hj
      · exact h.behind place hp opens j hj
      · exact auto j hj
    · have past : (ps ++ [p]).length ≤ place + 1 := by
        rw [List.length_append, List.length_singleton]
        omega
      rw [List.drop_of_length_le past] at hj
      cases hj

/-- Nothing stands behind a bracket that was just opened. -/
theorem openBracket (h : LinksApart source ps places) (image : Bool) :
    LinksApart source (ps ++ [.bracket image true]) (ps.length :: places) where
  inside := (h.push (p := .bracket image true) nofun).inside
  behind := by
    intro place hp opens j hj
    rcases List.mem_cons.mp hp with rfl | hp
    · rw [List.drop_of_length_le (by simp)] at hj
      cases hj
    · exact (h.push (p := .bracket image true) nofun).behind place hp opens j hj

/-- A piece may become one without links. -/
theorem set {p : Piece} (h : LinksApart source ps places) (bare : p.links = [])
    (closed : p ≠ .bracket false true) (i : Nat) : LinksApart source (ps.set i p) places := by
  have kept : ∀ {qs : List Piece} {n : Nat} {k : Inline}, k ∈ pieceLinks (qs.set n p) →
      k ∈ pieceLinks qs := by
    intro qs n k hk
    obtain ⟨q, hq, mem⟩ := mem_pieceLinks.mp hk
    rcases List.mem_or_eq_of_mem_set hq with hq | rfl
    · exact mem_pieceLinks.mpr ⟨q, hq, mem⟩
    · rw [bare] at mem
      cases mem
  constructor
  · intro k hk
    exact h.inside k (kept hk)
  · intro place hp opens j hj
    have before : ps[place]? = some (.bracket false true) := by
      rw [List.getElem?_set] at opens
      split at opens
      · split at opens
        · exact absurd (Option.some.inj opens) closed
        · cases opens
      · exact opens
    refine h.behind place hp before j ?_
    rw [List.drop_set] at hj
    split at hj
    · exact hj
    · exact kept hj

/-- Brackets that are not looked at any more may be forgotten. -/
theorem forget {fewer : List Nat} (h : LinksApart source ps places) (kept : fewer ⊆ places) :
    LinksApart source ps fewer :=
  ⟨h.inside, fun place hp => h.behind place (kept hp)⟩

/-- An image in place of all pieces from its bracket on has their links. -/
theorem closeImage {i : Inline} {opener : Nat} (h : LinksApart source ps places)
    (same : i.links = pieceLinks (ps.drop (opener + 1))) :
    LinksApart source (ps.take opener ++ [.inline i]) places where
  inside := by
    intro k hk
    rw [pieceLinks, List.flatMap_append, List.mem_append, List.flatMap_singleton] at hk
    rcases hk with hk | hk
    · exact h.inside k (pieceLinks_subset (List.take_subset opener ps) hk)
    · exact h.inside k (pieceLinks_subset (List.drop_subset (opener + 1) ps) (same ▸ hk))
  behind := by
    intro place hp opens j hj
    rcases Nat.lt_or_ge place (ps.take opener).length with lt | ge
    · -- the bracket stands in front of the image, which has only links from behind it
      have front : place < opener := Nat.lt_of_lt_of_le lt (List.length_take_le opener ps)
      rw [List.getElem?_append_left lt, List.getElem?_take_of_lt front] at opens
      rw [List.drop_append_of_le_length lt, pieceLinks, List.flatMap_append, List.mem_append,
        List.flatMap_singleton] at hj
      refine h.behind place hp opens j ?_
      rcases hj with hj | hj
      · rw [List.drop_take] at hj
        exact pieceLinks_subset (List.take_subset _ _) hj
      · have further : place + 1 ≤ opener + 1 := by omega
        have image : (Piece.inline i).links = pieceLinks (ps.drop (opener + 1)) := same
        exact pieceLinks_subset (List.drop_subset_drop_left ps further) (image ▸ hj)
    · rw [List.getElem?_append_right ge, List.getElem?_singleton] at opens
      split at opens <;> cases opens

/-- A link in place of all pieces from its bracket on has only autolinks inside.  No bracket of a
link is active any more. -/
theorem closeLink {url title : List Char} {is : List Inline} {opener : Nat}
    {qs : List Piece} (h : LinksApart source ps (opener :: places))
    (active : ps[opener]? = some (.bracket false true))
    (same : linksList is = pieceLinks (ps.drop (opener + 1)))
    (links : pieceLinks qs = pieceLinks (ps.take opener ++ [.inline (.link url title is)]))
    (inactive : ∀ place ∈ places, qs[place]? ≠ some (.bracket false true)) :
    LinksApart source qs places where
  inside := by
    intro k hk
    rw [links, pieceLinks, List.flatMap_append, List.mem_append, List.flatMap_singleton] at hk
    rcases hk with hk | hk
    · exact h.inside k (pieceLinks_subset (List.take_subset opener ps) hk)
    · rcases List.mem_cons.mp (show k ∈ Inline.link url title is :: linksList is from hk) with
        rfl | hk
      · intro j hj
        exact h.behind opener List.mem_cons_self active j (same ▸ hj)
      · exact h.inside k (pieceLinks_subset (List.drop_subset (opener + 1) ps) (same ▸ hk))
  behind := by
    intro place hp opens
    exact absurd opens (inactive place hp)

end LinksApart

/-! ## Scans -/

theorem Piece.links_deactivate (p : Piece) : p.deactivate.links = p.links := by
  cases p with
  | inline i => rfl
  | delim d => rfl
  | bracket image active => cases image <;> rfl

theorem links_modify (ps : Array Piece) (place : Nat) :
    pieceLinks (ps.modify place Piece.deactivate).toList = pieceLinks ps.toList := by
  have each : (ps.modify place Piece.deactivate).toList.map Piece.links =
      ps.toList.map Piece.links := by
    refine List.ext_getElem? fun i => ?_
    simp only [Array.toList_modify, List.getElem?_map, List.getElem?_modify]
    split
    · cases ps.toList[i]? <;> simp [Piece.links_deactivate]
    · simp
  rw [pieceLinks, pieceLinks, List.flatMap_def, List.flatMap_def, each]

/-- Deactivating brackets takes away no link, and leaves none of them active. -/
theorem deactivated_links (places : List Nat) (ps : Array Piece) :
    let qs := places.foldl (fun ps place => ps.modify place Piece.deactivate) ps
    pieceLinks qs.toList = pieceLinks ps.toList ∧
      ∀ i, qs[i]? = some (Piece.bracket false true) →
        ps[i]? = some (Piece.bracket false true) ∧ i ∉ places := by
  induction places generalizing ps with
  | nil => exact ⟨rfl, fun i active => ⟨active, List.not_mem_nil⟩⟩
  | cons place places ih =>
    obtain ⟨links, inactive⟩ := ih (ps.modify place Piece.deactivate)
    refine ⟨links.trans (links_modify ps place), fun i active => ?_⟩
    obtain ⟨before, other⟩ := inactive i active
    rw [Array.getElem?_modify] at before
    split at before
    · -- what was deactivated is no active bracket
      obtain ⟨p, -, bracket⟩ := Option.map_eq_some_iff.mp before
      cases p with
      | inline i => cases bracket
      | delim d => cases bracket
      | bracket image active => cases image <;> cases bracket
    · rename_i apart
      exact ⟨before, List.not_mem_cons_of_ne_of_not_mem (Ne.symm apart) other⟩

namespace Scan

/-- The pieces of a scan keep links apart. -/
def KeepsApart (source : List Char) (s : Scan) : Prop :=
  LinksApart source s.pieces.toList s.brackets

variable {source : List Char} {s : Scan}

theorem KeepsApart.push {p : Piece} (h : s.KeepsApart source)
    (auto : ∀ j ∈ p.links, j.IsAutolink source) : (s.push p).KeepsApart source := by
  rw [KeepsApart, Scan.push, Array.toList_push]
  exact LinksApart.push h auto

/-- Text may come after any pieces. -/
theorem KeepsApart.pushText (t : List Char) (h : s.KeepsApart source) :
    (s.pushText t).KeepsApart source :=
  KeepsApart.push h nofun

theorem KeepsApart.openCode (count : Nat) (h : s.KeepsApart source) :
    (s.openCode count).KeepsApart source := by
  unfold Scan.openCode
  split
  · rename_i inside rest _
    exact KeepsApart.push (s := { s with before := some '\x60', rest }) h nofun
  · exact h.pushText _

theorem KeepsApart.openBracket (image : Bool) (h : s.KeepsApart source) :
    (s.openBracket image).KeepsApart source := by
  show LinksApart source (s.pieces.push (.bracket image true)).toList (s.pieces.size :: s.brackets)
  rw [Array.toList_push, ← Array.length_toList]
  exact LinksApart.openBracket h image

theorem KeepsApart.closeLink {opener : Nat} {image : Bool} {target : Target} {rest : List Char}
    (h : LinksApart source s.pieces.toList (opener :: s.brackets))
    (active : s.pieces[opener]? = some (.bracket image true)) :
    (s.closeLink opener image target rest).KeepsApart source := by
  have same : linksList (finish (Emphasis.resolve [] (s.pieces.toList.drop (opener + 1)))) =
      pieceLinks (s.pieces.toList.drop (opener + 1)) := by
    rw [linksList_finish, Emphasis.links_resolve]
    rfl
  rw [← Array.getElem?_toList] at active
  unfold Scan.closeLink KeepsApart
  cases image with
  | true =>
    have image := (h.forget (List.subset_cons_self _ _)).closeImage
      (i := .image target.url target.title _) same
    simpa using image
  | false =>
    obtain ⟨links, inactive⟩ := deactivated_links s.brackets
      ((s.pieces.take opener).push (.inline (.link target.url target.title _)))
    have before : (s.pieces.take opener).toList = s.pieces.toList.take opener := by simp
    rw [Array.toList_push, before] at links
    refine LinksApart.closeLink h active same links fun place hp active' => ?_
    rw [Array.getElem?_toList] at active'
    exact (inactive place active').2 hp

/-- A closing bracket makes a link only where autolinks alone are inside. -/
theorem KeepsApart.closeBracket (h : s.KeepsApart source) :
    s.closeBracket.KeepsApart source := by
  unfold Scan.closeBracket
  split
  · exact h.pushText _
  · rename_i opener brackets stack
    have opened : LinksApart source s.pieces.toList (opener :: brackets) := stack ▸ h
    have fewer : ({ s with brackets } : Scan).KeepsApart source :=
      opened.forget (List.subset_cons_self _ _)
    dsimp only
    split
    · rename_i image active found
      split
      · rename_i target rest read
        cases active with
        | true => exact KeepsApart.closeLink (s := { s with brackets }) opened found
        | false => cases read
      · refine KeepsApart.pushText _ ?_
        show LinksApart source (s.pieces.setIfInBounds opener _).toList brackets
        rw [Array.toList_setIfInBounds]
        exact LinksApart.set (p := .inline (.text (Piece.bracketText image))) fewer rfl
          Piece.noConfusion opener
    · exact fewer.pushText _

theorem KeepsApart.feed {c : Char} {rest : List Char} (h : s.KeepsApart source)
    (stands : c :: rest <:+: source) : (s.feed (lex c rest)).KeepsApart source := by
  have address : ∀ {url address}, (lex c rest).token.autolink? = some (url, address) →
      IsAddress source url address := isAddress_of_lex stands
  unfold Scan.feed
  dsimp only
  generalize lex c rest = x at address ⊢
  obtain ⟨token, text, after⟩ := x
  have next : ({ s with before := text.getLast?, rest := after } : Scan).KeepsApart source := h
  cases token with
  | text u | spaces u => exact next.pushText _
  | escaped d => exact next.pushText _
  | backslash | bang | bracket => exact next.pushText _
  | hardBreak | softBreak | htmlTag raw => exact next.push nofun
  | stars count | underscores count => exact next.push nofun
  | backticks count => exact next.openCode count
  | imageOpen | linkOpen => exact next.openBracket _
  | closeBracket => exact next.closeBracket
  | uriAutolink url =>
    refine next.push fun j hj => ?_
    obtain rfl : j = .link url [] [.text url] := List.mem_singleton.mp hj
    exact ⟨url, url, address rfl, rfl⟩
  | emailAutolink mail =>
    refine next.push fun j hj => ?_
    obtain rfl : j = .link ("mailto:".toList ++ mail) [] [.text mail] := List.mem_singleton.mp hj
    exact ⟨_, mail, address rfl, rfl⟩

/-- A scan that keeps links apart does so to its end. -/
theorem KeepsApart.run {b : ByteScan} (h : s.KeepsApart source) (read : ByteScan.At source b s) :
    ∀ k ∈ pieceLinks s.run.toList, ∀ j ∈ linksList k.children, j.IsAutolink source := by
  induction hn : s.rest.length using Nat.strong_induction_on generalizing s b with
  | _ n ih =>
    subst hn
    rcases ByteScan.step?_eq read with ⟨ended, -⟩ | ⟨c, rest, next, more, -, read'⟩
    · rw [run_nil ended]
      exact h.inside
    · obtain ⟨before, split, -, -⟩ := read.read
      have stands : c :: rest <:+: source := ⟨before, [], by rw [split, more, List.append_nil]⟩
      rw [run_cons c rest more]
      exact ih _ (length_rest_feed_lt more) (h.feed stands) read' rfl

end Scan

/-- A link inside a link of a text is an autolink that stands in the text. -/
theorem linksApart_parseInlines (source : List Char) :
    ∀ k ∈ linksList (parseInlines source), ∀ j ∈ linksList k.children, j.IsAutolink source := by
  have start : ByteScan.At source {} { rest := source } := ⟨⟨[], rfl, rfl, rfl⟩, rfl, rfl⟩
  have empty : ({ rest := source } : Scan).KeepsApart source := ⟨nofun, nofun⟩
  rw [parseInlines, linksList_finish, Emphasis.links_resolve]
  exact empty.run start

end MarkdownForest
