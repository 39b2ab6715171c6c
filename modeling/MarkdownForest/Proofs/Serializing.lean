/-
# MarkdownForest.Proofs.Serializing -- CommonMark along links and CommonMark of trees

`LinkWriter` writes a node as CommonMark without making a tree of it.  It goes
down what is below the node, reads every node off the forest when it comes to it,
follows a link to the next sibling to choose the mark of an emphasis, and looks
back at what it has written itself.  It fails at a node that is not live.

* `Sound.linkCommonMark_eq`: in a sound forest every live node is written, and as
  the tree that it shows is before the one that its next sibling shows
  (`Forest.commonMark`);
* `Sound.commonMark_eq`: for a node that has no parent this is the tree alone
  (`CommonMark.write`).

So all that is written of a node without a parent is a function of the tree that it
shows (`WrittenAs`), and nodes that show one tree are written alike, whatever has
been done to their forests (`run_written`).
-/
import MarkdownForest.Proofs.Rendering
import MarkdownForest.Proofs.Requests

namespace MarkdownForest

set_option autoImplicit false

open Text CommonMark

/-! ## Along links -/

namespace LinkWriter

/-- The first character after an emphasis, as far as it matters. -/
def firstOf (f : Forest) : Option NodeId → Except ForestError (Option Char)
  | none => return none
  | some y => do
    match ← f.content y with
    | .text literal => return literal.toList.head?
    | .softbreak | .linebreak => return none
    | _ => return some '*'

/-- Whether a link leads to an emphasis. -/
def isEmphasis (f : Forest) : Option NodeId → Except ForestError Bool
  | none => return false
  | some y => do
    let kind ← f.kind y
    return kind == .emph || kind == .strong

/-- The delimiter of an emphasis after the text `out`. -/
def delimiter (f : Forest) (out : List Char) (x : NodeId) : Except ForestError Char := do
  let before := out.getLast?
  let next ← f.next x
  let after ← firstOf f next
  let emphasisNext ← isEmphasis f next
  let underscoreFits := before != some '_' && !before.any isWord && !after.any isWord
  return if underscoreFits && (before == some '*' || emphasisNext) then '_' else '*'

/-- A link in angle brackets, if it can be written so. -/
def autolinkOf? (f : Forest) (url title : String) :
    List Branch → Except ForestError (Option (List Char))
  | [b] => do
    match ← f.content b.id with
    | .text literal =>
      return if title.isEmpty then autolink? url.toList literal.toList else none
    | _ => return none
  | _ => return none

mutual
/-- Writes an inline after what is written. -/
def inline (f : Forest) (inEmph : Bool) (out : Written) : Branch → Except ForestError Written
  | .node x bs => do
    match ← f.content x with
    | .text literal =>
      if literal.isEmpty then return out
      else return ⟨out.text ++ escapeText out.lineStart literal.toList, false⟩
    | .softbreak => return ⟨out.text ++ ['\n'], true⟩
    | .linebreak => return ⟨out.text ++ ['\\', '\n'], true⟩
    | .code literal => return ⟨out.text ++ codeSpan literal.toList, false⟩
    | .inlineHtml literal => return ⟨out.text ++ literal.toList, false⟩
    | .emph => do
      let mark ← if inEmph then pure '_' else delimiter f out.text x
      let inside ← inlines f true ⟨out.text ++ [mark], false⟩ bs
      return ⟨inside.text ++ [mark], inside.lineStart⟩
    | .strong => do
      let mark ← delimiter f out.text x
      let inside ← inlines f false ⟨out.text ++ [mark, mark], false⟩ bs
      return ⟨inside.text ++ [mark, mark], inside.lineStart⟩
    | .link url title => do
      match ← autolinkOf? f url title bs with
      | some text => return ⟨out.text ++ text, false⟩
      | none => do
        let inside ← inlines f inEmph ⟨out.text ++ ['['], false⟩ bs
        return ⟨inside.text ++ ']' :: destination url.toList title.toList, inside.lineStart⟩
    | .image url title => do
      let inside ← inlines f inEmph ⟨out.text ++ ['!', '['], false⟩ bs
      return ⟨inside.text ++ ']' :: destination url.toList title.toList, inside.lineStart⟩
    | _ => return out

def inlines (f : Forest) (inEmph : Bool) (out : Written) :
    List Branch → Except ForestError Written
  | [] => return out
  | b :: bs => do inlines f inEmph (← inline f inEmph out b) bs
end

/-- The inlines of a paragraph or header. -/
def inlineText (f : Forest) (bs : List Branch) : Except ForestError (List Char) :=
  return (← inlines f false ⟨[], true⟩ bs).text

/-- The blocks of a container written so far: the kind of the last, the type of list it was, and how
many lists of this type came right before it. -/
structure BlockRun where
  text : List Char := []
  previous : Option Kind := none
  listType : Option ListType := none
  listRun : Nat := 0

def listTypeOf? : Content → Option ListType
  | .list type _ _ => some type
  | _ => none

/-- The length of the run of lists before a block. -/
def BlockRun.runBefore (b : BlockRun) (c : Content) : Nat :=
  if (listTypeOf? c).isSome && listTypeOf? c == b.listType then b.listRun + 1 else 0

/-- The blocks with one more. -/
def BlockRun.add (b : BlockRun) (tight : Bool) (c : Content) (text : List Char) : BlockRun where
  text :=
    b.text ++ (match b.previous with
      | some previous => separator tight previous c.kind
      | none => []) ++ text
  previous := some c.kind
  listType := listTypeOf? c
  listRun := b.runBefore c

/-- The items of a list written so far, and their number. -/
structure ItemRun where
  text : List Char := []
  count : Nat := 0

/-- The items with one more. -/
def ItemRun.add (i : ItemRun) (tight : Bool) (marker : Nat → List Char) (body : List Char) :
    ItemRun where
  text :=
    i.text ++ (if i.count = 0 then [] else if tight then ['\n'] else ['\n', '\n']) ++
      hang (marker i.count) body
  count := i.count + 1

mutual
/-- Writes a block, with the alternate marker or not. -/
def block (f : Forest) (alternate : Bool) : Branch → Except ForestError (List Char)
  | .node x bs => do
    match ← f.content x with
    | .document | .item => return (← blocks f false {} bs).text
    | .blockQuote => return quoteLines (← blocks f false {} bs).text
    | .list type start tight => do
      let first := match type with
        | .bullet => 1
        | .ordered => start
      return (← items f (itemMarker type first alternate) tight {} bs).text
    | .codeBlock info literal => return codeBlock info.toList literal.toList
    | .html literal => return dropEndWhile (· == '\n') literal.toList
    | .paragraph => inlineText f bs
    | .header level => return headerText level (← inlineText f bs)
    | .hrule => return ['*', '*', '*']
    | _ => return (← inline f false ⟨[], true⟩ (.node x bs)).text

/-- Writes blocks after those of a container that are written. -/
def blocks (f : Forest) (tight : Bool) (done : BlockRun) : List Branch → Except ForestError BlockRun
  | [] => return done
  | b :: bs => do
    let c ← f.content b.id
    let text ← block f (done.runBefore c % 2 == 1) b
    blocks f tight (done.add tight c text) bs

/-- Writes items after those of a list that are written. -/
def items (f : Forest) (marker : Nat → List Char) (tight : Bool) (done : ItemRun) :
    List Branch → Except ForestError ItemRun
  | [] => return done
  | .node _ inside :: bs => do
    let body ← blocks f tight {} inside
    items f marker tight (done.add tight marker body.text) bs
end

/-- Writes a live node as CommonMark. -/
def commonMark (f : Forest) (x : NodeId) : Except ForestError String := do
  let c ← f.content x
  let text ← if c.kind.isBlock then block f false (f.branch x)
    else (·.text) <$> inline f false ⟨[], true⟩ (f.branch x)
  return String.ofList (endLine text)

end LinkWriter

namespace CommonMark

/-- What is written after what was. -/
def Written.onto (out w : Written) : Written :=
  ⟨out.text ++ w.text, w.lineStart⟩

/-- The spot after what is written. -/
def Written.spot (out : Written) : Spot :=
  ⟨out.text.getLast?, out.lineStart⟩

theorem Written.onto_assoc (out w v : Written) : (out.onto w).onto v = out.onto (w.onto v) := by
  simp [onto]

theorem Written.spot_onto (out w : Written) :
    (out.onto w).spot = out.spot.after w.text w.lineStart := by
  simp [onto, spot, Spot.after]

end CommonMark

namespace Forest.Linked

open LinkWriter

variable {f : Forest} {x y : NodeId}

theorem live_next (h : Linked f f.children) (link : f.next? x = some y) : f.contains y := by
  obtain ⟨n, hn, e⟩ := Option.bind_eq_some_iff.mp link
  exact h.live_links hn (.inr (.inl e))

theorem content_treeAt (h : Linked f f.children) (hx : f.contains x) :
    (f.treeAt x).content = (f.contentAt x).visible := by
  rw [h.treeAt_eq hx]
  rfl

theorem kind_treeAt (h : Linked f f.children) (hx : f.contains x) :
    (f.treeAt x).kind = (f.contentAt x).kind := by
  rw [Tree.kind, h.content_treeAt hx, Content.kind_visible]

/-- The next sibling, as the tree that it shows. -/
def nextTree (f : Forest) (x : NodeId) : Option Tree :=
  (f.next? x).map f.treeAt

theorem firstOf_eq (h : Linked f f.children) (x : NodeId) :
    LinkWriter.firstOf f (f.next? x) = .ok (CommonMark.firstOf (nextTree f x)) := by
  rw [nextTree]
  cases link : f.next? x with
  | none => rfl
  | some y =>
    have hy := h.live_next link
    rw [LinkWriter.firstOf, content_eq hy, Option.map_some, CommonMark.firstOf, h.content_treeAt hy]
    cases f.contentAt y with
    | list type _ _ => cases type <;> rfl
    | _ => rfl

theorem isEmphasis_eq (h : Linked f f.children) (x : NodeId) :
    LinkWriter.isEmphasis f (f.next? x) = .ok ((nextTree f x).any CommonMark.isEmphasis) := by
  rw [nextTree]
  cases link : f.next? x with
  | none => rfl
  | some y =>
    have hy := h.live_next link
    rw [LinkWriter.isEmphasis, kind_eq hy, Option.map_some, Option.any_some, CommonMark.isEmphasis,
      h.kind_treeAt hy]
    rfl

/-- The mark chosen by looking at the next sibling. -/
theorem delimiter_eq (h : Linked f f.children) (hx : f.contains x) (out : List Char) :
    LinkWriter.delimiter f out x = .ok (CommonMark.delimiter out.getLast? (nextTree f x)) := by
  rw [LinkWriter.delimiter, next_eq hx, ok_bind, h.firstOf_eq, ok_bind, h.isEmphasis_eq, ok_bind]
  rfl

theorem id_branch (h : Linked f f.children) (hx : f.contains x) : (f.branch x).id = x := by
  rw [h.branch_eq hx, Branch.id]

theorem autolinkOf?_eq (h : Linked f f.children) (url title : String) {row : List NodeId}
    (live : ∀ y ∈ row, f.contains y) :
    LinkWriter.autolinkOf? f url title (row.map f.branch) =
      .ok (CommonMark.autolinkOf? url title (row.map f.treeAt)) := by
  match row with
  | [] => rfl
  | [y] =>
    have hy := live y (by simp)
    rw [List.map_singleton, List.map_singleton, LinkWriter.autolinkOf?, h.id_branch hy,
      content_eq hy, h.treeAt_eq hy]
    cases f.contentAt y with
    | list type _ _ => cases type <;> rfl
    | _ => rfl
  | y :: z :: more =>
    rw [CommonMark.autolinkOf?]
    · rfl
    · intro literal children single
      simp at single

/-! ## Inlines -/

/-- Each sibling of a row is followed by the tree of the next one. -/
theorem nextTree_eq (h : Linked f f.children) {before more : List NodeId}
    (row : f.children x = before ++ y :: more) : nextTree f y = (more.map f.treeAt).head? := by
  rw [nextTree, h.next?_eq row, List.head?_map]

/-- Writing the rest of a row adds what its trees are written as. -/
theorem inlines_row {inEmph : Bool} (h : Linked f f.children) (before : List NodeId)
    {more : List NodeId} (row : f.children x = before ++ more)
    (each : ∀ y ∈ more, ∀ out, LinkWriter.inline f inEmph out (f.branch y) =
      .ok (out.onto (writeInline inEmph (nextTree f y) out.spot (f.treeAt y)))) (out : Written) :
    LinkWriter.inlines f inEmph out (more.map f.branch) =
      .ok (out.onto (writeInlines inEmph out.spot (more.map f.treeAt))) := by
  induction more generalizing before out with
  | nil => simp [LinkWriter.inlines, writeInlines, Written.onto, Written.spot]
  | cons y more ih =>
    rw [List.forall_mem_cons] at each
    rw [List.map_cons, LinkWriter.inlines, each.1, ok_bind,
      ih (before ++ [y]) (by simp [row]) each.2, Written.onto_assoc, Written.spot_onto,
      h.nextTree_eq row, List.map_cons, writeInlines]
    rfl

/-- Writing an inline adds what the tree that it shows is written as. -/
theorem inline_eq (h : Linked f f.children) (hx : f.contains x) (inEmph : Bool) (out : Written) :
    LinkWriter.inline f inEmph out (f.branch x) =
      .ok (out.onto (writeInline inEmph (nextTree f x) out.spot (f.treeAt x))) := by
  revert inEmph out
  refine h.induction_below (motive := fun x => ∀ inEmph out,
    LinkWriter.inline f inEmph out (f.branch x) =
      .ok (out.onto (writeInline inEmph (nextTree f x) out.spot (f.treeAt x))))
    (fun x hx ih inEmph out => ?_) x hx
  have row : ∀ inEmph out, LinkWriter.inlines f inEmph out ((f.children x).map f.branch) =
      .ok (out.onto (writeInlines inEmph out.spot ((f.children x).map f.treeAt))) := by
    intro inEmph out
    exact h.inlines_row [] rfl (fun y hy out => ih y hy inEmph out) out
  have mark := h.delimiter_eq hx
  have link : ∀ url title, LinkWriter.autolinkOf? f url title ((f.children x).map f.branch) =
      .ok (CommonMark.autolinkOf? url title ((f.children x).map f.treeAt)) := fun url title =>
    h.autolinkOf?_eq url title fun y hy => (h.live hy).1
  rw [h.branch_eq hx, LinkWriter.inline, content_eq hx, ok_bind, h.treeAt_eq hx]
  cases f.contentAt x with
  | list type start tight =>
    cases type <;> simp [Content.visible, writeInline, Written.onto, Written.spot]
  | text literal =>
    simp only [Content.visible, writeInline]
    split <;> simp [Written.onto, Written.spot]
  | emph =>
    simp only [Content.visible, writeInline, row, mark]
    cases inEmph <;> simp [Written.onto, Written.spot]
  | strong => simp [Content.visible, writeInline, row, mark, Written.onto, Written.spot]
  | link url title =>
    simp only [Content.visible, writeInline, row, link, ok_bind]
    cases CommonMark.autolinkOf? url title ((f.children x).map f.treeAt) <;>
      simp [Written.onto, Written.spot]
  | image url title => simp [Content.visible, writeInline, row, Written.onto, Written.spot]
  | _ => simp [Content.visible, writeInline, Written.onto, Written.spot]

theorem inlineText_eq (h : Linked f f.children) (x : NodeId) :
    LinkWriter.inlineText f ((f.children x).map f.branch) =
      .ok (CommonMark.inlineText ((f.children x).map f.treeAt)) := by
  have each : ∀ y ∈ f.children x, ∀ out, LinkWriter.inline f false out (f.branch y) =
      .ok (out.onto (writeInline false (nextTree f y) out.spot (f.treeAt y))) :=
    fun y hy out => h.inline_eq (h.live hy).1 false out
  have row : f.children x = [] ++ f.children x := rfl
  rw [LinkWriter.inlineText, h.inlines_row [] row each]
  rfl

end Forest.Linked

/-! ## Blocks -/

namespace LinkWriter

/-- What is remembered of the blocks written so far. -/
def BlockRun.sequence (b : BlockRun) : Sequence :=
  ⟨b.previous, b.listType, b.listRun % 2 == 1⟩

theorem listTypeOf?_visible (c : Content) : listTypeOf? c.visible = listTypeOf? c := by
  cases c with
  | list type _ _ => cases type <;> rfl
  | _ => rfl

/-- The marker alternates along a run of lists. -/
theorem BlockRun.alternates_eq (b : BlockRun) (t : Tree) {c : Content}
    (same : CommonMark.listTypeOf? t = listTypeOf? c) :
    b.sequence.alternates t = (b.runBefore c % 2 == 1) := by
  rw [Sequence.alternates, BlockRun.runBefore, same, sequence]
  by_cases again : (listTypeOf? c).isSome && listTypeOf? c == b.listType
  · rw [if_pos again, again, Bool.true_and]
    rcases Nat.mod_two_eq_zero_or_one b.listRun with even | odd
    · simp [even, Nat.add_mod]
    · simp [odd, Nat.add_mod]
  · rw [if_neg again, (Bool.not_eq_true _).mp again]
    rfl

end LinkWriter

namespace Forest.Sound

open LinkWriter

variable {f : Forest} {x y : NodeId}

/-- A child stands under a kind that may contain it. -/
theorem fits (s : Sound f) (hy : y ∈ f.children x) :
    (f.contentAt x).kind.canContain (f.contentAt y).kind :=
  have live := s.linked.live hy
  s.placed (s.linked.parent?_iff.mpr hy) (content?_eq live.1) (content?_eq live.2)

/-- Documents, quotes and items have blocks for children. -/
theorem isBlock_child (s : Sound f)
    (outer : (f.contentAt x).kind = .document ∨ (f.contentAt x).kind = .blockQuote ∨
      (f.contentAt x).kind = .item) (hy : y ∈ f.children x) : (f.contentAt y).kind.isBlock := by
  have fits := s.fits hy
  rcases outer with e | e | e <;> simp only [e, Kind.canContain, Bool.and_eq_true] at fits <;>
    exact fits.1.1

theorem listTypeOf?_eq (s : Sound f) (hx : f.contains x) :
    CommonMark.listTypeOf? (f.treeAt x) = LinkWriter.listTypeOf? (f.contentAt x) := by
  rw [CommonMark.listTypeOf?, s.linked.content_treeAt hx, ← listTypeOf?_visible]
  cases (f.contentAt x).visible <;> rfl

/-- A node is written as a block, and its row as blocks. -/
def Written (f : Forest) (x : NodeId) : Prop :=
  ((f.contentAt x).kind.isBlock → ∀ alternate,
    block f alternate (f.branch x) = .ok (blockText alternate (f.treeAt x))) ∧
  ((∀ y ∈ f.children x, (f.contentAt y).kind.isBlock) → ∀ tight, ∃ all : BlockRun,
    blocks f tight {} ((f.children x).map f.branch) = .ok all ∧
      all.text = blocksText tight {} ((f.children x).map f.treeAt))

theorem blocks_row (s : Sound f) (tight : Bool) {row : List NodeId}
    (live : ∀ y ∈ row, f.contains y)
    (each : ∀ y ∈ row, ∀ alternate,
      block f alternate (f.branch y) = .ok (blockText alternate (f.treeAt y)))
    (done : BlockRun) :
    ∃ all : BlockRun, blocks f tight done (row.map f.branch) = .ok all ∧
      all.text = done.text ++ blocksText tight done.sequence (row.map f.treeAt) := by
  induction row generalizing done with
  | nil => exact ⟨done, rfl, by simp [blocksText]⟩
  | cons y row ih =>
    rw [List.forall_mem_cons] at live each
    obtain ⟨all, eq, text⟩ := ih live.2 each.2 (done.add tight (f.contentAt y)
      (blockText (done.runBefore (f.contentAt y) % 2 == 1) (f.treeAt y)))
    refine ⟨all, ?_, ?_⟩
    · rw [List.map_cons, blocks, s.linked.id_branch live.1, content_eq live.1, ok_bind, each.1,
        ok_bind]
      exact eq
    · have type := s.listTypeOf?_eq live.1
      rw [text, List.map_cons, blocksText, done.alternates_eq _ type, type,
        s.linked.kind_treeAt live.1, BlockRun.add]
      rcases done with ⟨done, _ | previous, type, run⟩ <;>
        simp only [BlockRun.sequence, List.append_assoc, List.nil_append]

theorem items_row (type : ListType) (start : Nat) (alternate tight : Bool) {row : List NodeId}
    (h : Linked f f.children) (live : ∀ y ∈ row, f.contains y)
    (each : ∀ y ∈ row, ∃ all : BlockRun,
      blocks f tight {} ((f.children y).map f.branch) = .ok all ∧
        all.text = blocksText tight {} ((f.children y).map f.treeAt))
    (done : ItemRun) :
    ∃ all : ItemRun,
      items f (itemMarker type start alternate) tight done (row.map f.branch) = .ok all ∧
        all.text = done.text ++
          itemsText type start alternate tight done.count (row.map f.treeAt) := by
  induction row generalizing done with
  | nil => exact ⟨done, rfl, by simp [itemsText]⟩
  | cons y row ih =>
    rw [List.forall_mem_cons] at live each
    obtain ⟨inside, body, written⟩ := each.1
    obtain ⟨all, eq, text⟩ := ih live.2 each.2
      (done.add tight (itemMarker type start alternate) inside.text)
    refine ⟨all, ?_, ?_⟩
    · rw [List.map_cons, h.branch_eq live.1, items, body, ok_bind]
      exact eq
    · rw [text, List.map_cons, h.treeAt_eq live.1, itemsText, ItemRun.add, written]
      simp

theorem written (s : Sound f) (hx : f.contains x) : Written f x := by
  refine s.linked.induction_below (motive := Written f) (fun x hx ih => ?_) x hx
  have row : (∀ y ∈ f.children x, (f.contentAt y).kind.isBlock) → ∀ tight, ∃ all : BlockRun,
      blocks f tight {} ((f.children x).map f.branch) = .ok all ∧
        all.text = blocksText tight {} ((f.children x).map f.treeAt) := by
    intro inner tight
    exact s.blocks_row tight (fun y hy => (s.linked.live hy).1)
      (fun y hy => (ih y hy).1 (inner y hy)) {}
  have below : (f.contentAt x).kind = .document ∨ (f.contentAt x).kind = .blockQuote ∨
      (f.contentAt x).kind = .item → ∃ all : BlockRun,
        blocks f false {} ((f.children x).map f.branch) = .ok all ∧
          all.text = blocksText false {} ((f.children x).map f.treeAt) := by
    intro outer
    exact row (fun y hy => s.isBlock_child outer hy) false
  refine ⟨fun outer alternate => ?_, row⟩
  rw [s.linked.branch_eq hx, block, content_eq hx, ok_bind, s.linked.treeAt_eq hx]
  cases c : f.contentAt x with
  | document =>
    obtain ⟨all, eq, text⟩ := below (.inl (by rw [c]; rfl))
    simp only [eq, ok_bind, text]
    rfl
  | blockQuote =>
    obtain ⟨all, eq, text⟩ := below (.inr (.inl (by rw [c]; rfl)))
    simp only [eq, ok_bind, text]
    rfl
  | item =>
    obtain ⟨all, eq, text⟩ := below (.inr (.inr (by rw [c]; rfl)))
    simp only [eq, ok_bind, text]
    rfl
  | list type start tight =>
    have live : ∀ y ∈ f.children x, f.contains y := fun y hy => (s.linked.live hy).1
    have each : ∀ y ∈ f.children x, ∃ all : BlockRun,
        blocks f tight {} ((f.children y).map f.branch) = .ok all ∧
          all.text = blocksText tight {} ((f.children y).map f.treeAt) := by
      intro y hy
      have item : (f.contentAt y).kind = .item := by
        simpa [c, Content.kind, Kind.canContain] using s.fits hy
      exact (ih y hy).2 (fun z hz => s.isBlock_child (.inr (.inr item)) hz) tight
    cases type with
    | bullet =>
      obtain ⟨all, eq, text⟩ := items_row .bullet 1 alternate tight s.linked live each {}
      simp only [eq, ok_bind, text]
      rfl
    | ordered =>
      obtain ⟨all, eq, text⟩ := items_row .ordered start alternate tight s.linked live each {}
      simp only [eq, ok_bind, text]
      rfl
  | paragraph => exact s.linked.inlineText_eq x
  | header level =>
    simp only [s.linked.inlineText_eq x, ok_bind]
    rfl
  | codeBlock info literal => rfl
  | html literal => rfl
  | hrule => rfl
  | _ => simp [c, Content.kind, Kind.isBlock] at outer

/-- Along links every live node is written, and as the tree that it shows. -/
theorem linkCommonMark_eq (s : Sound f) (hx : f.contains x) :
    LinkWriter.commonMark f x = f.commonMark x := by
  have tree : f.snapshot x = .ok (f.treeAt x) := snapshot_ok.mpr ⟨hx, rfl⟩
  have next : (f.next? x).bind f.tree? = Linked.nextTree f x := by
    rw [Linked.nextTree]
    cases link : f.next? x with
    | none => rfl
    | some y => exact tree?_eq (s.linked.live_next link)
  rw [LinkWriter.commonMark, content_eq hx, ok_bind, Forest.commonMark, next_eq hx, ok_bind, next,
    tree, ok_bind, writeBefore, s.linked.kind_treeAt hx]
  by_cases outer : (f.contentAt x).kind.isBlock
  · rw [if_pos outer, if_pos outer, (s.written hx).1 outer]
    rfl
  · rw [if_neg outer, if_neg outer, s.linked.inline_eq hx]
    rfl

/-- The CommonMark of a live node without a parent is that of the tree that it shows. -/
theorem commonMark_eq (s : Sound f) (hx : f.contains x) (top : f.parent? x = none) :
    f.commonMark x = .ok (write (f.treeAt x)) := by
  obtain ⟨n, hn⟩ := contains_iff.mp hx
  have tree : f.snapshot x = .ok (f.treeAt x) := snapshot_ok.mpr ⟨hx, rfl⟩
  have last : f.next? x = none := by
    rw [next?, hn]
    exact (s.linked.alone hn ((parent?_of_get? hn).symm.trans top)).2
  rw [Forest.commonMark, next_eq hx, ok_bind, last, tree]
  rfl

end Forest.Sound

/-! ## What a tree tells -/

namespace Forest

/-- A node shows the tree `t`, and all that is written of it, along links or not, is what is written
of `t`. -/
structure WrittenAs (f : Forest) (x : NodeId) (t : Tree) : Prop where
  snapshot : f.snapshot x = .ok t
  html : ∀ o, f.html o x = .ok (Html.render o t)
  linkHtml : ∀ o, (LinkWalk.html f o x).run = .some (.ok (Html.render o t))
  commonMark : f.commonMark x = .ok (write t)
  linkCommonMark : LinkWriter.commonMark f x = .ok (write t)

theorem Sound.writtenAs {f : Forest} {x : NodeId} (s : Sound f) (top : f.parent x = .ok none) :
    WrittenAs f x (f.treeAt x) := by
  obtain ⟨n, hn, up⟩ := bind_eq_ok.mp top
  have hx : f.contains x := contains_iff.mpr ⟨n, node_ok.mp hn⟩
  have root : f.parent? x = none := (parent?_of_get? (node_ok.mp hn)).trans (Except.ok.inj up)
  have html : ∀ o, f.html o x = .ok (Html.render o (f.treeAt x)) := fun o =>
    s.linked.html_eq hx root
  have mark := s.commonMark_eq hx root
  exact ⟨snapshot_ok.mpr ⟨hx, rfl⟩, html, fun o => by rw [s.linked.linkHtml_eq hx, html],
    mark, by rw [s.linkCommonMark_eq hx, mark]⟩

/-- Nodes without a parent that show one tree are written alike, whatever was asked of the forests
they are in: as the tree is. -/
theorem run_written (rs₁ rs₂ : List Request) (x₁ x₂ : NodeId)
    (top₁ : (run rs₁).parent x₁ = .ok none) (top₂ : (run rs₂).parent x₂ = .ok none)
    (same : (run rs₁).snapshot x₁ = (run rs₂).snapshot x₂) :
    (∀ o, (run rs₁).html o x₁ = (run rs₂).html o x₂) ∧
      (run rs₁).commonMark x₁ = (run rs₂).commonMark x₂ ∧
      ∃ t, WrittenAs (run rs₁) x₁ t ∧ WrittenAs (run rs₂) x₂ t := by
  have first := (sound_run rs₁).writtenAs top₁
  have second := (sound_run rs₂).writtenAs top₂
  have tree : (run rs₁).treeAt x₁ = (run rs₂).treeAt x₂ := by
    rw [first.snapshot, second.snapshot] at same
    exact Except.ok.inj same
  rw [← tree] at second
  refine ⟨fun o => ?_, ?_, _, first, second⟩
  · rw [first.html, second.html]
  · rw [first.commonMark, second.commonMark]

/-- A list made from the top down. -/
def madeDown : List Request :=
  [.newNode .list, .newNode .item, .newNode .paragraph, .newNode .text,
    .appendChild ⟨0, 0⟩ ⟨1, 0⟩, .appendChild ⟨1, 0⟩ ⟨2, 0⟩, .appendChild ⟨2, 0⟩ ⟨3, 0⟩,
    .set (.literal "a") ⟨3, 0⟩, .set (.listTight true) ⟨0, 0⟩]

/-- The same list made from the bottom up, with a start that is hidden again. -/
def madeUp : List Request :=
  [.newNode .text, .newNode .paragraph, .newNode .item, .newNode .list,
    .set (.literal "a") ⟨0, 0⟩, .appendChild ⟨1, 0⟩ ⟨0, 0⟩, .appendChild ⟨2, 0⟩ ⟨1, 0⟩,
    .appendChild ⟨3, 0⟩ ⟨2, 0⟩, .set (.listType .ordered) ⟨3, 0⟩, .set (.listStart 7) ⟨3, 0⟩,
    .set (.listType .bullet) ⟨3, 0⟩, .set (.listTight true) ⟨3, 0⟩]

theorem madeUp_written :
    (run madeDown).parent ⟨0, 0⟩ = .ok none ∧ (run madeUp).parent ⟨3, 0⟩ = .ok none ∧
      (run madeDown).snapshot ⟨0, 0⟩ = (run madeUp).snapshot ⟨3, 0⟩ ∧
      (∀ o, (run madeDown).html o ⟨0, 0⟩ = (run madeUp).html o ⟨3, 0⟩) ∧
      (run madeDown).commonMark ⟨0, 0⟩ = (run madeUp).commonMark ⟨3, 0⟩ ∧
      ∃ t, WrittenAs (run madeDown) ⟨0, 0⟩ t ∧ WrittenAs (run madeUp) ⟨3, 0⟩ t := by
  have top₁ : (run madeDown).parent ⟨0, 0⟩ = .ok none := by decide +kernel
  have top₂ : (run madeUp).parent ⟨3, 0⟩ = .ok none := by decide +kernel
  have same : (run madeDown).snapshot ⟨0, 0⟩ = (run madeUp).snapshot ⟨3, 0⟩ := by decide +kernel
  exact ⟨top₁, top₂, same, run_written _ _ _ _ top₁ top₂ same⟩

end Forest

end MarkdownForest
