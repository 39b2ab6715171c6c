/-
# MarkdownForest.Proofs.Rendering -- HTML along links and HTML of trees

A node is rendered in three ways:

* along the links of the forest (`LinkWalk.html`): a loop over a walk that keeps
  nothing but its next event, finds the lists around a paragraph two parents up, and
  reads a description off a walk of its own; it may fail, or go on for ever;
* as a fold over the events of a walk (`Forest.html`);
* by recursion over the tree that the node shows (`Html.render`).

In a forest whose links fit together the first two agree on every live node
(`Linked.linkHtml_eq`), and the third is the same for a node that has no parent
(`Linked.html_eq`): what is above the node is all that the tree does not show.
-/
import MarkdownForest.Proofs.Walks

namespace MarkdownForest

set_option autoImplicit false

open Html

/-! ## Along links -/

namespace LinkWalk

/-- Whether a paragraph is directly in an item of a tight list. -/
def inTightList (f : Forest) (x : NodeId) : Except ForestError Bool := do
  match ← f.parent x with
  | none => return false
  | some item =>
    match ← f.parent item with
    | none => return false
    | some list =>
      if (← f.kind list) = .list then f.get Content.getListTight list else return false

/-- Whether a node of a given content is written without tags. -/
def isBare (f : Forest) (x : NodeId) (c : Content) : Except ForestError Bool :=
  if c = .paragraph then inTightList f x else return false

/-- Adds what is met below an image to its description. -/
def describe (f : Forest) (image : NodeId) (alt : List Char) :
    WalkEvent → Looping (List Char × Bool)
  | .enter x =>
    if x = image then return (alt, false)
    else do
      let c ← Looping.done (f.content x)
      return (alt ++ plainContent c, false)
  | .exit _ => return (alt, false)

def description (f : Forest) (image : NodeId) : Looping (List Char) :=
  loop f (describe f image) (start f image) []

/-- Adds what is met to a page; what is below an image is skipped. -/
def render (f : Forest) (o : RenderOptions) (p : Page) : WalkEvent → Looping (Page × Bool)
  | .enter x => do
    let c ← Looping.done (f.content x)
    let bare ← Looping.done (isBare f x c)
    let alt ← if c.kind = .image then description f x else pure []
    return (p.enter o bare alt c, c.kind == .image)
  | .exit x => do
    let c ← Looping.done (f.content x)
    let bare ← Looping.done (isBare f x c)
    return (p.leave bare c, false)

/-- A node as HTML. -/
def html (f : Forest) (o : RenderOptions) (x : NodeId) : Looping String := do
  let _ ← Looping.done (f.content x)
  let page ← loop f (render f o) (start f x) {}
  return String.ofList page.text

end LinkWalk

namespace Forest.Linked

variable {f : Forest} {x : NodeId} {o : RenderOptions}

/-- Two links up is the list that makes a paragraph bare. -/
theorem inTightList_eq (h : Linked f f.children) (hx : f.contains x) :
    LinkWalk.inTightList f x = .ok (match (f.parent? x).bind f.parent? with
      | some list => isTightList (f.contentAt list)
      | none => false) := by
  rw [LinkWalk.inTightList, parent_eq hx]
  cases up : f.parent? x with
  | none => rfl
  | some item =>
    have hitem := h.live_parent up
    simp only [ok_bind, parent_eq hitem, Option.bind_some]
    cases up' : f.parent? item with
    | none => rfl
    | some list =>
      have hlist := h.live_parent up'
      simp only [ok_bind, kind, get, content_eq hlist]
      cases f.contentAt list <;> rfl

theorem isBare_eq (h : Linked f f.children) (hx : f.contains x) :
    LinkWalk.isBare f x (f.contentAt x) = .ok (f.isBare x) := by
  rw [LinkWalk.isBare, Forest.isBare]
  split
  · rename_i e
    rw [h.inTightList_eq hx, e]
    rfl
  · rename_i e
    rw [beq_eq_false_iff_ne.mpr e]
    rfl

/-- The description of an image comes to an end. -/
theorem linkDescription_eq (h : Linked f f.children) (hx : f.contains x) (image : f.isImage x) :
    LinkWalk.description f x = pure (f.description x) := by
  have own : plainContent (f.contentAt x) = [] := by
    rw [isImage] at image
    cases e : f.contentAt x <;> simp [e, Content.kind] at image
    rfl
  have done : ∀ alt e, f.contains e.node → LinkWalk.describe f x alt e =
      pure (alt ++ f.plainEvent e, e.skips fun _ => false) := by
    intro alt e he
    cases e with
    | exit y => simp [LinkWalk.describe, plainEvent, WalkEvent.skips]
    | enter y =>
      rw [LinkWalk.describe, plainEvent, WalkEvent.skips]
      split
      · rename_i same
        rw [same, own, List.append_nil]
      · rw [content_eq (show f.contains y from he), Looping.done_ok, pure_bind]
  rw [LinkWalk.description, h.loop_eq hx done, Forest.description, List.flatMap_eq_foldl]

theorem render_eq (h : Linked f f.children) (p : Page) (e : WalkEvent) (he : f.contains e.node) :
    LinkWalk.render f o p e = pure (f.renderEvent o p e, e.skips f.isImage) := by
  cases e with
  | exit y =>
    have hy : f.contains y := he
    rw [LinkWalk.render, content_eq hy, Looping.done_ok, pure_bind, h.isBare_eq hy,
      Looping.done_ok, pure_bind, renderEvent, WalkEvent.skips]
  | enter y =>
    have hy : f.contains y := he
    rw [LinkWalk.render, content_eq hy, Looping.done_ok, pure_bind, h.isBare_eq hy,
      Looping.done_ok, pure_bind, renderEvent, WalkEvent.skips]
    by_cases image : f.isImage y
    · have kind : (f.contentAt y).kind = .image := by simpa [isImage] using image
      rw [if_pos kind, if_pos image, h.linkDescription_eq hy image, pure_bind, isImage]
    · have kind : (f.contentAt y).kind ≠ .image := by simpa [isImage] using image
      rw [if_neg kind, if_neg image, pure_bind, isImage]

/-- Along links every live node is rendered, and as it is by a fold over its walk. -/
theorem linkHtml_eq (h : Linked f f.children) (hx : f.contains x) :
    (LinkWalk.html f o x).run = .some (f.html o x) := by
  rw [LinkWalk.html, Forest.html, content_eq hx, Looping.done_ok, pure_bind,
    h.loop_eq hx h.render_eq, pure_bind]
  rfl

end Forest.Linked

/-! ## By recursion over trees -/

namespace Html

@[simp] theorem isTightList_visible (c : Content) : isTightList c.visible = isTightList c := by
  cases c with
  | list type _ _ => cases type <;> rfl
  | _ => rfl

@[simp] theorem plainContent_visible (c : Content) : plainContent c.visible = plainContent c := by
  cases c with
  | list type _ _ => cases type <;> rfl
  | _ => rfl

namespace Page

variable {o : RenderOptions} {b b' : Bool} {alt : List Char} {c : Content} {p : Page}

@[simp] theorem enter_visible : p.enter o b alt c.visible = p.enter o b alt c := by
  cases c with
  | list type _ _ => cases type <;> rfl
  | _ => rfl

@[simp] theorem leave_visible : p.leave b c.visible = p.leave b c := by
  cases c with
  | list type _ _ => cases type <;> rfl
  | _ => rfl

/-- Only paragraphs are ever bare. -/
theorem enter_congr (h : c = .paragraph → b = b') : p.enter o b alt c = p.enter o b' alt c := by
  cases c with
  | paragraph => rw [h rfl]
  | list type _ _ => cases type <;> rfl
  | _ => rfl

theorem leave_congr (h : c = .paragraph → b = b') : p.leave b c = p.leave b' c := by
  cases c with
  | paragraph => rw [h rfl]
  | list type _ _ => cases type <;> rfl
  | _ => rfl

end Page

theorem plainTexts_eq_flatMap (ts : List Tree) : plainTexts ts = ts.flatMap plainText := by
  induction ts with
  | nil => rfl
  | cons t ts ih => rw [plainTexts, ih, List.flatMap_cons]

section Node

variable {o : RenderOptions} {q : Place} {p : Page} {c : Content} {ts : List Tree}

theorem renderOnto_image (image : c.kind = .image) :
    renderOnto o q p (.node c ts) = p.enter o q.grandparentTight (plainTexts ts) c := by
  rw [renderOnto]
  split
  · rfl
  · contradiction

theorem renderOnto_other (other : c.kind ≠ .image) :
    renderOnto o q p (.node c ts) =
      if c.kind.isLeaf then p.enter o q.grandparentTight [] c
      else (renderAllOnto o (q.below c) (p.enter o q.grandparentTight [] c) ts).leave
        q.grandparentTight c := by
  rw [renderOnto]
  split
  · contradiction
  · rfl

end Node

theorem renderAllOnto_eq_foldl (o : RenderOptions) (q : Place) (p : Page) (ts : List Tree) :
    renderAllOnto o q p ts = ts.foldl (renderOnto o q) p := by
  induction ts generalizing p with
  | nil => rfl
  | cons t ts ih => rw [renderAllOnto, ih, List.foldl_cons]

end Html

namespace Forest

/-- Where a node stands. -/
def placeAt (f : Forest) (x : NodeId) : Place where
  parentTight := (f.parent? x).any fun p => isTightList (f.contentAt p)
  grandparentTight := ((f.parent? x).bind f.parent?).any fun p => isTightList (f.contentAt p)

namespace Linked

variable {f : Forest} {x y : NodeId} {o : RenderOptions}

theorem placeAt_top (top : f.parent? x = none) : f.placeAt x = {} := by
  rw [placeAt, top]
  rfl

theorem placeAt_child (h : Linked f f.children) (hy : y ∈ f.children x) :
    f.placeAt y = (f.placeAt x).below (f.contentAt x) := by
  rw [placeAt, h.parent?_iff.mpr hy]
  rfl

theorem isBare_place (paragraph : f.contentAt x = .paragraph) :
    f.isBare x = (f.placeAt x).grandparentTight := by
  rw [Forest.isBare, placeAt, paragraph]
  cases (f.parent? x).bind f.parent? <;> rfl

/-- The description of a node is the text of the tree that it shows. -/
theorem description_eq (h : Linked f f.children) (hx : f.contains x) :
    f.description x = plainText (f.treeAt x) := by
  rw [description, h.walk_eq hx]
  refine h.induction_below (motive := fun x =>
    (Walk.traversal f (fun _ => false) (f.branch x)).flatMap f.plainEvent =
      plainText (f.treeAt x)) (fun x hx ih => ?_) x hx
  rw [h.traversal_branch _ hx, if_neg Bool.false_ne_true, h.treeAt_eq hx, plainText, plainContent_visible,
    Content.kind_visible]
  split
  · simp [plainEvent]
  · have below : ((f.children x).flatMap fun y => Walk.traversal f (fun _ => false)
          (f.branch y)).flatMap f.plainEvent = plainTexts ((f.children x).map f.treeAt) := by
      rw [plainTexts_eq_flatMap, List.flatMap_map, List.flatMap_assoc]
      exact List.flatMap_congr ih
    simp [below, plainEvent]

/-- The description of an image is the text below it. -/
theorem description_image (h : Linked f f.children) (hx : f.contains x) (image : f.isImage x) :
    f.description x = plainTexts ((f.children x).map f.treeAt) := by
  rw [h.description_eq hx, h.treeAt_eq hx, plainText, plainContent_visible, Content.kind_visible]
  rw [isImage] at image
  cases e : f.contentAt x <;> simp [e, Content.kind] at image
  rfl

/-- Going through the events of a node adds the tree that it shows to the page. -/
theorem foldl_traversal (h : Linked f f.children) (hx : f.contains x) (p : Page) :
    (Walk.traversal f f.isImage (f.branch x)).foldl (f.renderEvent o) p =
      renderOnto o (f.placeAt x) p (f.treeAt x) := by
  revert p
  refine h.induction_below (motive := fun x => ∀ p,
    (Walk.traversal f f.isImage (f.branch x)).foldl (f.renderEvent o) p =
      renderOnto o (f.placeAt x) p (f.treeAt x)) (fun x hx ih p => ?_) x hx
  have bare : f.contentAt x = .paragraph → f.isBare x = (f.placeAt x).grandparentTight :=
    isBare_place
  rw [h.treeAt_eq hx]
  by_cases image : f.isImage x
  · have kind : (f.contentAt x).kind = .image := by simpa [isImage] using image
    have left : ∀ p : Page, p.leave (f.isBare x) (f.contentAt x) = p := fun p => by
      cases e : f.contentAt x <;> simp [e, Content.kind] at kind
      rfl
    rw [renderOnto_image ((f.contentAt x).kind_visible.trans kind), h.traversal_branch _ hx,
      if_pos image]
    simp only [List.foldl_cons, List.foldl_nil, renderEvent, if_pos image, left,
      h.description_image hx image, Page.enter_visible, Page.enter_congr bare]
  · have kind : (f.contentAt x).kind ≠ .image := by simpa [isImage] using image
    rw [renderOnto_other (by rwa [Content.kind_visible]), h.traversal_branch _ hx, if_neg image,
      Content.kind_visible]
    split
    · simp only [List.foldl_cons, List.foldl_nil, renderEvent, if_neg image, Page.enter_visible,
        Page.enter_congr bare]
    · have below : ∀ p, ((f.children x).flatMap fun y =>
            Walk.traversal f f.isImage (f.branch y)).foldl (f.renderEvent o) p =
          renderAllOnto o ((f.placeAt x).below (f.contentAt x).visible) p
            ((f.children x).map f.treeAt) := fun p => by
        rw [renderAllOnto_eq_foldl, List.foldl_flatMap, List.foldl_map]
        refine List.foldl_ext _ _ _ fun p y hy => ?_
        rw [ih y hy, h.placeAt_child hy, Place.below, Place.below, isTightList_visible]
      simp only [List.foldl_cons, List.foldl_append, List.foldl_nil, renderEvent, if_neg image,
        below, Page.enter_visible, Page.leave_visible, Page.enter_congr bare,
        Page.leave_congr bare]

/-- A live node as HTML: the tree that it shows, where the node stands. -/
theorem html_renderAt (h : Linked f f.children) (hx : f.contains x) :
    f.html o x = .ok (renderAt o (f.placeAt x) (f.treeAt x)) := by
  rw [Forest.html, content_eq hx, h.walk_eq hx, h.foldl_traversal hx]
  rfl

/-- A live node without a parent, as HTML: that of the tree that it shows. -/
theorem html_eq (h : Linked f f.children) (hx : f.contains x) (top : f.parent? x = none) :
    f.html o x = .ok (Html.render o (f.treeAt x)) := by
  rw [h.html_renderAt hx, placeAt_top top]
  rfl

end Linked

end Forest

end MarkdownForest
