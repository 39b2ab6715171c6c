/-
# MarkdownForest.Proofs.ChildLists -- the edits as edits of lists of children

A node is put at a spot: last or first below a parent, or right before or right
after an anchor.  To the lists of children this does two things: the node leaves
the list it was in, and enters that of its new parent where the spot cuts it
(`Spot.Cuts`).  Nothing else changes (`Relocated`).

* `Spot.Admits`: when a node may go to a spot, said without the checks;
* `Linked.put`, `Linked.admits_of_put`: the edit succeeds exactly then, and does that;
* `Linked.branch_kept`: the node takes along what is below it.

`run_put` says this of every forest that requests lead to, for the edit as it
writes one record after another.
-/
import MarkdownForest.Proofs.Branches
import MarkdownForest.Proofs.InPlace
import MarkdownForest.Proofs.Requests

namespace MarkdownForest.Forest

set_option autoImplicit false

/-- Where a node can be put. -/
inductive Spot where
  | last (parent : NodeId)
  | first (parent : NodeId)
  | before (anchor : NodeId)
  | after (anchor : NodeId)
  deriving DecidableEq, Repr

namespace Spot

/-- The node that a spot names. -/
def named : Spot → NodeId
  | last p | first p => p
  | before a | after a => a

/-- The node below which a spot is. -/
def parent? (f : Forest) : Spot → Option NodeId
  | last p | first p => some p
  | before a | after a => f.parent? a

/-- Where a spot cuts a list of children: in `l` and `r`. -/
def Cuts (l r : List NodeId) : Spot → Prop
  | last _ => r = []
  | first _ => l = []
  | before a => r.head? = some a
  | after a => l.getLast? = some a

/-- The node `x` may go to a spot below `p`: it is neither named by the spot, nor `p`, nor above
`p`, and `p` may contain it. -/
structure Admits (s : Spot) (f : Forest) (p x : NodeId) : Prop where
  named : f.contains s.named
  live : f.contains x
  ne : s.named ≠ x
  parent : s.parent? f = some p
  apart : ¬ Below f x p
  fits : (f.contentAt p).kind.canContain (f.contentAt x).kind

end Spot

/-- Puts a node at a spot. -/
def put (f : Forest) (x : NodeId) : Spot → Except ForestError Forest
  | .last p => f.appendChild p x
  | .first p => f.prependChild p x
  | .before a => f.insertBefore a x
  | .after a => f.insertAfter a x

/-- `Forest.put`, record by record. -/
def Editing.put (x : NodeId) : Spot → Editing Unit
  | .last p => Editing.appendChild p x
  | .first p => Editing.prependChild p x
  | .before a => Editing.insertBefore a x
  | .after a => Editing.insertAfter a x

/-- `g` is `f` with the node `x` put at a spot below `p`, and nothing else changed. -/
structure Relocated (f g : Forest) (s : Spot) (p x : NodeId) : Prop where
  /-- The list below `p` loses `x` if that was in it, and gets it at the spot. -/
  target : ∃ l r, (f.children p).erase x = l ++ r ∧ s.Cuts l r ∧ g.children p = l ++ x :: r
  /-- The list that `x` came from loses just `x`. -/
  former : ∀ q, q ≠ p → f.parent? x = some q → g.children q = (f.children q).erase x
  others : ∀ q, q ≠ p → f.parent? x ≠ some q → g.children q = f.children q
  parent : ∀ y, g.parent? y = if y = x then some p else f.parent? y
  content : ∀ y, g.content? y = f.content? y
  /-- What is below `x` comes along as it is. -/
  branch : g.branch? x = f.branch? x
  live : g.live = f.live
  allocated : g.allocated = f.allocated
  freed : g.freed = f.freed

section Put

variable {f g : Forest} {s : Spot} {x p : NodeId}

theorem Linked.not_below_iff (h : Linked f f.children) (hp : f.contains p) :
    x ∉ f.ancestors p ↔ ¬ Below f x p :=
  not_congr (h.mem_ancestors hp)

theorem fits_iff (hp : f.contains p) (hx : f.contains x) :
    (∀ {c d}, f.content? p = some c → f.content? x = some d → c.kind.canContain d.kind) ↔
      (f.contentAt p).kind.canContain (f.contentAt x).kind := by
  rw [content?_eq hp, content?_eq hx]
  constructor
  · intro fits
    exact fits rfl rfl
  · rintro fits c d ⟨⟩ ⟨⟩
    exact fits

/-- A node that may go to a spot may become a child there. -/
theorem Spot.Admits.mayHold (a : s.Admits f p x) (h : Linked f f.children) : MayHold f p x := by
  have hp : f.contains p := by
    cases s with
    | last q | first q => exact Option.some.inj a.parent ▸ a.named
    | before b | after b => exact h.live_parent a.parent
  refine ⟨hp, a.live, ?_, (h.not_below_iff hp).mpr a.apart, (fits_iff hp a.live).mpr a.fits⟩
  rintro rfl
  obtain ⟨path, up⟩ := h.path p
  exact a.apart (.self up)

theorem MayHold.admits (m : MayHold f p x) (h : Linked f f.children) (named : f.contains s.named)
    (ne : s.named ≠ x) (parent : s.parent? f = some p) : s.Admits f p x :=
  ⟨named, m.child, ne, parent, (h.not_below_iff m.parent).mp m.apart,
    (fits_iff m.parent m.child).mp m.fits⟩

/-- A node is put wherever it may go. -/
theorem Linked.put (h : Linked f f.children) (a : s.Admits f p x) :
    ∃ g l r, f.put x s = .ok g ∧ (f.children p).erase x = l ++ r ∧ s.Cuts l r ∧
      Moved f g x (some p) ∧
      Linked g fun q => if q = p then l ++ x :: r else (f.children q).erase x := by
  have may := a.mayHold h
  cases s with
  | last q =>
    obtain rfl := Option.some.inj a.parent
    obtain ⟨g, hg, moved, linked⟩ := h.appendChild may
    exact ⟨g, _, [], hg, (List.append_nil _).symm, rfl, moved, linked⟩
  | first q =>
    obtain rfl := Option.some.inj a.parent
    obtain ⟨g, hg, moved, linked⟩ := h.prependChild may
    exact ⟨g, [], _, hg, rfl, rfl, moved, linked⟩
  | before b =>
    obtain ⟨g, l, r, hg, moved, row, linked⟩ :=
      h.insertBefore (checkSibling_ok.mpr ⟨a.parent, a.ne, may⟩)
    exact ⟨g, l, b :: r, hg, row, rfl, moved, linked⟩
  | after b =>
    obtain ⟨g, l, r, hg, moved, row, linked⟩ :=
      h.insertAfter (checkSibling_ok.mpr ⟨a.parent, a.ne, may⟩)
    refine ⟨g, l ++ [b], r, hg, ?_, ?_, moved, ?_⟩
    · rw [row, List.append_assoc]
      rfl
    · exact List.getLast?_concat
    · exact linked.congr_rows fun q => by rw [List.append_assoc]; rfl

/-- A node that was put somewhere may go there. -/
theorem Linked.admits_of_put (h : Linked f f.children) (e : f.put x s = .ok g) :
    ∃ p, s.Admits f p x := by
  cases s with
  | last p | first p =>
    obtain ⟨_, check, -⟩ := bind_eq_ok.mp e
    have may := checkChild_ok.mp check
    exact ⟨p, may.admits h may.parent may.ne rfl⟩
  | before b | after b =>
    obtain ⟨p, check, -⟩ := bind_eq_ok.mp e
    obtain ⟨up, ne, may⟩ := checkSibling_ok.mp check
    exact ⟨p, may.admits h (contains_of_parent? up) ne up⟩

/-- Putting a node at a spot, record by record, is one write. -/
theorem Linked.inPlace_put (h : Linked f f.children) (x : NodeId) (s : Spot) :
    Editing.put x s f = Editing.write (·.put x s) f := by
  cases s with
  | last p => exact h.inPlace_appendChild
  | first p => exact h.inPlace_prependChild
  | before a => exact h.inPlace_insertBefore
  | after a => exact h.inPlace_insertAfter

/-! ## What comes along -/

/-- Nodes keep what is below them when no list of children at or below them changes. -/
theorem Linked.branch_kept (h : Linked f f.children) (k : Linked g g.children)
    (live : ∀ y, g.contains y = f.contains y)
    (same : ∀ y, Below f x y → g.children y = f.children y) (hx : f.contains x) :
    g.branch? x = f.branch? x := by
  have kept : ∀ y, f.contains y → Below f x y → g.branch y = f.branch y := by
    refine h.induction_below fun y hy ih below => ?_
    rw [h.branch_eq hy, k.branch_eq ((live y).trans hy), same y below]
    congr 1
    refine List.map_congr_left fun z hz => ?_
    exact ih z hz (below.of_parent (h.parent?_iff.mpr hz))
  obtain ⟨path, up⟩ := h.path x
  rw [branch?_eq hx, branch?_eq ((live x).trans hx), kept x hx (.self up)]

/-- A node put at a spot is where the spot says, and all else is as it was. -/
theorem Linked.relocated (h : Linked f f.children) (a : s.Admits f p x) {l r : List NodeId}
    (row : (f.children p).erase x = l ++ r) (cuts : s.Cuts l r) (moved : Moved f g x (some p))
    (linked : Linked g fun q => if q = p then l ++ x :: r else (f.children q).erase x) :
    Relocated f g s p x := by
  have elsewhere : ∀ q, q ≠ p → g.children q = (f.children q).erase x := fun q hq => by
    rw [linked.children_eq, if_neg hq]
  have others : ∀ q, q ≠ p → f.parent? x ≠ some q → g.children q = f.children q := by
    intro q hq far
    rw [elsewhere q hq, List.erase_of_not_mem]
    exact fun hx => far (h.parent?_iff.mpr hx)
  refine ⟨⟨l, r, row, cuts, ?_⟩, fun q hq _ => elsewhere q hq, others, moved.parent?,
    moved.content?, ?_, moved.live, moved.allocated, moved.freed⟩
  · rw [linked.children_eq, if_pos rfl]
  · -- neither the old parent nor the new one is at or below `x`
    refine h.branch_kept linked.of_rows moved.contains_eq (fun y below => ?_) a.live
    apply others y
    · rintro rfl
      exact a.apart below
    · intro up
      exact Below.not_child up below

end Put

/-- After any requests, a node is put at a spot, record by record, exactly if it may go there.  Then
it leaves the list of children that it was in, stands in that of its new parent where the spot says,
and takes along what is below it; else the forest is as it was. -/
theorem run_put (rs : List Request) (x : NodeId) (s : Spot) :
    match Editing.put x s (run rs) with
    | .ok _ g => (run rs).put x s = .ok g ∧
        ∃ p, s.Admits (run rs) p x ∧ Relocated (run rs) g s p x
    | .error e g => (run rs).put x s = .error e ∧ g = run rs ∧ ∀ p, ¬ s.Admits (run rs) p x := by
  have h := (sound_run rs).linked
  rw [h.inPlace_put]
  cases e : (run rs).put x s with
  | ok g =>
    rw [Editing.write_ok e]
    obtain ⟨p, admits⟩ := h.admits_of_put e
    obtain ⟨g', l, r, hg', row, cuts, moved, linked⟩ := h.put admits
    obtain rfl := Except.ok.inj (hg'.symm.trans e)
    exact ⟨rfl, p, admits, h.relocated admits row cuts moved linked⟩
  | error e' =>
    rw [Editing.write, e]
    refine ⟨rfl, rfl, fun p admits => ?_⟩
    obtain ⟨g, _, _, hg, -⟩ := h.put admits
    rw [hg] at e
    cases e

end MarkdownForest.Forest
