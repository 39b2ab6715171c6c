/-
# MarkdownForest.Proofs.Planting -- what is planted is the tree

`Shows f x t` says that `x` and the nodes below it hold the tree `t`: contents and
children are those of `t`, from top to bottom.

* `Shows.keep`: that depends on nothing but the nodes at and below `x`;
* `plant_shows`: a well-formed tree that is planted is shown by its root.
-/
import MarkdownForest.Proofs.Growing

namespace MarkdownForest.Forest

set_option autoImplicit false

mutual
/-- The nodes at and below `x` hold a tree. -/
def Shows (f : Forest) (x : NodeId) : Tree → Prop
  | .node c ts => f.content? x = some c ∧ f.ShowsRow (f.children x) ts

/-- Nodes hold trees, one each. -/
def ShowsRow (f : Forest) : List NodeId → List Tree → Prop
  | [], [] => True
  | y :: ys, t :: ts => f.Shows y t ∧ f.ShowsRow ys ts
  | _, _ => False
end

section Shows

variable {f g : Forest} {x y : NodeId} {ys : List NodeId} {t : Tree} {ts : List Tree}

theorem Shows.content? (h : f.Shows x t) : f.content? x = some t.content := by
  cases t with
  | node c ts =>
    rw [Shows] at h
    exact h.1

theorem Shows.children (h : f.Shows x t) : f.ShowsRow (f.children x) t.children := by
  cases t with
  | node c ts =>
    rw [Shows] at h
    exact h.2

theorem ShowsRow.concat (h : f.ShowsRow ys ts) (last : f.Shows y t) :
    f.ShowsRow (ys ++ [y]) (ts ++ [t]) := by
  induction ts generalizing ys with
  | nil =>
    cases ys with
    | nil => simpa [ShowsRow] using last
    | cons z ys => simp [ShowsRow] at h
  | cons s ts ih =>
    cases ys with
    | nil => simp [ShowsRow] at h
    | cons z ys =>
      simp only [ShowsRow, List.cons_append] at h ⊢
      exact ⟨h.1, ih h.2⟩

/-- The contents of nodes that show trees. -/
theorem ShowsRow.contents (h : f.ShowsRow ys ts) :
    ys.map f.content? = ts.map fun t => some t.content := by
  induction ts generalizing ys with
  | nil =>
    cases ys with
    | nil => rfl
    | cons z ys => simp [ShowsRow] at h
  | cons t ts ih =>
    cases ys with
    | nil => simp [ShowsRow] at h
    | cons z ys =>
      simp only [ShowsRow] at h
      simp [h.1.content?, ih h.2]

mutual
/-- What a node shows depends on the nodes at and below it. -/
theorem Shows.keep (hf : Linked f f.children) {x : NodeId}
    (same : ∀ z, Below f x z → g.content? z = f.content? z ∧ g.children z = f.children z) :
    ∀ t : Tree, f.Shows x t → g.Shows x t
  | .node c ts, h => by
    rw [Shows] at h ⊢
    obtain ⟨content, children⟩ := same x (hf.below_self x)
    rw [content, children]
    exact ⟨h.1, ShowsRow.keep hf (fun y hy z below => same z ((hf.below_child hy).trans below))
      ts h.2⟩

theorem ShowsRow.keep (hf : Linked f f.children) {ys : List NodeId}
    (same : ∀ y ∈ ys, ∀ z, Below f y z →
      g.content? z = f.content? z ∧ g.children z = f.children z) :
    ∀ ts : List Tree, f.ShowsRow ys ts → g.ShowsRow ys ts
  | [], h => by
    cases ys with
    | nil => trivial
    | cons y ys => simp [ShowsRow] at h
  | t :: ts, h => by
    cases ys with
    | nil => simp [ShowsRow] at h
    | cons y ys =>
      simp only [ShowsRow] at h ⊢
      exact ⟨Shows.keep hf (same y (by simp)) t h.1,
        ShowsRow.keep hf (fun z hz => same z (by simp [hz])) ts h.2⟩
end

end Shows

section Plant

variable {f g h k : Forest} {x y : NodeId} {c d : Content}

/-- What is below a live node is live. -/
theorem Below.live (below : Below f x y) (hx : f.contains x) : f.contains y := by
  obtain ⟨path, hp, mem⟩ := below
  cases hp with
  | root top =>
    obtain rfl := List.mem_singleton.mp mem
    exact hx
  | step up _ => exact contains_of_parent? up

/-- Making a new tree changes nothing that was shown. -/
theorem Grown.keep_row (s : Linked f f.children) (r : Grown f g x c) {ys : List NodeId}
    {ts : List Tree} (live : ∀ z ∈ ys, f.contains z) (shown : f.ShowsRow ys ts) :
    g.ShowsRow ys ts :=
  shown.keep s (fun z hz w below => by
    have same := r.kept (below.live (live z hz))
    exact ⟨same.content?, same.children⟩) ts

/-- Appending a root to a root changes nothing that is shown below either of them. -/
theorem keep_moved (s : Linked h h.children) (m : Moved h k y (some x))
    (linked : Linked k fun q =>
      if q = x then (h.children x).erase y ++ [y] else (h.children q).erase y)
    (top : h.parent? y = none) {z : NodeId} (ne : z ≠ x) :
    k.content? z = h.content? z ∧ k.children z = h.children z := by
  refine ⟨m.content? z, ?_⟩
  rw [linked.children_eq, if_neg ne]
  exact List.erase_of_not_mem fun hy => by simp [s.parent?_iff.mpr hy] at top

mutual
/-- A well-formed tree that is planted is shown by its root. -/
theorem plant_shows {f : Forest} (s : Sound f) :
    ∀ t : Tree, t.WellFormed → (f.plant t).2.Shows (f.plant t).1 t
  | .node c ts, w => by
    simp only [Tree.WellFormed] at w
    obtain ⟨inRange, fits, inside⟩ := w
    have grown := grown_newNode s.linked c
    have row := (s.linked.newNode c).children_eq (f.newNode c).1
    rw [s.linked.fresh_row c] at row
    have none : (f.newNode c).2.ShowsRow ((f.newNode c).2.children (f.newNode c).1) [] := by
      rw [row]
      trivial
    have below := plantBelow_shows (s.newNode inRange) grown none ts inside fits
    have content := (plantBelow_spec (s.newNode inRange) grown ts inside fits).2.2.content
    change Shows ((f.newNode c).2.plantBelow (f.newNode c).1 ts) (f.newNode c).1 (.node c ts)
    rw [Shows]
    exact ⟨content, below⟩

/-- Trees planted below a new root come after those it has. -/
theorem plantBelow_shows {f g : Forest} {x : NodeId} {c : Content} {done : List Tree} (s : Sound g)
    (r : Grown f g x c) (shown : g.ShowsRow (g.children x) done) :
    ∀ ts : List Tree, Tree.WellFormedList ts → (∀ t ∈ ts, c.kind.canContain t.kind) →
      (g.plantBelow x ts).ShowsRow ((g.plantBelow x ts).children x) (done ++ ts)
  | [], _, _ => by
    rw [List.append_nil]
    exact shown
  | t :: ts, w, fits => by
    simp only [Tree.WellFormedList] at w
    obtain ⟨-, sound, grown⟩ := plant_spec s t w.1
    have planted := plant_shows s t w.1
    have may := grown.mayHold s.linked sound.linked r.content (fits t (by simp))
    obtain ⟨k, hk, moved, linked⟩ := sound.linked.appendChild may
    have e : g.plantBelow x (t :: ts) = k.plantBelow x ts := by
      change ((g.plant t).2.place x (g.plant t).1).plantBelow x ts = _
      rw [place, hk]
    -- `x` is a root that is neither below its children nor below the new tree.
    have hx := r.contains_self
    have topx : (g.plant t).2.parent? x = none := (grown.kept hx).parent?.trans r.top
    have apart : ∀ {z w}, z ≠ x → Below (g.plant t).2 z w → w ≠ x := fun ne below e =>
      ne (below.eq_of_top (e ▸ topx) |>.trans e)
    have ne : (g.plant t).1 ≠ x := (grown.ne hx).symm
    have children : (g.plant t).2.children x = g.children x := (grown.kept hx).children
    have old : k.ShowsRow (g.children x) done := by
      refine (grown.keep_row s.linked (fun z hz => (s.linked.live hz).1) shown).keep sound.linked
        (fun z hz w below => ?_) done
      refine keep_moved sound.linked moved linked grown.top (apart (fun e => ?_) below)
      have up := s.linked.parent?_iff.mpr hz
      simp [e, r.top] at up
    have new : k.Shows (g.plant t).1 t := planted.keep sound.linked
      (fun w below => keep_moved sound.linked moved linked grown.top (apart ne below)) t
    have row : k.children x = g.children x ++ [(g.plant t).1] := by
      rw [linked.children_eq, if_pos rfl, children, List.erase_of_not_mem fun hy => ?_]
      have live := (s.linked.live hy).1
      simp [grown.fresh] at live
    rw [e, ← List.singleton_append, ← List.append_assoc]
    refine plantBelow_shows (sound.appendChild hk) (r.append s grown sound moved linked) ?_ ts w.2
      fun t ht => fits t (by simp [ht])
    rw [row]
    exact old.concat new
end

end Plant

end MarkdownForest.Forest
