/-
# MarkdownForest.Proofs.Links -- links that fit together

`Linked f rows` says that the links stored in the records of `f` are those of a
forest in which `rows p` is the row of siblings below `p`.

* `Linked.children_eq`, `Linked.ancestors_eq`: going along the links gives the
  rows and the paths;
* `Rewrites f g change`: `g` is `f` with its records changed in place.
-/
import MarkdownForest.Forest.Edit
import MarkdownForest.Proofs.Outcome
import MarkdownForest.Proofs.Path

namespace MarkdownForest.Forest

set_option autoImplicit false

/-- The links of the records say that the row of siblings below each node `p` is `rows p`. -/
structure Linked (f : Forest) (rows : NodeId → List NodeId) : Prop where
  parent_iff : ∀ {x n}, f.nodes.get? x = some n → ∀ p, n.parent = some p ↔ x ∈ rows p
  live : ∀ {p x}, x ∈ rows p → f.contains x ∧ f.contains p
  nodup : ∀ p, (rows p).Nodup
  ends : ∀ {p n}, f.nodes.get? p = some n →
    n.firstChild = (rows p).head? ∧ n.lastChild = (rows p).getLast?
  sides : ∀ {p x n before after}, rows p = before ++ x :: after → f.nodes.get? x = some n →
    n.previous = before.getLast? ∧ n.next = after.head?
  alone : ∀ {x n}, f.nodes.get? x = some n → n.parent = none →
    n.previous = none ∧ n.next = none
  ownership : ∀ {x n}, f.nodes.get? x = some n → (n.ownership = .root ↔ n.parent = none)
  path : ∀ x, ∃ path, Path f x path

namespace Linked

variable {f : Forest} {rows : NodeId → List NodeId} {x p : NodeId} {n : Node}

theorem parent?_iff (h : Linked f rows) : f.parent? x = some p ↔ x ∈ rows p := by
  constructor
  · intro up
    obtain ⟨n, hn, hp⟩ := Option.bind_eq_some_iff.mp up
    exact (h.parent_iff hn p).mp hp
  · intro hx
    obtain ⟨n, hn⟩ := contains_iff.mp (h.live hx).1
    rw [parent?_of_get? hn]
    exact (h.parent_iff hn p).mpr hx

/-- No node stands in two rows. -/
theorem row_unique {q : NodeId} (h : Linked f rows) (hp : x ∈ rows p) (hq : x ∈ rows q) : p = q :=
  Option.some.inj ((h.parent?_iff.mpr hp).symm.trans (h.parent?_iff.mpr hq))

theorem live_parent (h : Linked f rows) (up : f.parent? x = some p) : f.contains p :=
  (h.live (h.parent?_iff.mp up)).2

theorem live_of_path {path : List NodeId} (h : Linked f rows) (hx : f.contains x)
    (hp : Path f x path) : ∀ y ∈ path, f.contains y := by
  induction hp with
  | root top => simpa using hx
  | step up above ih =>
    intro y hy
    rcases List.mem_cons.mp hy with rfl | hy
    · exact hx
    · exact ih (h.live_parent up) y hy

theorem ancestors_eq {path : List NodeId} (h : Linked f rows) (hx : f.contains x)
    (hp : Path f x path) : f.ancestors x = path := by
  rw [ancestors, if_pos hx]
  exact follow_parent hp (length_le_capacity hp.nodup (h.live_of_path hx hp))

theorem path_ancestors (h : Linked f rows) (hx : f.contains x) : Path f x (f.ancestors x) := by
  obtain ⟨path, hp⟩ := h.path x
  rwa [h.ancestors_eq hx hp]

theorem mem_ancestors {y : NodeId} (h : Linked f rows) (hy : f.contains y) :
    x ∈ f.ancestors y ↔ Below f x y := by
  have path := h.path_ancestors hy
  refine ⟨fun hx => ⟨_, path, hx⟩, fun ⟨_, path', hx⟩ => ?_⟩
  rwa [path.unique path']

/-- Every sibling of a row leads to the one after it. -/
theorem next?_eq (h : Linked f rows) {before after : List NodeId}
    (row : rows p = before ++ x :: after) : f.next? x = after.head? := by
  obtain ⟨n, hn⟩ := contains_iff.mp (h.live (p := p) (x := x) (by simp [row])).1
  rw [next?, hn]
  exact (h.sides row hn).2

theorem children_eq (h : Linked f rows) (p : NodeId) : f.children p = rows p := by
  cases hp : f.nodes.get? p with
  | none =>
    have stale : ∀ x, x ∉ rows p := fun x hx => by
      obtain ⟨n, hn⟩ := contains_iff.mp (h.live hx).2
      simp [hp] at hn
    rw [List.eq_nil_iff_forall_not_mem.mpr stale]
    simp [children, onward, hp]
  | some n =>
    have short := length_le_capacity (h.nodup p) fun x hx => (h.live hx).1
    rw [children, onward, hp, Option.bind_some, (h.ends hp).1]
    exact follow_head? (fun _ _ _ row => h.next?_eq row) short

theorem congr_rows {rows' : NodeId → List NodeId} (h : Linked f rows)
    (same : ∀ p, rows' p = rows p) : Linked f rows' := by
  rwa [funext same]

/-- Rows are what the children are found to be. -/
theorem of_rows (h : Linked f rows) : Linked f f.children :=
  h.congr_rows h.children_eq

/-! ## Roots -/

theorem rootOf_eq (hx : f.contains x) : f.rootOf x = .ok ((f.ancestors x).getLastD x) := by
  obtain ⟨n, hn⟩ := contains_iff.mp hx
  simp [rootOf, node, hn]

theorem rootOf_top (h : Linked f rows) (hx : f.contains x) (top : f.parent? x = none) :
    f.rootOf x = .ok x := by
  rw [rootOf_eq hx, h.ancestors_eq hx (.root top)]
  rfl

/-- A node has the root of its parent. -/
theorem rootOf_parent (h : Linked f rows) (up : f.parent? x = some p) :
    f.rootOf x = f.rootOf p := by
  have hx := contains_of_parent? up
  have hp := h.live_parent up
  obtain ⟨path, above⟩ := h.path p
  rw [rootOf_eq hx, rootOf_eq hp, h.ancestors_eq hx (.step up above), h.ancestors_eq hp above]
  obtain ⟨more, rfl⟩ := above.eq_cons
  simp only [List.getLastD_cons]

/-- The root of a live node is live, has no parent, and stands above the node. -/
theorem rootOf_ok (h : Linked f rows) (hx : f.contains x) :
    ∃ r, f.rootOf x = .ok r ∧ f.contains r ∧ f.parent? r = none ∧ Below f r x := by
  obtain ⟨path, hp⟩ := h.path x
  induction hp with
  | @root x top => exact ⟨x, h.rootOf_top hx top, hx, top, .self (.root top)⟩
  | step up _ ih =>
    obtain ⟨r, hr, live, top, below⟩ := ih (h.live_parent up)
    exact ⟨r, (h.rootOf_parent up).trans hr, live, top, below.of_parent up⟩

theorem rootOf_below {r : NodeId} (h : Linked f rows) (below : Below f r x) :
    f.rootOf x = f.rootOf r := by
  obtain ⟨path, hp, hr⟩ := below
  induction hp with
  | root _ => rw [List.mem_singleton.mp hr]
  | step up _ ih =>
    rcases List.mem_cons.mp hr with rfl | hr
    · rfl
    · rw [h.rootOf_parent up, ih hr]

end Linked

/-! ## Records that change -/

/-- `g` is `f` with the record of every live node changed as told. -/
structure Rewrites (f g : Forest) (change : NodeId → Node → Node) : Prop where
  get? : ∀ x, g.nodes.get? x = (f.nodes.get? x).map (change x)
  live : g.live = f.live
  allocated : g.allocated = f.allocated
  freed : g.freed = f.freed

namespace Rewrites

variable {f g h : Forest} {c d : NodeId → Node → Node}

protected theorem refl (f : Forest) : Rewrites f f fun _ n => n :=
  ⟨fun x => by simp, rfl, rfl, rfl⟩

protected theorem trans (r : Rewrites f g c) (s : Rewrites g h d) :
    Rewrites f h fun x n => d x (c x n) where
  get? x := by
    rw [s.get?, r.get?, Option.map_map]
    rfl
  live := s.live.trans r.live
  allocated := s.allocated.trans r.allocated
  freed := s.freed.trans r.freed

theorem congr (r : Rewrites f g c) (same : ∀ x n, f.nodes.get? x = some n → d x n = c x n) :
    Rewrites f g d where
  get? x := by
    rw [r.get?]
    cases hn : f.nodes.get? x with
    | none => rfl
    | some n => simp [same x n hn]
  live := r.live
  allocated := r.allocated
  freed := r.freed

theorem contains_eq (r : Rewrites f g c) (x : NodeId) : g.contains x = f.contains x := by
  simp [Forest.contains, Arena.contains, r.get?]

/-- A record after the change is that of a record before. -/
theorem eq_some (r : Rewrites f g c) {x : NodeId} {n : Node} (hn : g.nodes.get? x = some n) :
    ∃ m, f.nodes.get? x = some m ∧ n = c x m := by
  rw [r.get?, Option.map_eq_some_iff] at hn
  obtain ⟨m, hm, rfl⟩ := hn
  exact ⟨m, hm, rfl⟩

end Rewrites

theorem update_of_live {f : Forest} {x : NodeId} (hx : f.contains x) (change : Node → Node) :
    ∃ g, f.update x change = .ok g ∧
      Rewrites f g fun y n => if y = x then change n else n := by
  obtain ⟨n, hn⟩ := contains_iff.mp hx
  refine ⟨{ f with nodes := f.nodes.set x (change n) }, by simp [update, hn], ?_⟩
  refine ⟨fun y => ?_, by simp [live], rfl, rfl⟩
  rw [Arena.get?_set hx]
  by_cases hy : y = x
  · simp [hy, hn]
  · simp [hy]

theorem updateAt_of_live {f : Forest} (link : Option NodeId)
    (hl : ∀ x, link = some x → f.contains x) (change : Node → Node) :
    ∃ g, f.updateAt link change = .ok g ∧
      Rewrites f g fun y n => if link = some y then change n else n := by
  cases link with
  | none => exact ⟨f, rfl, by simpa using Rewrites.refl f⟩
  | some x =>
    obtain ⟨g, hg, r⟩ := update_of_live (hl x rfl) change
    exact ⟨g, hg, by simpa [eq_comm] using r⟩

end MarkdownForest.Forest
