/-
# MarkdownForest.Proofs.Path -- the way from a node up to its root

`Path f x path` says that going from parent to parent leads from `x` through
`path` to a node without parent.  There is at most one path, and it meets no
node twice; so a forest in which every node has one has no cycles.

* `Path.suffix_of_mem`: what is above a node on the path is its path;
* `follow_parent`: `Forest.follow` finds the path if it is given enough fuel;
* `Path.congr`: a path stays when no node on it changes its parent;
* `Below`: the order that the paths give, a tree order (`Below.total`).
-/
import Mathlib.Data.List.Perm.Subperm
import MarkdownForest.Forest.Basic

namespace MarkdownForest.Forest

set_option autoImplicit false

/-! ## Following links -/

@[simp] theorem follow_none (step : NodeId → Option NodeId) (fuel : Nat) :
    follow step fuel none = [] := by
  cases fuel <;> rfl

/-- A list in which every step goes to the next element is what is followed from its head. -/
theorem follow_head? {step : NodeId → Option NodeId} {xs : List NodeId}
    (steps : ∀ before x after, xs = before ++ x :: after → step x = after.head?) {fuel : Nat}
    (enough : xs.length ≤ fuel) : follow step fuel xs.head? = xs := by
  induction xs generalizing fuel with
  | nil => simp
  | cons x xs ih =>
    obtain ⟨fuel, rfl⟩ : ∃ k, fuel = k + 1 := ⟨fuel - 1, by simp at enough; omega⟩
    simp only [List.head?_cons, follow, steps [] x xs rfl]
    rw [ih (fun before y after e => steps (x :: before) y after (by simp [e]))
      (by simpa using enough)]

/-! ## Paths -/

/-- Going from parent to parent leads from `x` through `path` to a root. -/
inductive Path (f : Forest) : NodeId → List NodeId → Prop where
  | root {x : NodeId} (top : f.parent? x = none) : Path f x [x]
  | step {x p : NodeId} {path : List NodeId} (up : f.parent? x = some p) (above : Path f p path) :
      Path f x (x :: path)

namespace Path

variable {f g : Forest} {x y p : NodeId} {path more : List NodeId}

theorem eq_cons (h : Path f x path) : ∃ above, path = x :: above := by
  cases h <;> exact ⟨_, rfl⟩

theorem mem_self (h : Path f x path) : x ∈ path := by
  obtain ⟨above, rfl⟩ := h.eq_cons
  exact List.mem_cons_self

theorem unique (h : Path f x path) (k : Path f x more) : path = more := by
  induction h generalizing more with
  | root top =>
    cases k with
    | root _ => rfl
    | step up _ => simp [top] at up
  | step up _ ih =>
    cases k with
    | root top => simp [top] at up
    | step up' above =>
      obtain rfl : _ = _ := Option.some.inj (up.symm.trans up')
      rw [ih above]

/-- The path of a node on a path is the rest of it. -/
theorem suffix_of_mem (h : Path f x path) (hy : y ∈ path) :
    ∃ rest, Path f y rest ∧ rest <:+ path := by
  induction h with
  | root top =>
    obtain rfl := List.mem_singleton.mp hy
    exact ⟨_, .root top, List.suffix_refl _⟩
  | step up above ih =>
    rcases List.mem_cons.mp hy with rfl | hy
    · exact ⟨_, .step up above, List.suffix_refl _⟩
    · obtain ⟨rest, hr, hs⟩ := ih hy
      exact ⟨rest, hr, hs.trans (List.suffix_cons _ _)⟩

theorem tail (h : Path f x path) (up : f.parent? x = some p) :
    ∃ above, path = x :: above ∧ Path f p above := by
  cases h with
  | root top => simp [top] at up
  | step up' above =>
    obtain rfl : _ = _ := Option.some.inj (up.symm.trans up')
    exact ⟨_, rfl, above⟩

/-- No node is above itself. -/
theorem nodup (h : Path f x path) : path.Nodup := by
  induction h with
  | root _ => simp
  | @step x p path up above ih =>
    refine List.nodup_cons.mpr ⟨fun hx => ?_, ih⟩
    obtain ⟨rest, hr, hs⟩ := above.suffix_of_mem hx
    have same := hr.unique (.step up above)
    have short := hs.length_le
    rw [same, List.length_cons] at short
    exact Nat.not_succ_le_self _ short

theorem parent_not_mem (h : Path f p path) (up : f.parent? x = some p) : x ∉ path :=
  (List.nodup_cons.mp (Path.step up h).nodup).1

theorem congr (h : Path f x path) (same : ∀ y ∈ path, g.parent? y = f.parent? y) :
    Path g x path := by
  induction h with
  | @root x top => exact .root ((same x (by simp)).trans top)
  | @step x p path up above ih =>
    exact .step ((same x (by simp)).trans up) (ih fun y hy => same y (by simp [hy]))

end Path

theorem follow_parent {f : Forest} {x : NodeId} {path : List NodeId} (h : Path f x path)
    {fuel : Nat} (enough : path.length ≤ fuel) : follow f.parent? fuel (some x) = path := by
  induction h generalizing fuel with
  | root top =>
    obtain ⟨fuel, rfl⟩ : ∃ k, fuel = k + 1 := ⟨fuel - 1, by simp at enough; omega⟩
    simp [follow, top]
  | step up _ ih =>
    obtain ⟨fuel, rfl⟩ : ∃ k, fuel = k + 1 := ⟨fuel - 1, by simp at enough; omega⟩
    simp only [follow, up]
    rw [ih (by simpa using enough)]

/-! ## At and below a node -/

/-- `y` is `x` or stands below it: its path leads through `x`. -/
def Below (f : Forest) (x y : NodeId) : Prop :=
  ∃ path, Path f y path ∧ x ∈ path

namespace Below

variable {f : Forest} {x y z p : NodeId}

theorem self {path : List NodeId} (h : Path f x path) : Below f x x :=
  ⟨path, h, h.mem_self⟩

theorem trans (hxy : Below f x y) (hyz : Below f y z) : Below f x z := by
  obtain ⟨path, hy, hx⟩ := hxy
  obtain ⟨long, hz, hm⟩ := hyz
  obtain ⟨rest, hr, hs⟩ := hz.suffix_of_mem hm
  obtain rfl := hr.unique hy
  exact ⟨long, hz, hs.mem hx⟩

theorem of_parent (h : Below f x p) (up : f.parent? y = some p) : Below f x y := by
  obtain ⟨path, hp, hx⟩ := h
  exact ⟨y :: path, .step up hp, List.mem_cons_of_mem y hx⟩

theorem congr {g : Forest} (h : Below f x y) (same : ∀ z, g.parent? z = f.parent? z) :
    Below g x y := by
  obtain ⟨path, hy, hx⟩ := h
  exact ⟨path, hy.congr fun z _ => same z, hx⟩

theorem eq_or_parent (h : Below f x y) (up : f.parent? y = some p) : x = y ∨ Below f x p := by
  obtain ⟨path, hy, hx⟩ := h
  obtain ⟨above, rfl, hp⟩ := hy.tail up
  rcases List.mem_cons.mp hx with rfl | hx
  · exact .inl rfl
  · exact .inr ⟨above, hp, hx⟩

theorem eq_of_top (h : Below f x y) (top : f.parent? y = none) : x = y := by
  obtain ⟨path, hy, hx⟩ := h
  obtain rfl := hy.unique (.root top)
  exact List.mem_singleton.mp hx

/-- A node is not below one of its children. -/
theorem not_child (up : f.parent? x = some p) : ¬ Below f x p := fun ⟨_, hp, hx⟩ =>
  hp.parent_not_mem up hx

/-- What is below two nodes puts one of them below the other. -/
theorem total (hx : Below f x z) (hy : Below f y z) : Below f x y ∨ Below f y x := by
  obtain ⟨path, hz, hx⟩ := hx
  obtain ⟨path', hz', hy⟩ := hy
  obtain rfl := hz.unique hz'
  obtain ⟨rx, px, sx⟩ := hz.suffix_of_mem hx
  obtain ⟨ry, py, sy⟩ := hz.suffix_of_mem hy
  rcases Nat.le_total rx.length ry.length with short | short
  · exact .inl ⟨ry, py, (List.suffix_of_suffix_length_le sx sy short).mem px.mem_self⟩
  · exact .inr ⟨rx, px, (List.suffix_of_suffix_length_le sy sx short).mem py.mem_self⟩

/-- Nothing is below two children of one node. -/
theorem siblings (hx : Below f x z) (hy : Below f y z) (upx : f.parent? x = some p)
    (upy : f.parent? y = some p) : x = y := by
  rcases hx.total hy with h | h
  · rcases h.eq_or_parent upy with e | h
    · exact e
    · exact absurd h (not_child upx)
  · rcases h.eq_or_parent upx with e | h
    · exact e.symm
    · exact absurd h (not_child upy)

end Below

/-! ## Live nodes -/

theorem contains_iff {f : Forest} {x : NodeId} :
    f.contains x ↔ ∃ n, f.nodes.get? x = some n :=
  Arena.contains_iff

theorem not_contains_iff {f : Forest} {x : NodeId} :
    ¬ f.contains x ↔ f.nodes.get? x = none := by
  simp [contains, Arena.contains]

/-- No more nodes are live than there are slots. -/
theorem length_le_capacity {f : Forest} {xs : List NodeId} (nodup : xs.Nodup)
    (live : ∀ x ∈ xs, f.contains x) : xs.length ≤ f.nodes.capacity := by
  have sub : xs ⊆ f.nodes.keys := fun x hx => Arena.mem_keys.mpr (live x hx)
  have := (List.subperm_of_subset nodup sub).length_le
  exact Nat.le_trans this (by simpa using f.nodes.size_le_capacity)

theorem parent?_of_get? {f : Forest} {x : NodeId} {n : Node} (h : f.nodes.get? x = some n) :
    f.parent? x = n.parent := by
  simp [parent?, h]

theorem contains_of_parent? {f : Forest} {x p : NodeId} (h : f.parent? x = some p) :
    f.contains x := by
  obtain ⟨n, hn, -⟩ := Option.bind_eq_some_iff.mp h
  exact contains_iff.mpr ⟨n, hn⟩

end MarkdownForest.Forest
