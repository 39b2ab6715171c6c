/-
# MarkdownForest.Proofs.Branches -- what is below a node

A branch is found by going down the children, with a bound on the depth that is
never reached: paths meet no node twice.  So the bound can be forgotten, and the
branch of a node is the node with the branches of its children
(`Linked.branch_eq`), and in the same way for the tree that it shows
(`Linked.treeAt_eq`).  What holds of a node when it holds of its children holds of
every node (`Linked.induction_below`).
-/
import MarkdownForest.Forest.Observe
import MarkdownForest.Proofs.Edits

namespace MarkdownForest

set_option autoImplicit false

theorem Branch.mem_idsList {x : NodeId} {bs : List Branch} :
    x ∈ idsList bs ↔ ∃ b ∈ bs, x ∈ b.ids := by
  induction bs with
  | nil => simp [idsList]
  | cons b bs ih => simp [idsList, ih]

namespace Forest

/-- A node with those below it, all the way down. -/
def branch (f : Forest) (x : NodeId) : Branch :=
  f.branchAt f.nodes.capacity x

/-- The tree that a node shows. -/
def treeAt (f : Forest) (x : NodeId) : Tree :=
  f.treeOf (f.branch x)

section Observe

variable {f : Forest} {x : NodeId} {t : Tree}

theorem branch?_eq (hx : f.contains x) : f.branch? x = some (f.branch x) :=
  if_pos hx

theorem tree?_eq (hx : f.contains x) : f.tree? x = some (f.treeAt x) := by
  rw [tree?, branch?_eq hx]
  rfl

theorem snapshot_ok : f.snapshot x = .ok t ↔ f.contains x ∧ f.treeAt x = t := by
  by_cases hx : f.contains x
  · simp [snapshot, tree?_eq hx, hx]
  · simp [snapshot, tree?, branch?, hx]

theorem contentAt_eq {n : Node} (hn : f.nodes.get? x = some n) : f.contentAt x = n.content := by
  simp [contentAt, hn]

/-! What is stored for a live node. -/

theorem content_eq (hx : f.contains x) : f.content x = .ok (f.contentAt x) := by
  obtain ⟨n, hn⟩ := contains_iff.mp hx
  rw [content, node_ok.mpr hn, contentAt_eq hn]
  rfl

theorem parent_eq (hx : f.contains x) : f.parent x = .ok (f.parent? x) := by
  obtain ⟨n, hn⟩ := contains_iff.mp hx
  rw [parent, node_ok.mpr hn, parent?_of_get? hn]
  rfl

theorem next_eq (hx : f.contains x) : f.next x = .ok (f.next? x) := by
  obtain ⟨n, hn⟩ := contains_iff.mp hx
  rw [next, node_ok.mpr hn, next?, hn]
  rfl

theorem kind_eq (hx : f.contains x) : f.kind x = .ok (f.contentAt x).kind := by
  rw [kind, content_eq hx]
  rfl

theorem content?_eq (hx : f.contains x) : f.content? x = some (f.contentAt x) := by
  obtain ⟨n, hn⟩ := contains_iff.mp hx
  rw [content?, contentAt_eq hn, hn, Option.map_some]

theorem treesOf_eq_map (f : Forest) (bs : List Branch) : f.treesOf bs = bs.map f.treeOf := by
  induction bs with
  | nil => rfl
  | cons b bs ih => rw [treesOf, ih, List.map_cons]

mutual
theorem size_treeOf (f : Forest) : ∀ b : Branch, (f.treeOf b).size = b.size
  | .node x bs => by rw [treeOf, Tree.size, Branch.size, size_treesOf f bs]

theorem size_treesOf (f : Forest) :
    ∀ bs : List Branch, Tree.sizeList (f.treesOf bs) = Branch.sizeList bs
  | [] => rfl
  | b :: bs => by rw [treesOf, Tree.sizeList, Branch.sizeList, size_treeOf f b, size_treesOf f bs]
end

end Observe

namespace Linked

variable {f : Forest} {rows : NodeId → List NodeId} {x y : NodeId} {fuel : Nat}

theorem length_ancestors_le (h : Linked f rows) (hx : f.contains x) :
    (f.ancestors x).length ≤ f.nodes.capacity :=
  have path := h.path_ancestors hx
  length_le_capacity path.nodup (h.live_of_path hx path)

theorem length_ancestors_child (h : Linked f rows) (hx : f.contains x) (hy : y ∈ rows x) :
    (f.ancestors y).length = (f.ancestors x).length + 1 := by
  rw [h.ancestors_eq (h.live hy).1 (.step (h.parent?_iff.mpr hy) (h.path_ancestors hx)),
    List.length_cons]

/-- What holds of a live node as soon as it holds of its children holds of every live node. -/
theorem induction_below {motive : NodeId → Prop} (h : Linked f rows)
    (step : ∀ x, f.contains x → (∀ y ∈ rows x, motive y) → motive x) :
    ∀ x, f.contains x → motive x := by
  intro x hx
  induction room : f.nodes.capacity - (f.ancestors x).length generalizing x with
  | zero =>
    refine step x hx fun y hy => ?_
    have deeper := h.length_ancestors_child hx hy
    have := h.length_ancestors_le (h.live hy).1
    omega
  | succ n ih =>
    refine step x hx fun y hy => ih y (h.live hy).1 ?_
    have deeper := h.length_ancestors_child hx hy
    omega

/-- What is found below a live node is live. -/
theorem live_branchAt (h : Linked f rows) (hx : f.contains x)
    (hy : y ∈ (f.branchAt fuel x).ids) : f.contains y := by
  induction fuel generalizing x with
  | zero =>
    obtain rfl : y = x := by simpa [branchAt, Branch.ids, Branch.idsList] using hy
    exact hx
  | succ fuel ih =>
    rw [branchAt, Branch.ids, List.mem_cons, Branch.mem_idsList] at hy
    rcases hy with rfl | ⟨b, hb, hy⟩
    · exact hx
    · obtain ⟨z, hz, rfl⟩ := List.mem_map.mp hb
      exact ih (h.live (h.children_eq x ▸ hz)).1 hy

/-- A bound that is enough for the depth of a node does not show. -/
theorem branchAt_congr (h : Linked f rows) {fuel' : Nat} (hx : f.contains x)
    (enough : f.nodes.capacity < (f.ancestors x).length + fuel)
    (enough' : f.nodes.capacity < (f.ancestors x).length + fuel') :
    f.branchAt fuel x = f.branchAt fuel' x := by
  induction fuel generalizing fuel' x with
  | zero =>
    have := h.length_ancestors_le hx
    omega
  | succ fuel ih =>
    have := h.length_ancestors_le hx
    obtain ⟨fuel', rfl⟩ : ∃ k, fuel' = k + 1 := ⟨fuel' - 1, by omega⟩
    rw [branchAt, branchAt]
    congr 1
    refine List.map_congr_left fun y hy => ?_
    rw [h.children_eq] at hy
    have deeper := h.length_ancestors_child hx hy
    exact ih (h.live hy).1 (by omega) (by omega)

theorem branch_eq (h : Linked f rows) (hx : f.contains x) :
    f.branch x = .node x ((rows x).map f.branch) := by
  obtain ⟨above, path⟩ := (h.path_ancestors hx).eq_cons
  have deep : 0 < (f.ancestors x).length := by simp [path]
  have := h.length_ancestors_le hx
  obtain ⟨n, hn⟩ : ∃ n, f.nodes.capacity = n + 1 := ⟨f.nodes.capacity - 1, by omega⟩
  rw [branch, hn, branchAt, h.children_eq]
  congr 1
  refine List.map_congr_left fun y hy => ?_
  have deeper := h.length_ancestors_child hx hy
  exact h.branchAt_congr (h.live hy).1 (by omega) (by omega)

theorem treeAt_eq (h : Linked f rows) (hx : f.contains x) :
    f.treeAt x = .node (f.contentAt x).visible ((rows x).map f.treeAt) := by
  rw [treeAt, h.branch_eq hx, treeOf, treesOf_eq_map, List.map_map]
  rfl

end Linked

end Forest

end MarkdownForest
