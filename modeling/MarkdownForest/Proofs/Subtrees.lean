/-
# MarkdownForest.Proofs.Subtrees -- what freeing a node frees

Freeing works off a stack, and takes every node off the arena before it looks for
the node's children.  The nodes it takes are those at and below the one it began
with, each once, a node before those below it (`Linked.freedNodes_eq`); none of
the links it follows leads anywhere else.  Unlinking the node first does not
change what is below it (`Linked.branch_unlinked`).

So as many nodes are freed as were counted before, and the others keep their
records, but for the links that led to the node (`Linked.freed`).
-/
import MarkdownForest.Proofs.LinkLoops
import MarkdownForest.Proofs.Walks

namespace MarkdownForest.Forest

set_option autoImplicit false

/-! ## The nodes freed -/

/-- The nodes that releasing a stack frees, in the order in which it frees them. -/
def released (f : Forest) (stack : List NodeId) : List NodeId :=
  match stack with
  | [] => []
  | x :: stack =>
    match _h : f.nodes.get? x with
    | none => f.released stack
    | some n =>
      x :: (f.without x).released (((f.without x).onward n.firstChild).reverse ++ stack)
termination_by (f.nodes.size, stack.length)
decreasing_by
  · exact Prod.Lex.right _ (by simp)
  · have := Arena.size_erase (Arena.contains_iff.mpr ⟨n, _h⟩)
    exact Prod.Lex.left _ _ (by simp only [without]; omega)

/-- The nodes that freeing a node frees. -/
def freedNodes (f : Forest) (x : NodeId) : List NodeId :=
  match f.detach x with
  | .ok g => g.released [x]
  | .error _ => []

section Released

variable {f g : Forest} {rows : NodeId → List NodeId} {x y : NodeId} {n : Node}
  {stack : List NodeId}

@[simp] theorem released_nil (f : Forest) : f.released [] = [] := by
  rw [released]

theorem released_stale (hx : f.nodes.get? x = none) :
    f.released (x :: stack) = f.released stack := by
  rw [released]
  split
  · rfl
  · simp_all

theorem released_live (hx : f.nodes.get? x = some n) :
    f.released (x :: stack) =
      x :: (f.without x).released (((f.without x).onward n.firstChild).reverse ++ stack) := by
  rw [released]
  split
  · simp_all
  · rename_i m hm
    obtain rfl := Option.some.inj (hx.symm.trans hm)
    rfl

/-- What is counted is the nodes freed. -/
theorem length_released (f : Forest) (stack : List NodeId) :
    (f.released stack).length = (f.release stack).1 := by
  induction f, stack using release.induct with
  | case1 f => simp
  | case2 f x stack hx ih => rw [released_stale hx, release_stale hx, ih]
  | case3 f x stack n hx g _ _ _ ih =>
    rw [released_live hx, release_live hx, List.length_cons, ih]

/-- From a stack of nodes not touched yet, their branches are freed, one after the other. -/
theorem Pending.released (h : Linked f rows) (w : Pending f g stack) :
    g.released stack = stack.flatMap fun x => (f.branch x).freeOrder := by
  induction g, stack using release.induct with
  | case1 g => simp
  | case2 g x stack hx ih =>
    obtain ⟨n, hn⟩ := w.top_live h
    cases hx.symm.trans hn
  | case3 g x stack n hx g' _ _ _ ih =>
    have hf : f.nodes.get? x = some n := (w.top h).symm.trans hx
    have children : (g.without x).onward n.firstChild = rows x := w.onward_eq h hf
    have live : f.contains x := w.live x List.mem_cons_self
    rw [children] at ih
    rw [released_live hx, children, ih (w.pop h), List.flatMap_cons, h.branch_eq live,
      Branch.freeOrder, Branch.freeOrderList_eq_flatMap, ← List.map_reverse, List.flatMap_map,
      List.flatMap_append, List.cons_append]

end Released

/-! ## Unlinking a node -/

section Unlinked

variable {f g : Forest} {rows : NodeId → List NodeId} {x y : NodeId} {n : Node}

/-- Unlinking a node leaves below it what is below it. -/
theorem Linked.branch_unlinked (h : Linked f rows) (hg : Linked g fun q => (rows q).erase x)
    (live : ∀ y, g.contains y = f.contains y) (hx : f.contains x) :
    g.branch x = f.branch x := by
  have all : ∀ y, f.contains y → Below f x y → g.branch y = f.branch y := by
    refine h.induction_below fun y hy ih below => ?_
    have apart : x ∉ rows y := fun up => Below.not_child (h.parent?_iff.mpr up) below
    rw [hg.branch_eq ((live y).trans hy), h.branch_eq hy, List.erase_of_not_mem apart]
    exact congrArg _ (List.map_congr_left fun z hz => ih z hz (below.trans (h.below_child hz)))
  exact all x hx (h.below_self x)

/-- The nodes freed are those at and below a node, each once. -/
theorem Linked.freedNodes_eq (h : Linked f rows) (hx : f.contains x) :
    f.freedNodes x = (f.branch x).freeOrder := by
  obtain ⟨g, hg, moved, linked⟩ := h.unlink hx
  have live := moved.contains_eq
  have w := Pending.single ((live x).trans hx)
  rw [freedNodes, show f.detach x = .ok g from hg]
  dsimp only
  rw [w.released linked, List.flatMap_singleton, h.branch_unlinked linked live hx]

theorem Linked.mem_freedNodes (h : Linked f f.children) (hx : f.contains x) :
    y ∈ f.freedNodes x ↔ Below f x y := by
  rw [h.freedNodes_eq hx, (Branch.freeOrder_perm _).mem_iff, h.mem_branch hx]

theorem Linked.nodup_freedNodes (h : Linked f f.children) (hx : f.contains x) :
    (f.freedNodes x).Nodup := by
  rw [h.freedNodes_eq hx, (Branch.freeOrder_perm _).nodup_iff]
  exact h.nodup_branch hx

/-- What counting counts is what freeing frees. -/
theorem Linked.subtreeSize_eq (h : Linked f rows) (hx : f.contains x) :
    f.subtreeSize x = .ok (f.freedNodes x).length := by
  obtain ⟨n, hn⟩ := contains_iff.mp hx
  rw [h.freedNodes_eq hx, (Branch.freeOrder_perm _).length_eq, Branch.length_ids, subtreeSize,
    node_ok.mpr hn, branch?_eq hx]
  rfl

/-- The parts of freeing a node. -/
theorem freeSubtree_ok {count : Nat} (e : f.freeSubtree x = .ok (count, g)) :
    ∃ f', f.detach x = .ok f' ∧ f.freedNodes x = f'.released [x] ∧
      count = (f.freedNodes x).length ∧
      g = { (f'.release [x]).2 with freed := (f'.release [x]).2.freed + count } := by
  obtain ⟨f', hf', e⟩ := bind_eq_ok.mp e
  obtain ⟨rfl, rfl⟩ := Prod.mk.inj (Except.ok.inj e)
  have nodes : f.freedNodes x = f'.released [x] := by
    rw [freedNodes, hf']
  refine ⟨f', hf', nodes, ?_, rfl⟩
  rw [nodes, length_released]

/-- Where freeing fails no node is freed. -/
theorem freedNodes_error {e : ForestError} (failed : f.freeSubtree x = .error e) :
    f.freedNodes x = [] := by
  rcases bind_eq_error.mp failed with failed | ⟨f', -, failed⟩
  · rw [freedNodes, failed]
  · cases failed

/-- Freeing a live node frees the nodes at and below it, and changes the records of the others only
where links led to the node. -/
theorem Linked.freed (h : Linked f f.children) {count : Nat} (hn : f.nodes.get? x = some n)
    (e : f.freeSubtree x = .ok (count, g)) (y : NodeId) :
    g.nodes.get? y =
      if y ∈ f.freedNodes x then none else (f.nodes.get? y).map (detached x n y) := by
  have hx : f.contains x := contains_iff.mpr ⟨n, hn⟩
  obtain ⟨f', count', g', e', unlinked, moved, linked, dropped⟩ := h.freeSubtree hx
  obtain ⟨rfl, rfl⟩ := Prod.mk.inj (Except.ok.inj (e.symm.trans e'))
  obtain ⟨f'', unlinked', rewritten⟩ := detach_rewrites h hn
  obtain rfl : f' = f'' := Except.ok.inj (unlinked.symm.trans unlinked')
  have below : y ∈ f.freedNodes x ↔ Below f' x y := by
    rw [h.freedNodes_eq hx, (Branch.freeOrder_perm _).mem_iff,
      ← h.branch_unlinked linked moved.contains_eq hx,
      linked.of_rows.mem_branch ((moved.contains_eq x).trans hx)]
  split
  · rename_i gone
    exact dropped.gone (below.mp gone)
  · rename_i kept
    rw [dropped.kept fun down => kept (below.mpr down), rewritten.get?]

end Unlinked

end MarkdownForest.Forest
