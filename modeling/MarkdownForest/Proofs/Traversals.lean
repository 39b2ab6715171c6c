/-
# MarkdownForest.Proofs.Traversals -- what a walk meets, node by node

A walk keeps the event to come and finds the next one along the links of the node
it is at, in a forest that goes on outside the node it began at.  All the same it
meets what the recursion over that node alone would: the node is entered, then
come its children in order, and it is left; leaves are only entered, and of a node
that is skipped nothing but entering and leaving it.

* `Linked.traversal_branch`: that recursion, on the children that links lead to;
* `mem_traversal`: no event is about a node elsewhere;
* `Sound.entered_traversal`: a walk that skips nothing enters every node once.

`run_walk` puts them together for every forest that requests lead to.
-/
import MarkdownForest.Proofs.Requests
import MarkdownForest.Proofs.Walks

namespace MarkdownForest

set_option autoImplicit false

/-- The node that an event enters. -/
def WalkEvent.entered? : WalkEvent → Option NodeId
  | .enter x => some x
  | .exit _ => none

/-- The nodes that events enter, in order. -/
def entered (es : List WalkEvent) : List NodeId :=
  es.filterMap WalkEvent.entered?

/-- All that a walk along links meets, if it skips from every node of `skip` to leaving it. -/
def LinkWalk.events (f : Forest) (skip : NodeId → Bool) (x : NodeId) : Looping (List WalkEvent) :=
  loop f (fun met e => pure (met ++ [e], e.skips skip)) (start f x) []

namespace Forest

open Walk (traversal)

section Traversals

variable {f : Forest} {skip : NodeId → Bool} {x : NodeId}

/-- A traversal stays at and below its node. -/
theorem mem_traversal (h : Linked f f.children) (hx : f.contains x) :
    ∀ e ∈ traversal f skip (f.branch x), Below f x e.node := by
  refine h.induction_below
    (motive := fun x => ∀ e ∈ traversal f skip (f.branch x), Below f x e.node)
    (fun x hx ih e he => ?_) x hx
  rw [h.traversal_branch skip hx] at he
  have self := h.below_self x
  split at he
  · rcases List.mem_pair.mp he with rfl | rfl <;> exact self
  split at he
  · obtain rfl := List.mem_singleton.mp he
    exact self
  · rcases List.mem_append.mp he with he | he
    · rcases List.mem_cons.mp he with rfl | he
      · exact self
      · obtain ⟨y, hy, he⟩ := List.mem_flatMap.mp he
        exact (h.below_child hy).trans (ih y hy e he)
    · obtain rfl := List.mem_singleton.mp he
      exact self

/-- A leaf has no children. -/
theorem Sound.children_leaf (s : Sound f) (hx : f.contains x)
    (leaf : (f.contentAt x).kind.isLeaf) : f.children x = [] := by
  obtain ⟨n, hn⟩ := contains_iff.mp hx
  rw [contentAt_eq hn] at leaf
  have first := (s.coherent.leaf hn leaf).1
  rw [(s.linked.ends hn).1] at first
  exact List.head?_eq_none_iff.mp first

/-- A traversal that skips nothing enters the nodes of the branch, each before those below it. -/
theorem Sound.entered_traversal (s : Sound f) (all : ∀ y, skip y = false) (hx : f.contains x) :
    entered (traversal f skip (f.branch x)) = (f.branch x).ids := by
  refine s.linked.induction_below
    (motive := fun x => entered (traversal f skip (f.branch x)) = (f.branch x).ids)
    (fun x hx ih => ?_) x hx
  rw [s.linked.traversal_branch skip hx, if_neg (by simp [all]), s.linked.branch_eq hx, Branch.ids,
    Branch.idsList_eq_flatMap, List.flatMap_map]
  split
  · rename_i leaf
    rw [s.children_leaf hx leaf]
    rfl
  · have below : entered ((f.children x).flatMap fun y => traversal f skip (f.branch y)) =
        (f.children x).flatMap fun y => (f.branch y).ids := by
      rw [entered, List.filterMap_flatMap]
      exact List.flatMap_congr fun y hy => ih y hy
    rw [← below, entered, List.filterMap_append, List.filterMap_cons]
    simp [entered, WalkEvent.entered?]

/-- Going along the links from event to event comes to an end, and meets the traversal. -/
theorem Linked.linkEvents_eq (h : Linked f f.children) (skip : NodeId → Bool)
    (hx : f.contains x) :
    LinkWalk.events f skip x = pure (traversal f skip (f.branch x)) := by
  have gathered : LinkWalk.events f skip x =
      pure ((f.walk skip x).foldl (fun met e => met ++ [e]) []) :=
    h.loop_eq hx (fun _ _ _ => rfl) []
  rw [gathered, h.walk_eq hx, List.foldl_append_eq_append, ← List.flatMap_def,
    List.flatMap_singleton', List.nil_append]

end Traversals

/-- After any requests, the walk over a live node that skips from any set of nodes to leaving them
comes to an end along the links, and meets what the recursion over the node and its children does.
No event is about a node that is not at or below the one the walk began at; and if nothing is
skipped, the nodes entered are those, each once, as many as are counted. -/
theorem run_walk (rs : List Request) (skip : NodeId → Bool) :
    let f := run rs
    ∃ W : NodeId → List WalkEvent,
      (∀ x, f.contains x → W x =
        if skip x then [.enter x, .exit x]
        else if (f.contentAt x).kind.isLeaf then [.enter x]
        else .enter x :: (f.children x).flatMap W ++ [.exit x]) ∧
      ∀ x, f.contains x →
        LinkWalk.events f skip x = pure (W x) ∧ f.walk skip x = W x ∧
        (∀ e ∈ W x, Below f x e.node) ∧
        ((∀ y, skip y = false) →
          (entered (W x)).Nodup ∧ (∀ y, y ∈ entered (W x) ↔ Below f x y) ∧
            f.subtreeSize x = .ok (entered (W x)).length) := by
  intro f
  have s : Sound f := sound_run rs
  have h := s.linked
  refine ⟨fun x => traversal f skip (f.branch x), fun x hx => h.traversal_branch skip hx, ?_⟩
  intro x hx
  refine ⟨h.linkEvents_eq skip hx, h.walk_eq hx skip, mem_traversal h hx, fun all => ?_⟩
  obtain ⟨n, hn⟩ := contains_iff.mp hx
  rw [s.entered_traversal all hx]
  refine ⟨h.nodup_branch hx, fun y => h.mem_branch hx, ?_⟩
  rw [subtreeSize, node_ok.mpr hn, branch?_eq hx, Branch.length_ids]
  rfl

end Forest

end MarkdownForest
