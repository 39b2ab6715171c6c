/-
# MarkdownForest.Proofs.Walks -- walks are traversals

A walk enters a node, walks over its children, and leaves it; it skips what is
below a node when told to right after entering it (`Walk.traversal`).

* `Linked.walk_eq`: what a walk meets is the traversal;
* `Linked.traversal_branch`: the traversal of a node from those of its children;
* `LinkWalk` is a walk that keeps nothing but the event to come and finds the one
  after it from the links of the node it is at.  Its loop (`LinkWalk.loop`) may run
  on for ever; in a forest whose links fit together it ends and goes through what
  the walk meets (`Linked.loop_eq`).

A walk and its counterpart along links are in step (`InStep`) when the link that
leads on from each node still to do leads to the next one.
-/
import MarkdownForest.Proofs.Freeing
import MarkdownForest.Proofs.Renaming
import MarkdownForest.Proofs.Rounds

namespace MarkdownForest

set_option autoImplicit false

/-! ## Nodes of a branch -/

theorem Branch.idsList_eq_flatMap (bs : List Branch) : idsList bs = bs.flatMap ids := by
  induction bs with
  | nil => rfl
  | cons b bs ih => rw [idsList, ih, List.flatMap_cons]

namespace Forest.Linked

variable {f : Forest} {x y : NodeId}

/-- A branch has the nodes at and below its root. -/
theorem mem_branch (h : Linked f f.children) (hx : f.contains x) :
    y ∈ (f.branch x).ids ↔ Below f x y := by
  revert y
  refine h.induction_below (motive := fun x => ∀ {y}, y ∈ (f.branch x).ids ↔ Below f x y)
    (fun x hx ih => ?_) x hx
  intro y
  rw [h.branch_eq hx, Branch.ids, List.mem_cons, Branch.idsList_eq_flatMap, List.flatMap_map,
    List.mem_flatMap, h.below_iff]
  exact or_congr Iff.rfl (exists_congr fun z => and_congr_right fun hz => ih z hz)

theorem nodup_branch (h : Linked f f.children) (hx : f.contains x) : (f.branch x).ids.Nodup := by
  refine h.induction_below (motive := fun x => (f.branch x).ids.Nodup) (fun x hx ih => ?_) x hx
  rw [h.branch_eq hx, Branch.ids, Branch.idsList_eq_flatMap, List.flatMap_map, List.nodup_cons,
    List.nodup_flatMap]
  refine ⟨fun hy => ?_, ih, ?_⟩
  · obtain ⟨y, hy, below⟩ := List.mem_flatMap.mp hy
    exact Below.not_child (h.parent?_iff.mpr hy) ((h.mem_branch (h.live hy).1).mp below)
  · refine (h.nodup x).imp_of_mem fun {y z} hy hz apart => ?_
    intro w hw hw'
    exact apart (((h.mem_branch (h.live hy).1).mp hw).siblings
      ((h.mem_branch (h.live hz).1).mp hw') (h.parent?_iff.mpr hy) (h.parent?_iff.mpr hz))

end Forest.Linked

/-! ## Traversals -/

namespace Walk

mutual
/-- The events of a walk over a branch that skips from the nodes of `skip` to leaving them. -/
def traversal (f : Forest) (skip : NodeId → Bool) : Branch → List WalkEvent
  | .node x bs =>
    if skip x then [.enter x, .exit x]
    else if isLeaf f x then [.enter x]
    else .enter x :: traversals f skip bs ++ [.exit x]

def traversals (f : Forest) (skip : NodeId → Bool) : List Branch → List WalkEvent
  | [] => []
  | b :: bs => traversal f skip b ++ traversals f skip bs
end

theorem traversals_eq_flatMap (f : Forest) (skip : NodeId → Bool) (bs : List Branch) :
    traversals f skip bs = bs.flatMap (traversal f skip) := by
  induction bs with
  | nil => rfl
  | cons b bs ih => rw [traversals, ih, List.flatMap_cons]

theorem isLeaf_eq {f : Forest} {x : NodeId} (hx : f.contains x) :
    isLeaf f x = (f.contentAt x).kind.isLeaf := by
  obtain ⟨n, hn⟩ := Forest.contains_iff.mp hx
  rw [isLeaf, hn, Forest.contentAt_eq hn]

section Events

variable {f : Forest} {skip : NodeId → Bool} {x : NodeId} {rest : List WalkStep}

/-- A node that is nowhere left before the first visit and the end. -/
def Unleft (x : NodeId) (todo : List WalkStep) : Prop :=
  ∀ s ∈ todo, isLeaving x s = false

theorem events_none {w : Walk} (h : w.next? f = none) : events f skip w = [] := by
  rw [events]
  split <;> rename_i h' <;> cases h.symm.trans h'
  rfl

theorem events_exit {w v : Walk} (h : w.next? f = some (.exit x, v)) :
    events f skip w = .exit x :: events f skip v := by
  rw [events]
  split <;> rename_i h' <;> cases h.symm.trans h'
  rfl

theorem events_enter {w v : Walk} (h : w.next? f = some (.enter x, v)) :
    events f skip w = .enter x :: events f skip (if skip x then v.skipToExit x else v) := by
  rw [events]
  split <;> rename_i h' <;> cases h.symm.trans h'
  rfl

theorem events_nil : events f skip ⟨[]⟩ = [] :=
  events_none rfl

theorem events_leave : events f skip ⟨.leave x :: rest⟩ = .exit x :: events f skip ⟨rest⟩ :=
  events_exit rfl

theorem skipToExit_leaf (apart : Unleft x rest) : skipToExit x ⟨rest⟩ = ⟨.leave x :: rest⟩ := by
  have none : rest.any (isLeaving x) = false := List.any_eq_false.mpr fun s hs => by
    simp [apart s hs]
  simp [skipToExit, none]

theorem skipToExit_visits (bs : List Branch) :
    skipToExit x ⟨bs.map .visit ++ .leave x :: rest⟩ = ⟨.leave x :: rest⟩ := by
  have passed : ∀ s ∈ bs.map WalkStep.visit, (!isLeaving x s) = true := by
    simp [isLeaving]
  rw [skipToExit, if_pos (by simp [isLeaving]), List.dropWhile_append_of_pos passed]
  simp [isLeaving]

mutual
theorem events_visit : ∀ (b : Branch) (rest : List WalkStep), b.ids.Nodup →
    (∀ x ∈ b.ids, Unleft x rest) →
      events f skip ⟨.visit b :: rest⟩ = traversal f skip b ++ events f skip ⟨rest⟩
  | .node x bs, rest, nodup, apart => by
    rw [Branch.ids, List.nodup_cons] at nodup
    have here : Unleft x rest := apart x (by simp [Branch.ids])
    have below := events_visits bs (.leave x :: rest) nodup.2 fun y hy s hs => by
      rcases List.mem_cons.mp hs with rfl | hs
      · have ne : x ≠ y := fun e => nodup.1 (e ▸ hy)
        simpa [isLeaving] using ne
      · exact apart y (by simp [Branch.ids, hy]) s hs
    rw [traversal]
    by_cases leaf : isLeaf f x
    · have next : next? f ⟨.visit (.node x bs) :: rest⟩ = some (.enter x, ⟨rest⟩) := by
        simp [next?, leaf]
      rw [events_enter next, if_pos leaf]
      split
      · rw [skipToExit_leaf here, events_leave]
        rfl
      · rfl
    · have next : next? f ⟨.visit (.node x bs) :: rest⟩ =
          some (.enter x, ⟨bs.map .visit ++ .leave x :: rest⟩) := by
        simp [next?, leaf]
      rw [events_enter next, if_neg leaf]
      split
      · rw [skipToExit_visits, events_leave]
        rfl
      · rw [below, events_leave]
        simp

theorem events_visits : ∀ (bs : List Branch) (rest : List WalkStep), (Branch.idsList bs).Nodup →
    (∀ x ∈ Branch.idsList bs, Unleft x rest) →
      events f skip ⟨bs.map .visit ++ rest⟩ = traversals f skip bs ++ events f skip ⟨rest⟩
  | [], rest, _, _ => rfl
  | b :: bs, rest, nodup, apart => by
    rw [Branch.idsList, List.nodup_append] at nodup
    rw [List.map_cons, List.cons_append, events_visit b _ nodup.1, traversals, List.append_assoc,
      events_visits bs rest nodup.2.1 fun y hy => apart y (by simp [Branch.idsList, hy])]
    intro y hy s hs
    rcases List.mem_append.mp hs with hs | hs
    · obtain ⟨c, -, rfl⟩ := List.mem_map.mp hs
      rfl
    · exact apart y (by simp [Branch.idsList, hy]) s hs
end

end Events

end Walk

namespace Forest.Linked

variable {f : Forest} {x : NodeId}

/-- The traversal of a node from those of its children. -/
theorem traversal_branch (h : Linked f f.children) (skip : NodeId → Bool) (hx : f.contains x) :
    Walk.traversal f skip (f.branch x) =
      if skip x then [.enter x, .exit x]
      else if (f.contentAt x).kind.isLeaf then [.enter x]
      else .enter x :: (f.children x).flatMap (fun y => Walk.traversal f skip (f.branch y)) ++
        [.exit x] := by
  rw [h.branch_eq hx, Walk.traversal, Walk.traversals_eq_flatMap, List.flatMap_map,
    Walk.isLeaf_eq hx]

/-- What a walk over a live node meets is the traversal of the branch below it. -/
theorem walk_eq (h : Linked f f.children) (hx : f.contains x) (skip : NodeId → Bool) :
    f.walk skip x = Walk.traversal f skip (f.branch x) := by
  rw [Forest.walk, Walk.start, Forest.branch?_eq hx]
  dsimp only
  rw [Walk.events_visit _ _ (h.nodup_branch hx) (by simp [Walk.Unleft]), Walk.events_nil,
    List.append_nil]

end Forest.Linked

/-! ## Walks along links -/

/-- A computation that may fail, or go on for ever. -/
abbrev Looping (α : Type) : Type := ExceptT ForestError Part α

/-- A computation that comes to an end. -/
def Looping.done {α : Type} (r : Except ForestError α) : Looping α :=
  ExceptT.mk (.some r)

theorem Looping.done_ok {α : Type} (a : α) : done (.ok a) = pure a :=
  rfl

/-- A walk that knows the node it began at and the event to come. -/
structure LinkWalk where
  root : NodeId
  pending : Option WalkEvent

namespace LinkWalk

def start (f : Forest) (x : NodeId) : LinkWalk :=
  ⟨x, if f.contains x then some (.enter x) else none⟩

/-- Skips to leaving a node. -/
def skipToExit (x : NodeId) (w : LinkWalk) : LinkWalk :=
  { w with pending := some (.exit x) }

/-- The event after a node is done with: the next sibling is entered, or the parent left. -/
def afterNode (f : Forest) (root x : NodeId) : Option WalkEvent :=
  if x = root then none
  else
    match f.nodes.get? x with
    | none => none
    | some n =>
      match n.next, n.parent with
      | some y, _ => some (.enter y)
      | none, some p => some (.exit p)
      | none, none => none

/-- The event after another one. -/
def following (f : Forest) (root : NodeId) : WalkEvent → Option WalkEvent
  | .enter x =>
    if Walk.isLeaf f x then afterNode f root x
    else
      match (f.nodes.get? x).bind (·.firstChild) with
      | some y => some (.enter y)
      | none => some (.exit x)
  | .exit x => afterNode f root x

def next? (f : Forest) (w : LinkWalk) : Option (WalkEvent × LinkWalk) :=
  w.pending.map fun e => (e, { w with pending := following f w.root e })

section Loop

variable {σ : Type} (f : Forest) (body : σ → WalkEvent → Looping (σ × Bool))

/-- One round of a loop: the result if the walk is over or the body fails, else where the next round
begins. -/
def round (here : LinkWalk × σ) : Part (Except ForestError σ ⊕ LinkWalk × σ) :=
  match here.1.next? f with
  | none => .some (.inl (.ok here.2))
  | some (e, v) => (body here.2 e).run.map fun
    | .error ε => .inl (.error ε)
    | .ok (s, skip) => .inr (if skip then v.skipToExit e.node else v, s)

/-- Does something at every event of a walk, from a state to a state; what is done tells whether to
skip to leaving the node. -/
def loop (w : LinkWalk) (s : σ) : Looping σ :=
  ExceptT.mk (PFun.fix (round f body) (w, s))

end Loop

end LinkWalk

/-! ## Walks in step -/

namespace WalkStep

def node : WalkStep → NodeId
  | visit b => b.id
  | leave x => x

/-- All that is below the node is to be visited. -/
def Whole (f : Forest) : WalkStep → Prop
  | visit b => b = f.branch b.id
  | leave _ => True

end WalkStep

/-- The event at which a walk with this to do goes on. -/
def upcoming : List WalkStep → Option WalkEvent
  | [] => none
  | .visit b :: _ => some (.enter b.id)
  | .leave x :: _ => some (.exit x)

/-- What is still to do is at or below the root, and links lead from each node to the next. -/
def InStep (f : Forest) (root : NodeId) : List WalkStep → Prop
  | [] => True
  | s :: rest =>
    f.contains s.node ∧ Forest.Below f root s.node ∧ s.Whole f ∧
      LinkWalk.afterNode f root s.node = upcoming rest ∧ InStep f root rest

section InStep

open Forest LinkWalk

variable {f : Forest} {root x y : NodeId} {s : WalkStep} {rest : List WalkStep} {e : WalkEvent}

/-- Where the links lead on from a node to its next sibling or its parent. -/
theorem afterNode_eq_some (h : afterNode f root x = some e) : ∃ n, f.nodes.get? x = some n ∧
    ((∃ y, n.next = some y ∧ e = .enter y) ∨ (∃ p, n.parent = some p ∧ e = .exit p)) := by
  unfold afterNode at h
  split at h
  · cases h
  split at h
  · cases h
  · rename_i n hn
    refine ⟨n, hn, ?_⟩
    split at h
    · rename_i y next
      cases h
      exact .inl ⟨y, next, rfl⟩
    · rename_i p _ up
      cases h
      exact .inr ⟨p, up, rfl⟩
    · cases h

/-- The nodes to be left later are above the parent of the one that comes first. -/
theorem InStep.above (h : Linked f f.children) {p : NodeId} (st : InStep f root (s :: rest))
    (hp : .leave p ∈ rest) : ∃ q, f.parent? s.node = some q ∧ Below f p q := by
  induction rest generalizing s with
  | nil => simp at hp
  | cons t rest ih =>
    obtain ⟨-, -, -, next, later⟩ := st
    cases t with
    | visit b =>
      obtain ⟨n, hn, ⟨y, link, e⟩ | ⟨q, -, e⟩⟩ := afterNode_eq_some next
      · cases e
        obtain ⟨q, up, below⟩ := ih later (by simpa using hp)
        obtain ⟨q', up', hy⟩ := h.neighbour hn (.inr link)
        have same : f.parent? b.id = some q' := h.parent?_iff.mpr hy
        cases up.symm.trans same
        exact ⟨q, (parent?_of_get? hn).trans up', below⟩
      · cases e
    | leave x =>
      obtain ⟨n, hn, ⟨y, -, e⟩ | ⟨q, up, e⟩⟩ := afterNode_eq_some next
      · cases e
      · cases e
        refine ⟨x, (parent?_of_get? hn).trans up, ?_⟩
        rcases List.mem_cons.mp hp with e | hp
        · cases e
          exact h.below_self _
        · obtain ⟨q, up, below⟩ := ih later hp
          exact below.of_parent up

/-- The node that comes first is not left later. -/
theorem InStep.unleft (h : Linked f f.children) (st : InStep f root (s :: rest)) :
    Walk.Unleft s.node rest := by
  intro t ht
  cases t with
  | visit b => rfl
  | leave p =>
    obtain ⟨q, up, below⟩ := st.above h ht
    have ne : p ≠ s.node := fun e => Below.not_child up (e ▸ below)
    simpa [Walk.isLeaving] using ne

/-- From a child the links lead to the next one, and from the last one back to the parent. -/
theorem afterNode_child (h : Linked f f.children) (ne : y ≠ root) {before more : List NodeId}
    (row : f.children x = before ++ y :: more) :
    afterNode f root y =
      upcoming (more.map (fun z => .visit (f.branch z)) ++ .leave x :: rest) := by
  have hy : y ∈ f.children x := by simp [row]
  obtain ⟨n, hn⟩ := contains_iff.mp (h.live hy).1
  have up := (h.parent_iff hn x).mpr hy
  have next := (h.sides row hn).2
  rw [afterNode, if_neg ne, hn]
  dsimp only
  rw [up, next]
  cases more with
  | nil => rfl
  | cons z more =>
    have hz : f.contains z := (h.live (p := x) (by simp [row])).1
    simp [upcoming, h.branch_eq hz, Branch.id]

/-- The children of a node in step, and then leaving it. -/
theorem inStep_children (h : Linked f f.children) (hx : f.contains x) (below : Below f root x)
    (next : afterNode f root x = upcoming rest) (later : InStep f root rest)
    (before : List NodeId) {more : List NodeId} (row : f.children x = before ++ more) :
    InStep f root (more.map (fun z => .visit (f.branch z)) ++ .leave x :: rest) := by
  induction more generalizing before with
  | nil => exact ⟨hx, below, trivial, next, later⟩
  | cons y more ih =>
    have hy : y ∈ f.children x := by simp [row]
    have live := (h.live hy).1
    have up := h.parent?_iff.mpr hy
    have ne : y ≠ root := fun e => Below.not_child up (e ▸ below)
    have id : (f.branch y).id = y := by rw [h.branch_eq live, Branch.id]
    refine ⟨?_, ?_, ?_, ?_, ih (before ++ [y]) (by simp [row])⟩
    · rwa [WalkStep.node, id]
    · rw [WalkStep.node, id]
      exact below.of_parent up
    · rw [WalkStep.Whole, id]
    · rw [WalkStep.node, id]
      exact afterNode_child h ne row

/-- What comes after entering a node that has children to visit. -/
theorem following_enter (h : Linked f f.children) (hx : f.contains x)
    (inner : ¬ Walk.isLeaf f x) :
    following f root (.enter x) =
      upcoming ((f.children x).map (fun z => .visit (f.branch z)) ++ .leave x :: rest) := by
  obtain ⟨n, hn⟩ := contains_iff.mp hx
  rw [following, if_neg inner, hn, Option.bind_some, (h.ends hn).1]
  cases row : f.children x with
  | nil => rfl
  | cons y more =>
    have hy : f.contains y := (h.live (p := x) (by simp [row])).1
    simp [upcoming, h.branch_eq hy, Branch.id]

/-- One step of a walk in step: its counterpart along links meets the same node, which is live,
and both stay in step. -/
theorem InStep.next {todo : List WalkStep} {v : Walk} (h : Linked f f.children)
    (st : InStep f root todo) (step : Walk.next? f ⟨todo⟩ = some (e, v)) :
    following f root e = upcoming v.todo ∧ upcoming todo = some e ∧ f.contains e.node ∧
      InStep f root v.todo := by
  rcases todo with _ | ⟨⟨⟨x, bs⟩⟩ | x, rest⟩
  · cases step
  · obtain ⟨hx, below, whole, next, later⟩ := st
    change f.contains x at hx
    change Below f root x at below
    change afterNode f root x = upcoming rest at next
    have branch : Branch.node x bs = .node x ((f.children x).map f.branch) :=
      Eq.trans whole (h.branch_eq hx)
    obtain ⟨-, rfl⟩ := Branch.node.inj branch
    rw [Walk.next?] at step
    split at step
    · rename_i leaf
      cases step
      refine ⟨?_, rfl, hx, later⟩
      rw [following, if_pos leaf, next]
    · rename_i inner
      cases step
      rw [List.map_map]
      exact ⟨following_enter h hx inner, rfl, hx,
        inStep_children h hx below next later [] rfl⟩
  · obtain ⟨hx, -, -, next, later⟩ := st
    cases step
    exact ⟨next, rfl, hx, later⟩

/-- A walk that has just entered a node and skips to leaving it. -/
theorem InStep.skipToExit {todo : List WalkStep} {v : Walk} (h : Linked f f.children)
    (st : InStep f root todo) (step : Walk.next? f ⟨todo⟩ = some (.enter x, v)) :
    upcoming (v.skipToExit x).todo = some (.exit x) ∧ InStep f root (v.skipToExit x).todo := by
  rcases todo with _ | ⟨⟨⟨y, bs⟩⟩ | y, rest⟩
  · cases step
  · have apart : Walk.Unleft y rest := st.unleft h
    obtain ⟨hx, below, -, next, later⟩ := st
    rw [Walk.next?] at step
    split at step
    · cases step
      rw [Walk.skipToExit_leaf apart]
      exact ⟨rfl, hx, below, trivial, next, later⟩
    · cases step
      rw [Walk.skipToExit_visits]
      exact ⟨rfl, hx, below, trivial, next, later⟩
  · cases step

end InStep

/-! ## Loops over a walk -/

/-- Whether what is done at an event tells to skip to leaving the node. -/
def WalkEvent.skips (skip : NodeId → Bool) : WalkEvent → Bool
  | .enter x => skip x
  | .exit _ => false

section Loop

open Forest LinkWalk

variable {σ : Type} {f : Forest} {root : NodeId} {body : σ → WalkEvent → Looping (σ × Bool)}
  {step : σ → WalkEvent → σ} {skip : NodeId → Bool}

/-- A loop over a walk that is over. -/
theorem LinkWalk.loop_over (s : σ) : loop f body ⟨root, none⟩ s = pure s :=
  Loop.run_over rfl

/-- A round of a loop leads to the next one. -/
theorem LinkWalk.loop_step {e : WalkEvent} {s : σ}
    (done : body s e = pure (step s e, e.skips skip)) :
    loop f body ⟨root, some e⟩ s =
      loop f body
        (if e.skips skip then skipToExit e.node ⟨root, following f root e⟩
        else ⟨root, following f root e⟩) (step s e) := by
  refine congrArg ExceptT.mk (Loop.run_next ?_)
  rw [round, LinkWalk.next?, Option.map_some]
  dsimp only
  rw [done]
  rfl

/-- The loop along links goes through the events of the walk it is in step with. -/
theorem InStep.loop_eq (h : Linked f f.children)
    (done : ∀ s e, f.contains e.node → body s e = pure (step s e, e.skips skip)) (w : Walk)
    (s : σ) (st : InStep f root w.todo) :
    loop f body ⟨root, upcoming w.todo⟩ s = pure ((Walk.events f skip w).foldl step s) := by
  fun_induction Walk.events f skip w generalizing s with
  | case1 w none =>
    obtain ⟨todo⟩ := w
    rcases todo with _ | ⟨⟨⟨x, bs⟩⟩ | x, rest⟩
    · exact loop_over s
    · rw [Walk.next?] at none
      split at none <;> cases none
    · cases none
  | case2 w x v next ih =>
    obtain ⟨follow, up, hx, later⟩ := st.next h next
    rw [up, loop_step (done s _ hx), WalkEvent.skips, if_neg Bool.false_ne_true, follow]
    exact ih _ later
  | case3 w x v next ih =>
    obtain ⟨follow, up, hx, later⟩ := st.next h next
    rw [up, loop_step (done s _ hx), WalkEvent.skips, List.foldl_cons]
    split
    · rename_i skips
      obtain ⟨leaving, later⟩ := st.skipToExit h next
      rw [dif_pos skips] at ih
      rw [LinkWalk.skipToExit, WalkEvent.node, ← leaving]
      exact ih _ later
    · rename_i skips
      rw [dif_neg skips] at ih
      rw [follow]
      exact ih _ later

/-- A loop over the walk of a live node, as a fold over what the walk meets. -/
theorem Forest.Linked.loop_eq {x : NodeId} (h : Linked f f.children) (hx : f.contains x)
    (done : ∀ s e, f.contains e.node → body s e = pure (step s e, e.skips skip)) (s : σ) :
    loop f body (LinkWalk.start f x) s = pure ((f.walk skip x).foldl step s) := by
  have branch := h.branch_eq hx
  have id : (f.branch x).id = x := by rw [branch, Branch.id]
  have st : InStep f x [.visit (f.branch x)] := by
    refine ⟨?_, ?_, ?_, ?_, trivial⟩
    · rwa [WalkStep.node, id]
    · rw [WalkStep.node, id]
      exact h.below_self x
    · rw [WalkStep.Whole, id]
    · rw [WalkStep.node, id, afterNode, if_pos rfl]
      rfl
  have walk := InStep.loop_eq h done ⟨[.visit (f.branch x)]⟩ s st
  rw [upcoming, id] at walk
  rw [LinkWalk.start, if_pos hx, walk, Forest.walk, Walk.start, Forest.branch?_eq hx]

end Loop

end MarkdownForest
