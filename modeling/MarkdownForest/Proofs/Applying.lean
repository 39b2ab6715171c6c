/-
# MarkdownForest.Proofs.Applying -- when mutations succeed and what they change

A mutation is carried out in place, on the forest first and then on the wrapper
of the node moved (`Store.applyInPlace`).  `Follows` says what it may do: it
goes through when its wrappers are live and the forest accepts the edit of their
nodes; otherwise it fails for the first wrapper that is not live, or as the edit
does, and nothing has changed.

* `Paired.applyInPlace_eq`: in a store whose parts are in step, carrying out a
  mutation in place is `Store.apply`;
* `Paired.applied`: what changes when it goes through;
* `run_apply`: both of any mutation after any requests.
-/
import MarkdownForest.Proofs.InPlace
import MarkdownForest.Proofs.Workspaces

namespace MarkdownForest

set_option autoImplicit false

open Forest (Editing Moved contains_iff parent?_of_get? node_ok)

/-! ## Mutations as edits -/

namespace Mutation

/-- The wrappers that a mutation names, in the order in which they are looked up. -/
def wrappers : Mutation → List WrapperId
  | unlink node => [node]
  | insertBefore anchor node | insertAfter anchor node => [anchor, node]
  | prependChild parent child | appendChild parent child => [parent, child]

/-- The edit of a forest that a mutation is when `node` gives the nodes of its wrappers. -/
def edit (node : WrapperId → NodeId) : Mutation → Forest → Except ForestError Forest
  | unlink w => (·.unlink (node w))
  | insertBefore a w => (·.insertBefore (node a) (node w))
  | insertAfter a w => (·.insertAfter (node a) (node w))
  | prependChild p w => (·.prependChild (node p) (node w))
  | appendChild p w => (·.appendChild (node p) (node w))

theorem moved_mem_wrappers (m : Mutation) : m.moved ∈ m.wrappers := by
  cases m <;> simp [moved, wrappers]

end Mutation

namespace Store

/-- The wrappers of `m` are live, and `node` gives their nodes. -/
def Names (s : Store) (m : Mutation) (node : WrapperId → NodeId) : Prop :=
  ∀ w ∈ m.wrappers, s.wrappedNode w = .ok (node w)

/-! ## In place -/

/-- A computation that changes a store as it goes; what it changed before a failure stays. -/
abbrev Acting (α : Type) : Type := EStateM WorkspaceError Store α

/-- Edits the forest of a store. -/
def onForest (p : Editing Unit) : Acting Unit := fun s =>
  match p s.forest with
  | .ok a forest => .ok a { s with forest }
  | .error e forest => .error (.forest e) { s with forest }

/-- Looks up the node of a wrapper. -/
def resolve (w : WrapperId) : Acting NodeId := fun s =>
  match s.wrappedNode w with
  | .ok x => .ok x s
  | .error e => .error e s

/-- The edit that a mutation makes, in place. -/
def editInPlace : Mutation → Acting Unit
  | .unlink node => do
    let x ← resolve node
    onForest (Editing.unlink x)
  | .insertBefore anchor node => do
    let a ← resolve anchor
    let x ← resolve node
    onForest (Editing.insertBefore a x)
  | .insertAfter anchor node => do
    let a ← resolve anchor
    let x ← resolve node
    onForest (Editing.insertAfter a x)
  | .prependChild parent child => do
    let p ← resolve parent
    let x ← resolve child
    onForest (Editing.prependChild p x)
  | .appendChild parent child => do
    let p ← resolve parent
    let x ← resolve child
    onForest (Editing.appendChild p x)

/-- Tells the wrapper of the node moved whether that is a root now. -/
def settleInPlace (m : Mutation) : Acting Transition := fun s =>
  match s.wrapper m.moved with
  | .error e => .error e s
  | .ok v =>
    let (transition, ownership) := m.settle v.ownership
    .ok transition { s with heap := s.heap.update m.moved ({ · with ownership }) }

/-- Carries out a mutation in place. -/
def applyInPlace (m : Mutation) : Acting Transition := do
  editInPlace m
  settleInPlace m

section Apply

variable {s t : Store} {m : Mutation} {w : WrapperId} {x : NodeId} {e : WorkspaceError}
  {transition : Transition}

theorem onForest_write {p : Editing Unit} {change : Forest → Except ForestError Forest}
    (once : p s.forest = Editing.write change s.forest) :
    onForest p s =
      match (change s.forest).mapError WorkspaceError.forest with
      | .ok forest => .ok () { s with forest }
      | .error e => .error e s := by
  rw [onForest, once, Editing.write]
  cases change s.forest <;> rfl

theorem resolve_bind {α : Type} (w : WrapperId) (k : NodeId → Acting α) :
    (resolve w >>= k) s =
      match s.wrappedNode w with
      | .ok x => k x s
      | .error e => .error e s := by
  cases h : s.wrappedNode w <;> simp [bind, EStateM.bind, resolve, h]

/-- The edit of a mutation goes through, or nothing has changed. -/
theorem Paired.editInPlace_eq (h : Paired s) (m : Mutation) :
    editInPlace m s =
      match s.edit m with
      | .ok forest => .ok () { s with forest }
      | .error e => .error e s := by
  have linked := h.sound.linked
  cases m <;> simp only [editInPlace, Store.edit, resolve_bind]
  case unlink node =>
    cases s.wrappedNode node with
    | error e => rfl
    | ok x => exact onForest_write linked.inPlace_unlink
  all_goals
    rename_i u w
    cases s.wrappedNode u with
    | error e => rfl
    | ok a =>
      cases s.wrappedNode w with
      | error e => rfl
      | ok x =>
        first
        | exact onForest_write linked.inPlace_insertBefore
        | exact onForest_write linked.inPlace_insertAfter
        | exact onForest_write linked.inPlace_prependChild
        | exact onForest_write linked.inPlace_appendChild

/-- The wrapper of the node moved is live once the edit went through. -/
theorem Paired.wrapper_moved (h : Paired s) {g : Forest} (edited : s.edit m = .ok g) :
    ∃ v, s.wrapper m.moved = .ok v := by
  obtain ⟨v, _, c⟩ := h.edit_ok edited
  exact ⟨v, by simp [wrapper, c.wrapper]⟩

/-- A mutation goes through, or nothing has changed. -/
theorem Paired.applyInPlace_eq (h : Paired s) (m : Mutation) :
    applyInPlace m s =
      match s.apply m with
      | .ok (transition, t) => .ok transition t
      | .error e => .error e s := by
  rw [applyInPlace, Store.apply]
  cases edited : s.edit m with
  | error e => exact Editing.bind_run_error (by rw [h.editInPlace_eq, edited])
  | ok g =>
    obtain ⟨v, hv⟩ := h.wrapper_moved edited
    rw [Editing.bind_run_ok (p := editInPlace m) (s := s) (t := { s with forest := g })
      (by rw [h.editInPlace_eq, edited])]
    have hv' : { s with forest := g }.wrapper m.moved = .ok v := hv
    simp only [settleInPlace, hv', ok_bind, hv]
    rfl

/-! ## Successes and failures -/

theorem wrappedNode_error :
    s.wrappedNode w = .error e ↔ s.heap.contains w = false ∧ e = .staleWrapper w := by
  unfold wrappedNode wrapper
  cases hw : s.heap.get? w with
  | none => simp [Heap.contains, Arena.contains, show s.heap.wrappers.get? w = none from hw, eq_comm]
  | some v => simp [Heap.contains, Arena.contains, show s.heap.wrappers.get? w = some v from hw]

theorem contains_of_wrappedNode (h : s.wrappedNode w = .ok x) : s.heap.contains w := by
  obtain ⟨v, hv, -⟩ := wrappedNode_ok.mp h
  exact Arena.contains_iff.mpr ⟨v, hv⟩

/-- An edit of wrapped nodes is the edit of their nodes; before that it fails for the first wrapper
that is not live. -/
theorem edit_eq (s : Store) (m : Mutation) :
    (∃ node, Names s m node ∧ s.edit m = (m.edit node s.forest).mapError .forest) ∨
      ∃ w, m.wrappers.find? (fun w => !s.heap.contains w) = some w ∧
        s.edit m = .error (.staleWrapper w) := by
  cases m with
  | unlink w =>
    cases hw : s.wrappedNode w with
    | error e =>
      obtain ⟨dead, rfl⟩ := wrappedNode_error.mp hw
      exact .inr ⟨w, by simp [Mutation.wrappers, dead], by simp [Store.edit, hw]⟩
    | ok x =>
      refine .inl ⟨fun _ => x, ?_, by simp [Store.edit, hw, Mutation.edit]⟩
      simp [Names, Mutation.wrappers, hw]
  | insertBefore u w | insertAfter u w | prependChild u w | appendChild u w =>
    cases hu : s.wrappedNode u with
    | error e =>
      obtain ⟨dead, rfl⟩ := wrappedNode_error.mp hu
      exact .inr ⟨u, by simp [Mutation.wrappers, dead], by simp [Store.edit, hu]⟩
    | ok a =>
      have first := contains_of_wrappedNode hu
      cases hw : s.wrappedNode w with
      | error e =>
        obtain ⟨dead, rfl⟩ := wrappedNode_error.mp hw
        exact .inr ⟨w, by simp [Mutation.wrappers, first, dead], by simp [Store.edit, hu, hw]⟩
      | ok x =>
        have same : u = w → a = x := fun e => by
          subst e
          exact Except.ok.inj (hu.symm.trans hw)
        refine .inl ⟨fun k => if k = w then x else a, ?_, ?_⟩
        · by_cases e : u = w <;> simp_all [Names, Mutation.wrappers]
        · by_cases e : u = w <;> simp_all [Store.edit, Mutation.edit]

/-- What a mutation that went through made of a store. -/
structure Applied (s : Store) (m : Mutation) (transition : Transition) (t : Store) : Prop where
  /-- The forest is edited, at the nodes of the wrappers. -/
  forest : ∃ node, Names s m node ∧ m.edit node s.forest = .ok t.forest
  identity : t.identity = s.identity
  /-- Only the wrapper of the node moved has changed: it knows whether that is a root. -/
  heap : ∃ x ownership, s.wrappedNode m.moved = .ok x ∧ t.forest.ownership x = .ok ownership ∧
    t.heap = s.heap.update m.moved ({ · with ownership })
  /-- A change is reported exactly if the node moved has become a root or was one. -/
  transition : ∀ x, s.wrappedNode m.moved = .ok x → ∀ before after,
    transition = .changed before after ↔
      (before = .root ∧ after = .attached ∧
        s.forest.parent? x = none ∧ t.forest.parent? x ≠ none) ∨
      (before = .attached ∧ after = .root ∧
        s.forest.parent? x ≠ none ∧ t.forest.parent? x = none)

theorem transition_changed_iff {o o' before after : Ownership} :
    o.transition o' = .changed before after ↔ before = o ∧ after = o' ∧ o ≠ o' := by
  unfold Ownership.transition
  split <;> simp_all [eq_comm]

theorem settle_fst (m : Mutation) (o : Ownership) :
    (m.settle o).1 = o.transition (m.settle o).2 := by
  cases m <;> rfl

theorem Paired.applied (h : Paired s) (e : s.apply m = .ok (transition, t)) :
    Applied s m transition t := by
  obtain ⟨g, edited, e⟩ := bind_eq_ok.mp e
  obtain ⟨v, above, c⟩ := h.edit_ok edited
  have wrapper : s.wrapper m.moved = .ok v := by simp [Store.wrapper, c.wrapper]
  have nodeOf : s.wrappedNode m.moved = .ok v.node := by simp [wrappedNode, wrapper]
  simp only [wrapper, ok_bind, pure_eq_ok, Except.ok.injEq, Prod.mk.injEq] at e
  obtain ⟨rfl, rfl⟩ := e
  have up : g.parent? v.node = above := by simp [c.moved.parent?]
  -- the state that the mutation gives the wrapper is the one its node has now
  have state : g.ownership v.node = .ok (m.settle v.ownership).2 := by
    obtain ⟨n, hn⟩ := contains_iff.mp ((c.moved.contains_eq _).trans (h.live c.wrapper))
    have record := c.sound.linked.ownership hn
    have settled := c.settled v.ownership
    rw [← parent?_of_get? hn, up] at record
    have same : n.ownership = (m.settle v.ownership).2 := by
      cases ho : n.ownership <;> cases hs : (m.settle v.ownership).2 <;> simp_all
    simp [Forest.ownership, node_ok.mpr hn, same]
  refine ⟨?_, rfl, ⟨v.node, _, nodeOf, state, rfl⟩, fun x hx before after => ?_⟩
  · rcases edit_eq s m with ⟨node, names, e⟩ | ⟨w, -, e⟩
    · exact ⟨node, names, mapError_eq_ok.mp (e.symm.trans edited)⟩
    · simp [e] at edited
  · obtain rfl := Except.ok.inj (nodeOf.symm.trans hx)
    have old := h.ownership c.wrapper
    have new := c.settled v.ownership
    rw [settle_fst, transition_changed_iff, up]
    cases ho : v.ownership <;> cases hs : (m.settle v.ownership).2 <;>
      cases hb : s.forest.parent? v.node <;> cases ha : above <;> simp_all

/-- How a mutation carried out on a store may end. -/
structure Follows (s : Store) (m : Mutation) (r : EStateM.Result WorkspaceError Store Transition) :
    Prop where
  succeeds : (∃ transition t, r = .ok transition t) ↔
    ∃ node g, Names s m node ∧ m.edit node s.forest = .ok g
  applied : ∀ {transition t}, r = .ok transition t → Applied s m transition t
  /-- A failure has changed nothing.  It is that of the first wrapper that is not live, or that of
  the edit. -/
  fails : ∀ {e t}, r = .error e t → t = s ∧
    ((∃ w, m.wrappers.find? (fun w => !s.heap.contains w) = some w ∧ e = .staleWrapper w) ∨
      ∃ node cause, Names s m node ∧ m.edit node s.forest = .error cause ∧ e = .forest cause)

theorem Names.unique {node node' : WrapperId → NodeId} (h : Names s m node)
    (h' : Names s m node') : m.edit node' = m.edit node := by
  have same : ∀ w ∈ m.wrappers, node' w = node w := fun w hw =>
    Except.ok.inj ((h' w hw).symm.trans (h w hw))
  cases m <;> simp [Mutation.wrappers] at same <;> simp [Mutation.edit, same]

theorem Paired.apply_error_iff (h : Paired s) : s.apply m = .error e ↔ s.edit m = .error e := by
  cases edited : s.edit m with
  | error e' => simp [Store.apply, edited]
  | ok g =>
    obtain ⟨v, hv⟩ := h.wrapper_moved edited
    simp [Store.apply, edited, hv]

theorem Paired.follows (h : Paired s) (m : Mutation) : Follows s m (applyInPlace m s) := by
  rw [h.applyInPlace_eq]
  constructor
  · constructor
    · rintro ⟨transition, t, e⟩
      cases applied : s.apply m with
      | error e' => simp [applied] at e
      | ok r =>
        obtain ⟨node, names, edited⟩ := (h.applied applied).forest
        exact ⟨node, _, names, edited⟩
    · rintro ⟨node, g, names, edited⟩
      cases applied : s.apply m with
      | ok r => exact ⟨r.1, r.2, rfl⟩
      | error e =>
        have failed := h.apply_error_iff.mp applied
        rcases edit_eq s m with ⟨node', names', e⟩ | ⟨w, found, -⟩
        · simp [e, names.unique names', edited] at failed
        · have dead := List.find?_some found
          simp [contains_of_wrappedNode (names w (List.mem_of_find?_eq_some found))] at dead
  · intro transition t e
    cases applied : s.apply m with
    | error e' => simp [applied] at e
    | ok r =>
      simp only [applied, EStateM.Result.ok.injEq] at e
      obtain ⟨rfl, rfl⟩ := e
      exact h.applied applied
  · intro e t failed
    cases applied : s.apply m with
    | ok r => simp [applied] at failed
    | error e' =>
      simp only [applied, EStateM.Result.error.injEq] at failed
      obtain ⟨rfl, rfl⟩ := failed
      refine ⟨rfl, ?_⟩
      have edited := h.apply_error_iff.mp applied
      rcases edit_eq s m with ⟨node, names, e⟩ | ⟨w, found, e⟩
      · rw [e] at edited
        cases cause : m.edit node s.forest with
        | ok g => simp [cause] at edited
        | error cause' =>
          simp only [cause, mapError_error, Except.error.injEq] at edited
          exact .inr ⟨node, cause', names, cause, edited.symm⟩
      · exact .inl ⟨w, found, Except.error.inj (edited.symm.trans e)⟩

end Apply

end Store

/-- After any requests a mutation, carried out in place, goes through exactly if its wrappers are
live and the forest accepts the edit of their nodes; it changes nothing if it fails, and no more
than it should if it does not. -/
theorem Workspace.run_apply (settings : Settings) (rs : List Workspace.Request) (m : Mutation) :
    Store.Follows (run settings rs).toStore m (Store.applyInPlace m (run settings rs).toStore) ∧
      (run settings rs).apply m =
        match Store.applyInPlace m (run settings rs).toStore with
        | .ok transition t => .ok (transition, (run settings rs).withStore t)
        | .error e _ => .error e := by
  have h := (ready_run settings rs).paired
  refine ⟨h.follows m, ?_⟩
  rw [h.applyInPlace_eq, Workspace.apply]
  cases Store.apply (run settings rs).toStore m <;> rfl

end MarkdownForest
