/-
# MarkdownForest.Proofs.Handles -- one wrapper a node, for as long as it lives

A call hands out a wrapper of a node when it makes the node, wraps it, or
follows a link to it (`Workspace.Hands`).

* `Ready.hands`: the wrapper handed out is the one that the table has;
* `Ready.keeps`: a wrapper stays on its node until a collection sweeps it;
* `stays_stale`: a wrapper swept is not live again before its slot has been used
  as often as there are generations;
* `wrapper_identity`: so in any conversation a node has one wrapper, and no two
  nodes have the same, until it is swept; and then no call takes it any more.
-/
import MarkdownForest.Proofs.Aging

namespace MarkdownForest.Workspace

set_option autoImplicit false

open Arena (Filled Emptied contains_iff_slot)
open Store (Paired Extends identity_contains_iff)

/-- The wrapper that an answer hands out. -/
def handle? : Except WorkspaceError Answer → Option WrapperId
  | .ok (.wrapper w) => some w
  | .ok (.link found) => found
  | _ => none

/-- The node that a call wants a wrapper of. -/
def target? (ws : Workspace) : Call → Option NodeId
  | .request (.parse source) => (ws.forest.read ws.settings.parse source).1.toOption
  | .request (.newNode k) => some (ws.forest.newNode (.new k)).1
  | .request (.wrap x) => some x
  | .request (.follow link w) =>
    (ws.nodeOf w).toOption.bind fun x => (link.read ws.forest x).toOption.join
  | _ => none

/-- The call hands out the wrapper `w` for the node `x`. -/
def Hands (ws : Workspace) (c : Call) (x : NodeId) (w : WrapperId) : Prop :=
  ws.target? c = some x ∧ handle? (ws.answer c) = some w

/-- The call is a collection that removes the wrapper `w`. -/
def Sweeps (ws : Workspace) (c : Call) (w : WrapperId) : Prop :=
  c.collects ∧ ws.heap.contains w ∧ (ws.afterCall c).heap.contains w = false

section Steps

variable {ws ws' : Workspace} {x y : NodeId} {w : WrapperId} {c : Call}

theorem heap_contains_iff : ws.heap.contains w ↔ ∃ v, ws.heap.get? w = some v :=
  Arena.contains_iff

/-- A wrapper handed out is the one that the node has. -/
theorem Ready.hands (h : Ready ws) (hands : ws.Hands c x w) :
    (ws.afterCall c).identity.lookup x = some w ∧ c.collects = false := by
  obtain ⟨target, handle⟩ := hands
  cases c with
  | ask q u => simp [target?] at target
  | request r =>
    cases r with
    | parse source =>
      refine ⟨?_, rfl⟩
      rcases h.parse_cases source with ⟨e, g, -, parsed⟩ | ⟨x', g, w', ws', read, paired, e, parsed⟩
      · simp [answer, reply, parsed, handle?, Except.map] at handle
      · simp only [target?, read, Except.toOption, Option.some.injEq] at target
        simp only [answer, reply, parsed, handle?, Except.map, Option.some.injEq] at handle
        subst target handle
        simpa only [Workspace.afterCall, Workspace.after, parsed] using
          (@wrap_extends { ws with forest := g } _ _ _ paired e).2.2
    | newNode k =>
      refine ⟨?_, rfl⟩
      obtain ⟨w', ws', paired, e, made⟩ := h.newNode_cases k
      simp only [target?, Option.some.injEq] at target
      simp only [answer, reply, made, handle?, Except.map, Option.some.injEq] at handle
      subst target handle
      simpa only [Workspace.afterCall, Workspace.after, orElse, made] using
        (@wrap_extends { ws with forest := (ws.forest.newNode (.new k)).2 } _ _ _ paired e).2.2
    | wrap x' =>
      refine ⟨?_, rfl⟩
      simp only [target?, Option.some.injEq] at target
      subst target
      cases e : ws.wrap x' with
      | error _ => simp [answer, reply, e, handle?, Except.map] at handle
      | ok r =>
        simp only [answer, reply, e, handle?, Except.map, Option.some.injEq] at handle
        subst handle
        simpa only [Workspace.afterCall, Workspace.after, orElse, e] using
          (wrap_extends h.paired e).2.2
    | follow link u =>
      refine ⟨?_, rfl⟩
      cases e : ws.follow link.read u with
      | error _ => simp [answer, reply, e, handle?, Except.map] at handle
      | ok r =>
        obtain ⟨found, ws'⟩ := r
        simp only [answer, reply, e, handle?, Except.map] at handle
        subst handle
        obtain ⟨z, hz, ⟨-, none, -⟩ | ⟨y, w', hy, found, wrapped⟩⟩ := follow_cases e
        · simp at none
        · simp only [target?, hz, hy, Except.toOption, Option.bind_some, Option.join_some,
            Option.some.injEq] at target
          cases found
          subst target
          simpa only [Workspace.afterCall, Workspace.after, orElse, e] using
            (wrap_extends h.paired wrapped).2.2
    | root _ | unroot _ | set _ _ | apply _ | collect | maybeCollect => simp [target?] at target

/-- `w` is a live wrapper of `x`. -/
def On (ws : Workspace) (w : WrapperId) (x : NodeId) : Prop :=
  ∃ v, ws.heap.get? w = some v ∧ v.node = x

theorem Ready.lookup_iff (h : Ready ws) : ws.identity.lookup x = some w ↔ ws.On w x :=
  h.paired.inverse

theorem On.contains (on : ws.On w x) : ws.heap.contains w :=
  heap_contains_iff.mpr (on.imp fun _ => And.left)

theorem On.extends (on : ws.On w x) (grown : Extends ws.toStore ws'.toStore) : ws'.On w x := by
  obtain ⟨v, hv, rfl⟩ := on
  exact ⟨v, grown.kept hv, rfl⟩

theorem On.update {u : WrapperId} {change : Wrapper → Wrapper} (on : ws.On w x)
    (heap : ws'.heap = ws.heap.update u change) (same : ∀ v, (change v).node = v.node) :
    ws'.On w x := by
  obtain ⟨v, hv, rfl⟩ := on
  rw [On, heap, Heap.get?_update, hv]
  split
  · exact ⟨change v, rfl, same v⟩
  · exact ⟨v, rfl, rfl⟩

/-- A wrapper stays on its node in every request but a collection. -/
theorem On.after (on : ws.On w x) (h : Ready ws) {r : Request}
    (keeps : (Call.request r).collects = false) : (ws.after r).On w x := by
  cases r with
  | parse source =>
    rcases h.parse_cases source with ⟨e, g, -, parsed⟩ | ⟨y, g, u, ws', -, paired, e, parsed⟩
    · rw [Workspace.after, parsed]
      exact on
    · rw [Workspace.after, parsed]
      exact @On.extends { ws with forest := g } _ _ _ on (wrap_extends paired e).1
  | newNode k =>
    obtain ⟨u, ws', paired, e, made⟩ := h.newNode_cases k
    rw [Workspace.after, made]
    exact @On.extends { ws with forest := (ws.forest.newNode (.new k)).2 } _ _ _ on
      (wrap_extends paired e).1
  | wrap y =>
    exact orElse_eq (P := (On · w x)) on fun u ws' e => on.extends (wrap_extends h.paired e).1
  | follow link u =>
    refine orElse_eq (P := (On · w x)) on fun found ws' e => ?_
    obtain ⟨y, -, ⟨-, -, rfl⟩ | ⟨z, u, -, -, wrapped⟩⟩ := follow_cases e
    · exact on
    · exact on.extends (wrap_extends h.paired wrapped).1
  | root u | unroot u =>
    refine orElse_eq (P := (On · w x)) on fun _ ws' e => ?_
    obtain ⟨_, e, ⟨⟩⟩ := bind_eq_ok.mp e
    obtain ⟨_, -, ⟨⟩⟩ := bind_eq_ok.mp e
    exact on.update rfl fun _ => rfl
  | set v u =>
    refine orElse_eq (P := (On · w x)) on fun _ ws' e => ?_
    obtain ⟨_, e, ⟨⟩⟩ := bind_eq_ok.mp e
    obtain ⟨_, -, e⟩ := bind_eq_ok.mp e
    obtain ⟨_, -, ⟨⟩⟩ := bind_eq_ok.mp e
    exact on
  | apply m =>
    refine orElse_eq (P := (On · w x)) on fun _ ws' e => ?_
    obtain ⟨⟨transition, t⟩, applied, ⟨⟩⟩ := bind_eq_ok.mp e
    obtain ⟨_, o, -, -, heap⟩ := (h.paired.applied applied).heap
    exact on.update heap fun _ => rfl
  | collect | maybeCollect => simp [Call.collects] at keeps

/-- A wrapper stays on its node until a collection sweeps it. -/
theorem On.afterCall (on : ws.On w x) (h : Ready ws) (c : Call) :
    (ws.afterCall c).On w x ∨ ws.Sweeps c w := by
  cases c with
  | ask q u => exact .inl on
  | request r =>
    by_cases collects : (Call.request r).collects
    · rcases h.collect_cases collects with same | ⟨stats, t, collected, done⟩
      · exact .inl (by rwa [Workspace.afterCall, same])
      · obtain ⟨v, hv, rfl⟩ := on
        by_cases kept : Store.Kept ws.toStore v.node
        · refine .inl ⟨v, ?_, rfl⟩
          rw [Workspace.afterCall, collected]
          exact done.wrappers.mpr ⟨hv, kept⟩
        · refine .inr ⟨collects, heap_contains_iff.mpr ⟨v, hv⟩, ?_⟩
          refine Bool.eq_false_iff.mpr fun live => ?_
          rw [Workspace.afterCall, collected] at live
          obtain ⟨v', hv'⟩ := heap_contains_iff.mp live
          obtain ⟨hv', kept'⟩ := done.wrappers.mp hv'
          exact kept (Option.some.inj (hv.symm.trans hv') ▸ kept')
    · exact .inl (on.after h (by simpa using collects))

/-- A wrapper stays on its node in calls that do not sweep it. -/
theorem On.afterCalls (on : ws.On w x) (h : Ready ws) {cs : List Call}
    (unswept : ∀ before d after, cs = before ++ d :: after → ¬ (ws.afterCalls before).Sweeps d w) :
    (ws.afterCalls cs).On w x := by
  induction cs generalizing ws with
  | nil => exact on
  | cons c cs ih =>
    rcases on.afterCall h c with on | swept
    · exact ih on (h.afterCall c) fun before d after e =>
        unswept (c :: before) d after (by rw [e]; rfl)
    · exact absurd swept (unswept [] c cs rfl)

/-- A wrapper that has just been swept has not been used since. -/
theorem Ready.reused_sweep (h : Ready ws) (swept : ws.Sweeps c w) :
    Reused (ws.afterCall c) w 0 := by
  obtain ⟨collects, live, dead⟩ := swept
  have slots := h.heap_slots c
  rw [if_pos collects] at slots
  obtain ⟨used, gen⟩ := contains_iff_slot.mp live
  rcases slots w.index with ⟨same, kept⟩ | ⟨older, -, vacant⟩
  · have : (ws.afterCall c).heap.contains w :=
      contains_iff_slot.mpr ⟨kept.trans used, same.trans gen⟩
    simp [this] at dead
  · exact ⟨fun used => by simp [vacant] at used, fun _ => by rw [older, gen]; rfl⟩

end Steps

/-- In any conversation, a node has one wrapper and no other node has it: until the wrapper is
swept, what later calls hand out is that wrapper exactly if it is for that node.  No two nodes have
one wrapper at any time.  Once it is swept, and its slot used less often since than there are
generations, a call that names it fails for the first wrapper named that is not live, and changes
nothing. -/
theorem wrapper_identity (settings : Settings) :
    (∀ (before between : List Call) (c d : Call) (x y : NodeId) (w u : WrapperId),
      (afterCalls { settings } before).Hands c x w →
      (∀ b e r, between = b ++ e :: r →
        ¬ (afterCalls { settings } (before ++ c :: b)).Sweeps e w) →
      (afterCalls { settings } (before ++ c :: between)).Hands d y u → (u = w ↔ y = x)) ∧
    (∀ (cs : List Call) (x y : NodeId) (w : WrapperId),
      (afterCalls { settings } cs).identity.lookup x = some w →
      (afterCalls { settings } cs).identity.lookup y = some w → x = y) ∧
    ∀ (before after : List Call) (c d : Call) (w : WrapperId),
      (afterCalls { settings } before).Sweeps c w →
      count (reuses w.index) (afterCalls { settings } (before ++ [c])) after < UInt32.size →
      let ws := afterCalls { settings } (before ++ c :: after)
      ws.heap.contains w = false ∧
        (w ∈ d.wrappers → ∃ u, d.wrappers.find? (fun u => !ws.heap.contains u) = some u ∧
          ws.answer d = .error (.staleWrapper u) ∧ ws.afterCall d = ws) := by
  refine ⟨?_, ?_, ?_⟩
  · intro before between c d x y w u hands unswept hands'
    have ready := ready_converse settings before
    obtain ⟨found, -⟩ := ready.hands hands
    rw [afterCalls_append, afterCalls_cons] at hands'
    have on := ((ready.afterCall c).lookup_iff.mp found).afterCalls (ready.afterCall c)
      fun b e r split => by
        have := unswept b e r split
        rwa [afterCalls_append, afterCalls_cons] at this
    have ready := (ready.afterCall c).afterCalls between
    obtain ⟨found', keeps⟩ := ready.hands hands'
    rcases on.afterCall ready d with on | ⟨collects, -⟩
    · have found := (ready.afterCall d).lookup_iff.mpr on
      constructor
      · rintro rfl
        obtain ⟨v, hv, rfl⟩ := on
        obtain ⟨v', hv', rfl⟩ := (ready.afterCall d).lookup_iff.mp found'
        rw [Option.some.inj (hv.symm.trans hv')]
      · rintro rfl
        exact Option.some.inj (found'.symm.trans found)
    · simp [keeps] at collects
  · intro cs x y w hx hy
    have ready := ready_converse settings cs
    obtain ⟨v, hv, rfl⟩ := ready.lookup_iff.mp hx
    obtain ⟨v', hv', rfl⟩ := ready.lookup_iff.mp hy
    rw [Option.some.inj (hv.symm.trans hv')]
  · intro before after c d w swept few
    have ready := ready_converse settings before
    rw [afterCalls_append, afterCalls_cons, afterCalls_nil] at few
    have dead := (ready.reused_sweep swept).stays_stale (ready.afterCall c) after
      (by rwa [Nat.zero_add])
    simp only [afterCalls_append, afterCalls_cons]
    refine ⟨dead, fun named => ?_⟩
    have ready := (ready.afterCall c).afterCalls after
    cases first : d.wrappers.find? fun u =>
        !(((afterCalls { settings } before).afterCall c).afterCalls after).heap.contains u with
    | none => simpa [dead] using List.find?_eq_none.mp first w named
    | some u => exact ⟨u, rfl, ready.stale first⟩

/-- A wrapper that nothing holds is swept, and stays stale when another node has been made. -/
theorem swept_wrapper_stale :
    let ws := afterCalls {} [.request (.newNode .paragraph), .request .collect,
      .request (.newNode .text)]
    ws.heap.contains ⟨0, 0⟩ = false ∧
      ws.answer (.ask .kind ⟨0, 0⟩) = .error (.staleWrapper ⟨0, 0⟩) := by
  have ready := ready_converse {} [.request (.newNode .paragraph)]
  have unrooted : ∀ e ∈ (afterCalls {} [.request (.newNode .paragraph)]).heap.entries,
      e.2.isRooted = false := by decide
  have dead : ((afterCalls {} [.request (.newNode .paragraph)]).afterCall
      (.request .collect)).heap.contains ⟨0, 0⟩ = false := by
    obtain ⟨stats, t, e, collected, -⟩ := ready.collect
    rw [Workspace.afterCall, Workspace.after, e]
    refine Bool.eq_false_iff.mpr fun live => ?_
    obtain ⟨v, hv⟩ := heap_contains_iff.mp live
    obtain ⟨-, -, w, u, hu, rooted, -⟩ := collected.wrappers.mp hv
    simp [unrooted (w, u) (Heap.mem_entries.mpr hu)] at rooted
  have swept : (afterCalls {} [.request (.newNode .paragraph)]).Sweeps (.request .collect) ⟨0, 0⟩ :=
    ⟨rfl, by decide, dead⟩
  obtain ⟨stale, fails⟩ := (wrapper_identity {}).2.2 [.request (.newNode .paragraph)]
    [.request (.newNode .text)] (.request .collect) (.ask .kind ⟨0, 0⟩) ⟨0, 0⟩ swept
    (Nat.lt_of_le_of_lt (count_le_length _ _ _) (by decide))
  obtain ⟨u, first, answer, -⟩ := fails List.mem_cons_self
  obtain rfl := List.mem_singleton.mp (List.mem_of_find?_eq_some first)
  exact ⟨stale, answer⟩

end MarkdownForest.Workspace
