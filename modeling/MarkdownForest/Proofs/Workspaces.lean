/-
# MarkdownForest.Proofs.Workspaces -- workspaces after any requests

A request is a call of a workspace by its host, with any arguments.  A call that
fails changes nothing, except that a source that could not be read has made nodes
and freed them again.

* `Ready.after`: one request keeps table, heap and forest in step;
* `run_consistent`: so they are in step after any requests;
* `run_collect`: and a collection then removes just what no rooted wrapper holds.
-/
import MarkdownForest.Proofs.Collecting
import MarkdownForest.Proofs.Mutations
import MarkdownForest.Proofs.Requests
import MarkdownForest.Workspace

namespace MarkdownForest.Workspace

set_option autoImplicit false

open Forest (contains_iff parent?_of_get?)
open Store (Paired Complete Kept Collected Extends identity_contains_iff)

/-! ## Requests -/

/-- A link from a node to another. -/
inductive Link where
  | parent | firstChild | lastChild | next | previous
  deriving DecidableEq, Repr

def Link.read : Link → Forest → NodeId → Except ForestError (Option NodeId)
  | parent => Forest.parent
  | firstChild => Forest.firstChild
  | lastChild => Forest.lastChild
  | next => Forest.next
  | previous => Forest.previous

inductive Request where
  | parse (source : String)
  | newNode (kind : Kind)
  | wrap (node : NodeId)
  | root (wrapper : WrapperId)
  | unroot (wrapper : WrapperId)
  | follow (link : Link) (wrapper : WrapperId)
  | set (value : FieldValue) (wrapper : WrapperId)
  | apply (mutation : Mutation)
  | collect
  | maybeCollect

/-- The workspace that a call gives; the one there was if it fails. -/
def orElse {ε α : Type} (ws : Workspace) : Except ε (α × Workspace) → Workspace
  | .ok (_, ws) => ws
  | .error _ => ws

/-- The workspace after a request. -/
def after (ws : Workspace) : Request → Workspace
  | .parse source => (ws.parse source).2
  | .newNode k => ws.orElse (ws.newNode k)
  | .wrap x => ws.orElse (ws.wrap x)
  | .root w => ws.orElse (do return ((), ← ws.root w))
  | .unroot w => ws.orElse (do return ((), ← ws.unroot w))
  | .follow link w => ws.orElse (ws.follow link.read w)
  | .set v w => ws.orElse (do return ((), ← ws.set v.write w))
  | .apply m => ws.orElse (ws.apply m)
  | .collect => ws.orElse ws.collect
  | .maybeCollect => ws.orElse ws.maybeCollect

/-- The workspace after requests, from an empty one on. -/
def run (settings : Settings) (rs : List Request) : Workspace :=
  rs.foldl after { settings }

/-! ## One request -/

/-- Table, heap and forest are in step, and every root is wrapped. -/
structure Ready (ws : Workspace) : Prop where
  paired : Paired ws.toStore
  complete : Complete ws.toStore

section Steps

variable {ws ws' : Workspace} {x : NodeId} {w : WrapperId}

theorem orElse_eq {ε α : Type} {r : Except ε (α × Workspace)} {P : Workspace → Prop}
    (h : P ws) (ok : ∀ a ws', r = .ok (a, ws') → P ws') : P (ws.orElse r) := by
  cases r with
  | error e => exact h
  | ok r => exact ok r.1 r.2 rfl

/-- A live node is wrapped, and then so is all that was. -/
theorem wrap_ok (h : Paired ws.toStore) (hx : ws.forest.contains x) :
    ∃ w t, ws.wrap x = .ok (w, ws.withStore t) ∧ Paired t ∧ Extends ws.toStore t ∧
      t.identity.lookup x = some w := by
  obtain ⟨w, t, ht, paired, grown, found⟩ := h.materialize hx
  exact ⟨w, t, by simp [wrap, ht], paired, grown, found⟩

theorem wrap_stale (h : Paired ws.toStore) (hx : ws.forest.contains x = false) :
    ws.wrap x = .error (.forest (.stale x)) := by
  simp [wrap, h.materialize_stale hx]

theorem Ready.wrap (h : Ready ws) (e : ws.wrap x = .ok (w, ws')) : Ready ws' := by
  by_cases hx : ws.forest.contains x
  · obtain ⟨_, t, ht, paired, grown, -⟩ := wrap_ok h.paired hx
    cases ht.symm.trans e
    exact ⟨paired, grown.complete h.complete⟩
  · simp [wrap_stale h.paired (by simpa using hx)] at e

/-- A new tree is in step with table and heap once its root is wrapped. -/
theorem Ready.wrap_grown {g : Forest} {c : Content} (h : Ready ws) (sound : Forest.Sound g)
    (grown : Forest.Grown ws.forest g x c) :
    ∃ w ws', Workspace.wrap { ws with forest := g } x = .ok (w, ws') ∧ Ready ws' := by
  have paired : Paired { ws.toStore with forest := g } :=
    h.paired.reforest sound grown.contains_of fun hy => (grown.kept hy).parent?
  obtain ⟨w, t, ht, paired', more, found⟩ :=
    @wrap_ok { ws with forest := g } x paired grown.contains_self
  refine ⟨w, _, ht, paired', fun {y} hy top => ?_⟩
  change t.forest.contains y at hy
  change t.forest.parent? y = none at top
  rw [more.forest] at hy top
  rcases grown.made hy with old | below
  · rw [(grown.kept old).parent?] at top
    exact more.contains (h.complete old top)
  · exact identity_contains_iff.mpr ⟨w, below.eq_of_top top ▸ found⟩

theorem Ready.newNode (h : Ready ws) (k : Kind) :
    ∃ w ws', ws.newNode k = .ok (w, ws') ∧ Ready ws' :=
  h.wrap_grown (h.paired.sound.newNode (Content.inRange_new k))
    (Forest.grown_newNode h.paired.sound.linked _)

theorem Ready.parse (h : Ready ws) (source : String) : Ready (ws.parse source).2 := by
  unfold Workspace.parse
  cases read : ws.forest.read ws.settings.parse source with
  | mk result g =>
    cases result with
    | error e =>
      obtain ⟨sound, live, same⟩ := h.paired.sound.read_error read
      refine ⟨h.paired.reforest sound (fun hy => (live _).trans hy) fun hy => (same hy).parent?, ?_⟩
      intro y hy top
      have old : ws.forest.contains y := (live y).symm.trans hy
      exact h.complete old ((same old).parent?.symm.trans top)
    | ok x =>
      obtain ⟨sound, grown⟩ := h.paired.sound.read_ok read
      obtain ⟨w, ws', wrapped, ready⟩ := h.wrap_grown sound grown
      simpa only [wrapped] using ready

theorem Ready.update {change : Wrapper → Wrapper} (h : Ready ws) (w : WrapperId)
    (same : ∀ v, (change v).node = v.node ∧ (change v).ownership = v.ownership) :
    Ready { ws with heap := ws.heap.update w change } :=
  ⟨h.paired.update w same, h.complete⟩

theorem Ready.root (h : Ready ws) (e : ws.root w = .ok ws') : Ready ws' := by
  obtain ⟨_, -, ⟨⟩⟩ := bind_eq_ok.mp e
  exact h.update w fun _ => ⟨rfl, rfl⟩

theorem Ready.unroot (h : Ready ws) (e : ws.unroot w = .ok ws') : Ready ws' := by
  obtain ⟨_, -, ⟨⟩⟩ := bind_eq_ok.mp e
  exact h.update w fun _ => ⟨rfl, rfl⟩

theorem Ready.follow {link : Forest → NodeId → Except ForestError (Option NodeId)}
    {found : Option WrapperId} (h : Ready ws) (e : ws.follow link w = .ok (found, ws')) :
    Ready ws' := by
  obtain ⟨x, -, e⟩ := bind_eq_ok.mp e
  obtain ⟨y, -, e⟩ := bind_eq_ok.mp e
  cases y with
  | none =>
    cases e
    exact h
  | some y =>
    obtain ⟨⟨w', ws''⟩, wrapped, ⟨⟩⟩ := bind_eq_ok.mp e
    exact h.wrap wrapped

theorem Ready.set (h : Ready ws) (v : FieldValue) (e : ws.set v.write w = .ok ws') :
    Ready ws' := by
  obtain ⟨x, -, e⟩ := bind_eq_ok.mp e
  obtain ⟨g, set, ⟨⟩⟩ := bind_eq_ok.mp e
  have set := mapError_eq_ok.mp set
  obtain ⟨_, _, -, -, r⟩ := Forest.set_ok set
  have parent : ∀ y, g.parent? y = ws.forest.parent? y := fun y => by rw [r.parent?]; rfl
  refine ⟨h.paired.reforest (h.paired.sound.set FieldValue.write_ok set)
    (fun hy => (r.contains_eq _).trans hy) fun _ => parent _, fun {y} hy top => ?_⟩
  exact h.complete ((r.contains_eq y).symm.trans hy) ((parent y).symm.trans top)

theorem Ready.apply {m : Mutation} {transition : Transition} (h : Ready ws)
    (e : ws.apply m = .ok (transition, ws')) : Ready ws' := by
  obtain ⟨⟨transition', t⟩, applied, ⟨⟩⟩ := bind_eq_ok.mp e
  obtain ⟨paired, complete⟩ := h.paired.apply applied
  exact ⟨paired, complete h.complete⟩

/-- A collection does not fail. -/
theorem Ready.collect (h : Ready ws) :
    ∃ stats t, ws.collect = .ok (stats, { ws.withStore t with collections := ws.collections + 1 }) ∧
      Collected ws.toStore t stats ∧ Paired t ∧ Complete t := by
  obtain ⟨stats, t, ht, sound, collected⟩ := h.paired.collected h.complete
  exact ⟨stats, t, by simp [Workspace.collect, ht], collected, collected.paired h.paired sound,
    collected.complete h.complete⟩

theorem Ready.maybeCollect (h : Ready ws) :
    ∃ stats ws', ws.maybeCollect = .ok (stats, ws') ∧ Ready ws' := by
  unfold Workspace.maybeCollect
  split
  · exact ⟨none, ws, rfl, h⟩
  · obtain ⟨stats, t, ht, -, paired, complete⟩ := h.collect
    exact ⟨some stats, _, by rw [ht]; rfl, paired, complete⟩

/-- A request keeps table, heap and forest in step. -/
theorem Ready.after (h : Ready ws) (r : Request) : Ready (ws.after r) := by
  cases r with
  | parse source => exact h.parse source
  | newNode k =>
    obtain ⟨w, ws', e, ready⟩ := h.newNode k
    simpa only [Workspace.after, orElse, e] using ready
  | wrap x => exact orElse_eq h fun _ _ e => h.wrap e
  | root w =>
    refine orElse_eq h fun _ ws' e => ?_
    obtain ⟨_, e, ⟨⟩⟩ := bind_eq_ok.mp e
    exact h.root e
  | unroot w =>
    refine orElse_eq h fun _ ws' e => ?_
    obtain ⟨_, e, ⟨⟩⟩ := bind_eq_ok.mp e
    exact h.unroot e
  | follow link w => exact orElse_eq h fun _ _ e => h.follow e
  | set v w =>
    refine orElse_eq h fun _ ws' e => ?_
    obtain ⟨_, e, ⟨⟩⟩ := bind_eq_ok.mp e
    exact h.set v e
  | apply m => exact orElse_eq h fun _ _ e => h.apply e
  | collect =>
    obtain ⟨stats, t, e, -, paired, complete⟩ := h.collect
    simp only [Workspace.after, orElse, e]
    exact ⟨paired, complete⟩
  | maybeCollect =>
    obtain ⟨stats, ws', e, ready⟩ := h.maybeCollect
    simpa only [Workspace.after, orElse, e] using ready

end Steps

/-! ## Any requests -/

theorem ready_start (settings : Settings) : Ready { settings } where
  paired := ⟨Forest.sound_empty, by simp [Heap.get?], by simp [Heap.get?], by simp [Heap.get?],
    by simp [IdentityTable.contains]⟩
  complete hx := by simp [Forest.contains, Arena.contains] at hx

theorem ready_run (settings : Settings) (rs : List Request) : Ready (run settings rs) := by
  suffices h : ∀ ws, Ready ws → Ready (rs.foldl after ws) from h _ (ready_start settings)
  induction rs with
  | nil => exact fun _ h => h
  | cons r rs ih => exact fun ws h => ih (ws.after r) (h.after r)

/-- What table, heap and forest of a workspace say about each other. -/
structure Consistent (ws : Workspace) : Prop where
  /-- A node has a wrapper in the table exactly if that is a live wrapper of the node. -/
  inverse : ∀ x w, ws.identity.lookup x = some w ↔ ∃ v, ws.heap.get? w = some v ∧ v.node = x
  /-- Wrappers are on live nodes, and know whether these are roots. -/
  node : ∀ w v, ws.heap.get? w = some v → ∃ n, ws.forest.nodes.get? v.node = some n ∧
    v.ownership = n.ownership ∧ (n.ownership = .root ↔ n.parent = none)
  /-- The parent of a wrapped node is wrapped. -/
  upward : ∀ x n p, ws.identity.contains x → ws.forest.nodes.get? x = some n →
    n.parent = some p → ws.identity.contains p
  /-- A live node without parent is wrapped. -/
  roots : ∀ x n, ws.forest.nodes.get? x = some n → n.parent = none → ws.identity.contains x
  /-- Every live node is at or below a wrapped one. -/
  reached : ∀ x, ws.forest.contains x →
    ∃ w v, ws.heap.get? w = some v ∧ v.node ∈ ws.forest.ancestors x

theorem Ready.consistent {ws : Workspace} (h : Ready ws) : Consistent ws := by
  have linked := h.paired.sound.linked
  refine ⟨fun _ _ => h.paired.inverse, fun w v hw => ?_, fun x n p hx hn up => ?_,
    fun x n hn top => ?_, fun x hx => ?_⟩
  · obtain ⟨n, hn⟩ := contains_iff.mp (h.paired.live hw)
    exact ⟨n, hn, h.paired.ownership_eq hw hn, linked.ownership hn⟩
  · exact h.paired.upward hx (by rw [parent?_of_get? hn, up])
  · exact h.complete (contains_iff.mpr ⟨n, hn⟩) (by rw [parent?_of_get? hn, top])
  · obtain ⟨r, -, hr, top, path, hp, mem⟩ := linked.rootOf_ok hx
    obtain ⟨w, v, hw, rfl⟩ := h.paired.wrapped_iff.mp (h.complete hr top)
    exact ⟨w, v, hw, linked.ancestors_eq hx hp ▸ mem⟩

/-- After any requests table, heap and forest agree. -/
theorem run_consistent (settings : Settings) (rs : List Request) :
    Consistent (run settings rs) :=
  (ready_run settings rs).consistent

/-- After any requests a collection succeeds and removes exactly the trees without a rooted
wrapper, with their wrappers; another one right after it removes nothing. -/
theorem run_collect (settings : Settings) (rs : List Request) :
    ∃ stats ws, (run settings rs).collect = .ok (stats, ws) ∧
      Collected (run settings rs).toStore ws.toStore stats ∧
      ∃ again, ws.collect = .ok ({ marked := stats.marked }, again) ∧
        again.forest = ws.forest ∧ again.identity = ws.identity ∧
        again.heap.wrappers = ws.heap.wrappers := by
  have h := ready_run settings rs
  obtain ⟨stats, t, ht, sound, collected⟩ := h.paired.collected h.complete
  have next := collected.again h.paired sound
  let ws : Workspace := { (run settings rs).withStore t with
    collections := (run settings rs).collections + 1 }
  have next : ws.collect = .ok ({ marked := stats.marked },
      { ws.withStore { t with heap := t.heap.resetCounter } with
        collections := ws.collections + 1 }) := by
    rw [Workspace.collect, show ws.toStore = t from rfl, next]
    rfl
  exact ⟨stats, ws, by rw [Workspace.collect, ht]; rfl, collected, _, next, rfl, rfl, rfl⟩

end MarkdownForest.Workspace
