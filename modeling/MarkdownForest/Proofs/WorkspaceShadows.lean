/-
# MarkdownForest.Proofs.WorkspaceShadows -- the same calls on both sides

A workspace shadows another if its store does, and the settings are the same.
Then a call that names live nodes and wrappers has corresponding answers, and
leaves one workspace shadowing the other, up to names for what was made
(`Shadows.follow`).

* `Shadows.ask`: the answers to questions;
* `Shadows.request`: requests other than collections;
* `Shadows.collected`: a collection on one side only.
-/
import MarkdownForest.Proofs.Aging
import MarkdownForest.Proofs.StoreShadows

namespace MarkdownForest.Workspace

set_option autoImplicit false

open Store (Paired Extends)

/-! ## Renaming -/

/-- Other names for nodes and wrappers, one-to-one. -/
structure Renaming where
  node : Equiv.Perm NodeId
  wrapper : Equiv.Perm WrapperId

def Request.rename (r : Renaming) : Request → Request
  | wrap x => wrap (r.node x)
  | root w => root (r.wrapper w)
  | unroot w => unroot (r.wrapper w)
  | follow link w => follow link (r.wrapper w)
  | set v w => set v (r.wrapper w)
  | apply m => apply (m.rename r.wrapper)
  | parse source => parse source
  | newNode k => newNode k
  | collect => collect
  | maybeCollect => maybeCollect

/-- The call with what it names renamed. -/
def Call.rename (r : Renaming) : Call → Call
  | request q => request (q.rename r)
  | ask q w => ask q (r.wrapper w)

namespace Answer

/-- The answer with what it names renamed. -/
def rename (r : Renaming) : Answer → Answer
  | wrapper w => wrapper (r.wrapper w)
  | link found => link (found.map r.wrapper)
  | record v => record (v.rename r.node)
  | node x => node (r.node x)
  | done => done
  | transition t => transition t
  | collected stats => collected stats
  | violation v => violation v
  | kind k => kind k
  | ownership o => ownership o
  | value v => value v
  | text s => text s

/-- What an answer names is live. -/
def Live (ws : Workspace) : Answer → Prop
  | wrapper w => ws.heap.contains w
  | link found => ∀ w, found = some w → ws.heap.contains w
  | record v => ws.forest.contains v.node
  | node x => ws.forest.contains x
  | _ => True

end Answer

/-- `r'` names as `r` does what has been known. -/
structure Agrees (r r' : Renaming) (nodes : NodeId → Prop) (wrappers : WrapperId → Prop) :
    Prop where
  node : ∀ x, nodes x → r'.node x = r.node x
  wrapper : ∀ w, wrappers w → r'.wrapper w = r.wrapper w

/-- `b` mirrors `a`, and still has all nodes and wrappers that have been known. -/
structure Shadows (r : Renaming) (nodes : NodeId → Prop) (wrappers : WrapperId → Prop)
    (a b : Workspace) : Prop where
  store : Store.Shadows r.node r.wrapper nodes wrappers a.toStore b.toStore
  settings : b.settings = a.settings

section Steps

variable {r r' : Renaming} {nodes : NodeId → Prop} {wrappers : WrapperId → Prop}
  {a b : Workspace} {x : NodeId} {w : WrapperId}

theorem Answer.rename_congr {p : Answer} (agrees : Agrees r r' nodes wrappers) (live : p.Live a)
    (seen : ∀ x, a.forest.contains x → nodes x) (seen' : ∀ w, a.heap.contains w → wrappers w) :
    p.rename r' = p.rename r := by
  cases p with
  | wrapper w => rw [rename, rename, agrees.wrapper w (seen' w live)]
  | link found =>
    cases found with
    | none => rfl
    | some w => simp only [rename, Option.map_some, agrees.wrapper w (seen' w (live w rfl))]
  | record v => simp only [rename, Wrapper.rename, agrees.node _ (seen _ live)]
  | node x => rw [rename, rename, agrees.node x (seen x live)]
  | _ => rfl

theorem Call.rename_congr {c : Call} (agrees : Agrees r r' nodes wrappers)
    (named : ∀ x ∈ c.nodes, nodes x) (named' : ∀ w ∈ c.wrappers, wrappers w) :
    c.rename r' = c.rename r := by
  cases c with
  | ask q w => rw [rename, rename, agrees.wrapper w (named' w (by simp [Call.wrappers]))]
  | request q =>
    cases q with
    | wrap x => simp only [rename, Request.rename, agrees.node x (named x (by simp [Call.nodes]))]
    | root w | unroot w | follow _ w | set _ w =>
      simp only [rename, Request.rename,
        agrees.wrapper w (named' w (by simp [Call.wrappers, Request.wrappers]))]
    | apply m =>
      have same : ∀ w ∈ m.wrappers, r'.wrapper w = r.wrapper w := fun w hw =>
        agrees.wrapper w (named' w hw)
      cases m <;> simp [Mutation.wrappers] at same <;>
        simp [rename, Request.rename, Mutation.rename, same]
    | parse _ | newNode _ | collect | maybeCollect => rfl

/-! ## Questions -/

theorem Shadows.nodeOf (h : Shadows r nodes wrappers a b) (ready : Ready a)
    (hw : a.heap.contains w) :
    ∃ x, a.forest.contains x ∧ a.nodeOf w = .ok x ∧ b.nodeOf (r.wrapper w) = .ok (r.node x) := by
  obtain ⟨x, hx, e, e'⟩ := h.store.wrappedNode ready.paired hw
  have hx' := h.store.forest.mirrors.contains hx
  exact ⟨x, hx, by simp [Workspace.nodeOf, e, hx], by simp [Workspace.nodeOf, e', hx']⟩

/-- An answer without names is the same on both sides. -/
theorem alike_map {ε α : Type} (e : Except ε α) (k : α → Answer)
    (nameless : ∀ v, (k v).rename r = k v ∧ (k v).Live a) :
    Alike (fun p p' => p' = p.rename r ∧ p.Live a) (e.map k) (e.map k) := by
  cases e with
  | error e => exact .error e
  | ok v => exact .ok ⟨(nameless v).1.symm, (nameless v).2⟩

/-- Questions about a live wrapper have the same answers. -/
theorem Shadows.ask (h : Shadows r nodes wrappers a b) (ready : Ready a) (hw : a.heap.contains w)
    (q : Query) :
    Alike (fun p p' => p' = p.rename r ∧ p.Live a) (a.ask q w) (b.ask q (r.wrapper w)) := by
  obtain ⟨v, hv, e, e'⟩ := h.store.wrapper hw
  obtain ⟨x, hx, node, node'⟩ := h.nodeOf ready hw
  have mirrors := h.store.forest.mirrors
  have hf := h.store.forest.linked
  have hg := h.store.forest.linked'
  have htmlWith : ∀ o, b.htmlWith o (r.wrapper w) = a.htmlWith o w := fun o => by
    rw [Workspace.htmlWith, Workspace.htmlWith, node, node', ok_bind, ok_bind, mirrors.html hf hg o hx]
  cases q with
  | record =>
    rw [Workspace.ask, Workspace.ask, e, e']
    exact .ok ⟨rfl, ready.paired.live hv⟩
  | node =>
    rw [Workspace.ask, Workspace.ask, node, node']
    exact .ok ⟨rfl, hx⟩
  | kind =>
    have same : b.kind (r.wrapper w) = a.kind w := by
      rw [Workspace.kind, Workspace.kind, node, node', ok_bind, ok_bind, mirrors.kind hx]
    rw [Workspace.ask, Workspace.ask, same]
    exact alike_map _ _ fun _ => ⟨rfl, trivial⟩
  | ownership =>
    rw [Workspace.ask, Workspace.ask, Workspace.ownership, Workspace.ownership, e, e']
    exact .ok ⟨rfl, trivial⟩
  | field field =>
    have same : b.get field.read (r.wrapper w) = a.get field.read w := by
      rw [Workspace.get, Workspace.get, node, node', ok_bind, ok_bind, mirrors.get hx]
    rw [Workspace.ask, Workspace.ask, same]
    exact alike_map _ _ fun _ => ⟨rfl, trivial⟩
  | html =>
    rw [Workspace.ask, Workspace.ask, Workspace.html, Workspace.html, h.settings, htmlWith]
    exact alike_map _ _ fun _ => ⟨rfl, trivial⟩
  | htmlWith o =>
    rw [Workspace.ask, Workspace.ask, htmlWith]
    exact alike_map _ _ fun _ => ⟨rfl, trivial⟩
  | commonMark =>
    have same : b.commonMark (r.wrapper w) = a.commonMark w := by
      rw [Workspace.commonMark, Workspace.commonMark, node, node', ok_bind, ok_bind,
        mirrors.commonMark hf hg hx]
    rw [Workspace.ask, Workspace.ask, same]
    exact alike_map _ _ fun _ => ⟨rfl, trivial⟩

/-! ## Requests -/

/-- How a workspace and one that shadows it go on after a call, the names used so far kept. -/
structure Continues (r r' : Renaming) (nodes : NodeId → Prop) (wrappers : WrapperId → Prop)
    (a b : Workspace) : Prop where
  agrees : Agrees r r' nodes wrappers
  shadows : Shadows r' (Known nodes a.forest.contains) (Known wrappers a.heap.contains) a b

theorem Shadows.continues (h : Shadows r nodes wrappers a b) :
    Continues r r nodes wrappers a b :=
  ⟨⟨fun _ _ => rfl, fun _ _ => rfl⟩,
    { h.store.know with forest := h.store.forest.know
                        wrapped := fun hy => (h.store.wrapped hy).imp fun _ => .imp_left .inl },
    h.settings⟩

/-- Corresponding answers, and workspaces that go on. -/
def Corresponds (r : Renaming) (nodes : NodeId → Prop) (wrappers : WrapperId → Prop)
    (p q : Answer × Workspace) : Prop :=
  ∃ r', q.1 = p.1.rename r' ∧ p.1.Live p.2 ∧ Continues r r' nodes wrappers p.2 q.2

/-- Corresponding results of a call give corresponding answers, and a call that fails leaves both
workspaces as they are. -/
theorem Shadows.outcome {α β : Type} {e : Except WorkspaceError (α × Workspace)}
    {e' : Except WorkspaceError (β × Workspace)} {k : α → Answer} {l : β → Answer}
    (h : Shadows r nodes wrappers a b)
    (alike : Alike (fun p q => Corresponds r nodes wrappers (k p.1, p.2) (l q.1, q.2)) e e') :
    ∃ r', Alike (fun p p' => p' = p.rename r' ∧ p.Live (a.orElse e))
        (e.map fun p => k p.1) (e'.map fun q => l q.1) ∧
      Continues r r' nodes wrappers (a.orElse e) (b.orElse e') := by
  cases alike with
  | ok corresponds =>
    obtain ⟨r', renamed, live, continues⟩ := corresponds
    exact ⟨r', .ok ⟨renamed, live⟩, continues⟩
  | error cause => exact ⟨r, .error cause, h.continues⟩

/-- A call that answers nothing else than that it is done. -/
theorem Shadows.silent {e e' : Except WorkspaceError Workspace} (h : Shadows r nodes wrappers a b)
    (alike : Alike (fun p q => Corresponds r nodes wrappers (.done, p) (.done, q)) e e') :
    ∃ r', Alike (fun p p' : Answer => p' = p.rename r' ∧ p.Live (a.orElse (do return ((), ← e))))
        (e.map fun _ => .done) (e'.map fun _ => .done) ∧
      Continues r r' nodes wrappers (a.orElse (do return ((), ← e)))
        (b.orElse (do return ((), ← e'))) := by
  have answers : Alike (fun p q : Unit × Workspace =>
      Corresponds r nodes wrappers (.done, p.2) (.done, q.2)) (do return ((), ← e))
      (do return ((), ← e')) := alike.bind fun _ _ corresponds => .ok corresponds
  have silent (x : Except WorkspaceError Workspace) : x.map (fun _ => Answer.done) =
      (do return ((), ← x) : Except WorkspaceError (Unit × Workspace)).map fun _ => .done := by
    cases x <;> rfl
  rw [silent e, silent e']
  exact h.outcome (k := fun _ => .done) (l := fun _ => .done) answers

theorem known_known {α : Type} (known : α → Prop) (used : α → Bool) :
    Known (Known known used) used = Known known used := by
  funext z
  simp [Known]

/-- A node is wrapped on both sides. -/
theorem Shadows.wrap {a' : Workspace} (h : Shadows r nodes wrappers a b) (paired : Paired a.toStore)
    (hx : a.forest.contains x) (e : a.wrap x = .ok (w, a'))
    (new : ∀ u, wrappers u → a'.heap.contains u → a.heap.contains u) :
    ∃ τ b', b.wrap (r.node x) = .ok (τ w, b') ∧ a'.heap.contains w ∧
      Continues r ⟨r.node, τ⟩ nodes wrappers a' b' := by
  obtain ⟨-, paired', found⟩ := wrap_extends paired e
  obtain ⟨v, hv, -⟩ := paired'.inverse.mp found
  obtain ⟨⟨w, t⟩, made, ⟨⟩⟩ := bind_eq_ok.mp e
  obtain ⟨τ, t', made', wrapping⟩ := h.store.materialize hx (mapError_eq_ok.mp made) new
  have wrapped : Shadows ⟨r.node, τ⟩ nodes (Known wrappers t.heap.contains) (a.withStore t)
      (b.withStore t') := ⟨wrapping.shadows, h.settings⟩
  have continues := wrapped.continues.shadows
  rw [show (a.withStore t).heap = t.heap from rfl, known_known] at continues
  exact ⟨τ, b.withStore t', by simp [Workspace.wrap, made'], Arena.contains_iff.mpr ⟨v, hv⟩,
    ⟨fun _ _ => rfl, wrapping.same⟩, continues⟩

/-- A tree is made on both sides, and its root is wrapped. -/
theorem Shadows.wrapMade {a' : Workspace} {f g : Forest} {ρ : Equiv.Perm NodeId}
    (h : Shadows r nodes wrappers a b) (ready : Ready a) (same : ∀ z, nodes z → ρ z = r.node z)
    (forest : f.Shadows ρ (Known nodes f.contains) g) (paired : Paired { a.toStore with forest := f })
    (hx : f.contains x) (e : Workspace.wrap { a with forest := f } x = .ok (w, a'))
    (new : ∀ z, nodes z → a'.forest.contains z → a.forest.contains z)
    (new' : ∀ u, wrappers u → a'.heap.contains u → a.heap.contains u) :
    ∃ r' b', Workspace.wrap { b with forest := g } (ρ x) = .ok (r'.wrapper w, b') ∧
      a'.heap.contains w ∧ Continues r r' nodes wrappers a' b' := by
  have kept : a'.forest = f := (@wrap_extends { a with forest := f } _ _ _ paired e).1.forest
  rw [kept] at new
  have made : Shadows ⟨ρ, r.wrapper⟩ (Known nodes f.contains) wrappers { a with forest := f }
      { b with forest := g } :=
    ⟨h.store.reforest ready.paired same forest (fun _ => .inl) new, h.settings⟩
  obtain ⟨τ, b', e', live, continues⟩ := made.wrap paired hx e new'
  have shadows := continues.shadows
  rw [kept, known_known] at shadows
  exact ⟨⟨ρ, τ⟩, b', e', live, ⟨same, continues.agrees.wrapper⟩, by rw [kept]; exact shadows⟩

/-- A source is read on both sides, or on neither. -/
theorem Shadows.parse (h : Shadows r nodes wrappers a b) (ready : Ready a) (ready' : Ready b)
    (source : String)
    (new : ∀ z, nodes z → (a.parse source).2.forest.contains z → a.forest.contains z)
    (new' : ∀ u, wrappers u → (a.parse source).2.heap.contains u → a.heap.contains u) :
    ∃ r', Alike (fun w w' => w' = r'.wrapper w ∧ (a.parse source).2.heap.contains w)
        (a.parse source).1 (b.parse source).1 ∧
      Continues r r' nodes wrappers (a.parse source).2 (b.parse source).2 := by
  have reads := h.store.forest.read ready.paired.sound ready'.paired.sound a.settings.parse source
  cases read' : b.forest.read b.settings.parse source with
  | mk result' g' =>
    rcases ready.parse_cases source with
      ⟨cause, g, read, parsed⟩ | ⟨x, g, w, a', read, paired, wrapped, parsed⟩
    · rw [parsed] at new ⊢
      rw [read, ← h.settings, read'] at reads
      obtain ⟨τ, same, result, forest⟩ := reads new
      obtain rfl : result' = .error cause := result
      have made : Shadows ⟨τ, r.wrapper⟩ (Known nodes g.contains) wrappers { a with forest := g }
          { b with forest := g' } :=
        ⟨h.store.reforest ready.paired same forest (fun _ => .inl) new, h.settings⟩
      have continues := made.continues.shadows
      rw [known_known] at continues
      rw [show b.parse source = (.error (.parse cause), { b with forest := g' }) by
        simp only [Workspace.parse, read']]
      exact ⟨⟨τ, r.wrapper⟩, .error _, ⟨same, fun _ _ => rfl⟩, continues⟩
    · have kept := (@wrap_extends { a with forest := g } _ _ _ paired wrapped).1.forest
      rw [parsed] at new new' ⊢
      rw [read, ← h.settings, read'] at reads
      obtain ⟨τ, same, result, forest⟩ := reads fun z hz live => new z hz (by rwa [kept])
      obtain rfl : result' = .ok (τ x) := result
      obtain ⟨-, grown⟩ := ready.paired.sound.read_ok read
      obtain ⟨r', b', wrapped', live, continues⟩ := h.wrapMade ready same forest paired
        grown.contains_self wrapped new new'
      rw [show b.parse source = (.ok (r'.wrapper w), b') by
        simp only [Workspace.parse, read', wrapped']]
      exact ⟨r', .ok ⟨rfl, live⟩, continues⟩

theorem Shadows.newNode (h : Shadows r nodes wrappers a b) (ready : Ready a) (k : Kind)
    (new : ∀ z, nodes z → (a.orElse (a.newNode k)).forest.contains z → a.forest.contains z)
    (new' : ∀ u, wrappers u → (a.orElse (a.newNode k)).heap.contains u → a.heap.contains u) :
    Alike (fun p q => Corresponds r nodes wrappers (.wrapper p.1, p.2) (.wrapper q.1, q.2))
      (a.newNode k) (b.newNode k) := by
  obtain ⟨w, a', paired, wrapped, made⟩ := ready.newNode_cases k
  have grown := Forest.grown_newNode ready.paired.sound.linked (.new k)
  have kept := (@wrap_extends { a with forest := _ } _ _ _ paired wrapped).1.forest
  rw [made] at new new' ⊢
  obtain ⟨τ, same, moved, forest⟩ := h.store.forest.newNode (.new k) fun known => by
    have live := new _ known (show a'.forest.contains _ by rw [kept]; exact grown.contains_self)
    simp [grown.fresh] at live
  obtain ⟨r', b', wrapped', live, continues⟩ := h.wrapMade ready same forest paired
    grown.contains_self wrapped new new'
  rw [moved] at wrapped'
  rw [show b.newNode k = .ok (r'.wrapper w, b') from wrapped']
  exact .ok ⟨r', rfl, live, continues⟩

/-- A link is followed on both sides, to copies of the same node. -/
theorem Shadows.follow (h : Shadows r nodes wrappers a b) (ready : Ready a) (link : Link)
    (hw : a.heap.contains w)
    (new : ∀ u, wrappers u → (a.orElse (a.follow link.read w)).heap.contains u →
      a.heap.contains u) :
    Alike (fun p q => Corresponds r nodes wrappers (.link p.1, p.2) (.link q.1, q.2))
      (a.follow link.read w) (b.follow link.read (r.wrapper w)) := by
  obtain ⟨x, hx, node, node'⟩ := h.nodeOf ready hw
  have linked := h.store.forest.mirrors.link h.store.forest.linked hx link
  cases ea : link.read a.forest x <;> cases eb : link.read b.forest (r.node x) <;>
    rw [ea, eb] at linked <;> cases linked
  · simpa [Workspace.follow, node, node', ea, eb] using .error _
  · rename_i o o' there
    obtain ⟨rfl, live⟩ := there
    cases o with
    | none =>
      simp only [Workspace.follow, node, node', ea, eb, ok_bind, mapError_ok, Option.map_none]
      exact .ok ⟨r, rfl, (fun _ e => by cases e), h.continues⟩
    | some y =>
      have hy := live y rfl
      obtain ⟨u, t, wrapped, -⟩ := wrap_ok ready.paired hy
      simp only [Workspace.follow, node, ea, ok_bind, mapError_ok, wrapped] at new
      obtain ⟨τ, b', wrapped', live, continues⟩ := h.wrap ready.paired hy wrapped new
      simp only [Workspace.follow, node, node', ea, eb, ok_bind, mapError_ok, Option.map_some,
        wrapped, wrapped']
      exact .ok ⟨⟨r.node, τ⟩, rfl, fun k e => Option.some.inj e ▸ live, continues⟩

/-- A hold is put on a wrapper, or taken off it, on both sides. -/
theorem Shadows.update {change : Wrapper → Wrapper} (h : Shadows r nodes wrappers a b)
    (hw : a.heap.contains w) (same : ∀ v, change (v.rename r.node) = (change v).rename r.node) :
    Alike (fun p q => Corresponds r nodes wrappers (.done, p) (.done, q))
      (do
        let _ ← a.wrapper w
        return { a with heap := a.heap.update w change })
      (do
        let _ ← b.wrapper (r.wrapper w)
        return { b with heap := b.heap.update (r.wrapper w) change }) := by
  obtain ⟨v, -, e, e'⟩ := h.store.wrapper hw
  rw [e, e', ok_bind, ok_bind]
  have updated : Shadows r nodes wrappers { a with heap := a.heap.update w change }
      { b with heap := b.heap.update (r.wrapper w) change } := ⟨h.store.update w same, h.settings⟩
  exact .ok ⟨r, rfl, trivial, updated.continues⟩

theorem Shadows.set (h : Shadows r nodes wrappers a b) (ready : Ready a) (ready' : Ready b)
    (hw : a.heap.contains w) (v : FieldValue) :
    Alike (fun p q => Corresponds r nodes wrappers (.done, p) (.done, q))
      (a.set v.write w) (b.set v.write (r.wrapper w)) := by
  obtain ⟨x, hx, node, node'⟩ := h.nodeOf ready hw
  rw [Workspace.set, Workspace.set, node, node', ok_bind, ok_bind]
  have written : Alike (fun f g => f.Shadows r.node nodes g ∧ ∀ z, f.contains z = a.forest.contains z)
      (a.forest.set v.write x) (b.forest.set v.write (r.node x)) :=
    (h.store.forest.mirrors.set hx v.write).mono fun f g hf hg mirrors => by
      obtain ⟨_, _, -, -, rewrites⟩ := Forest.set_ok hf
      obtain ⟨_, _, -, -, rewrites'⟩ := Forest.set_ok hg
      exact ⟨⟨mirrors, (ready.paired.sound.set FieldValue.write_ok hf).linked,
        (ready'.paired.sound.set FieldValue.write_ok hg).linked,
        fun hz => h.store.forest.seen ((rewrites.contains_eq _).symm.trans hz),
        fun hz => (rewrites'.contains_eq _).trans (h.store.forest.kept hz)⟩, rewrites.contains_eq⟩
  refine (written.mapError WorkspaceError.forest).bind fun f g changed => ?_
  obtain ⟨forest, same⟩ := changed
  have updated : Shadows r nodes wrappers { a with forest := f } { b with forest := g } :=
    ⟨h.store.reforest ready.paired (fun _ _ => rfl) forest (fun _ => id)
      fun z _ hz => (same z).symm.trans hz, h.settings⟩
  exact .ok ⟨r, rfl, trivial, updated.continues⟩

theorem Shadows.apply {m : Mutation} (h : Shadows r nodes wrappers a b) (ready : Ready a)
    (ready' : Ready b) (live : ∀ w ∈ m.wrappers, a.heap.contains w) :
    Alike (fun p q => Corresponds r nodes wrappers (.transition p.1, p.2) (.transition q.1, q.2))
      (a.apply m) (b.apply (m.rename r.wrapper)) := by
  refine (h.store.apply ready.paired ready'.paired live).bind fun p q applied => ?_
  obtain ⟨same, store⟩ := applied
  have updated : Shadows r nodes wrappers (a.withStore p.2) (b.withStore q.2) := ⟨store, h.settings⟩
  exact .ok ⟨r, by rw [same]; rfl, trivial, updated.continues⟩

/-- A collection on one side only. -/
theorem Shadows.collected {stats : CollectStats} {s : Store} {n : Nat}
    (h : Shadows r nodes wrappers a b) (sound : Forest.Sound s.forest)
    (c : Store.Collected a.toStore s stats) :
    Shadows r nodes wrappers { a.withStore s with collections := n } b :=
  ⟨h.store.collected sound c, h.settings⟩

/-- Any call but a collection has corresponding answers on both sides, if all it names is live. -/
theorem Shadows.call {c : Call} (h : Shadows r nodes wrappers a b) (ready : Ready a)
    (ready' : Ready b) (keeps : c.collects = false) (live : ∀ x ∈ c.nodes, a.forest.contains x)
    (live' : ∀ w ∈ c.wrappers, a.heap.contains w)
    (new : ∀ z, nodes z → (a.afterCall c).forest.contains z → a.forest.contains z)
    (new' : ∀ u, wrappers u → (a.afterCall c).heap.contains u → a.heap.contains u) :
    ∃ r', Alike (fun p p' => p' = p.rename r' ∧ p.Live (a.afterCall c)) (a.answer c)
        (b.answer (c.rename r)) ∧
      Continues r r' nodes wrappers (a.afterCall c) (b.afterCall (c.rename r)) := by
  cases c with
  | ask q w => exact ⟨r, h.ask ready (live' w List.mem_cons_self) q, h.continues⟩
  | request q =>
    cases q with
    | parse source =>
      obtain ⟨r', alike, continues⟩ := h.parse ready ready' source new new'
      exact ⟨r', alike.map fun w w' made => ⟨by rw [made.1]; rfl, made.2⟩, continues⟩
    | newNode k => exact h.outcome (h.newNode ready k new new')
    | wrap x =>
      obtain ⟨w, t, wrapped, -⟩ := wrap_ok ready.paired (live x List.mem_cons_self)
      simp only [Workspace.afterCall, Workspace.after, orElse, wrapped] at new'
      obtain ⟨τ, b', wrapped', hw, continues⟩ :=
        h.wrap ready.paired (live x List.mem_cons_self) wrapped new'
      have alike : Alike (fun p q => Corresponds r nodes wrappers (.wrapper p.1, p.2)
          (.wrapper q.1, q.2)) (a.wrap x) (b.wrap (r.node x)) := by
        rw [wrapped, wrapped']
        exact .ok ⟨_, rfl, hw, continues⟩
      exact h.outcome alike
    | root w => exact h.silent (h.update (live' w List.mem_cons_self) fun _ => rfl)
    | unroot w => exact h.silent (h.update (live' w List.mem_cons_self) fun _ => rfl)
    | follow link w => exact h.outcome (h.follow ready link (live' w List.mem_cons_self) new')
    | set v w => exact h.silent (h.set ready ready' (live' w List.mem_cons_self) v)
    | apply m => exact h.outcome (h.apply ready ready' live')
    | collect | maybeCollect => simp [Call.collects] at keeps

end Steps

end MarkdownForest.Workspace
