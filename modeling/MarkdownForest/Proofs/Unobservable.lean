/-
# MarkdownForest.Proofs.Unobservable -- collections change no answer

A conversation is careful if everything it names has been live at some time and
kept by all collections since: at each of them its tree had a rooted wrapper.
Leaving out the collections of a careful conversation changes no answer, except
for the names of nodes and wrappers, and for these by one renaming.

Without collections fewer slots are used again, so the two conversations give
different names to the same things.  Where a slot is freed as often as there are
generations, a name comes back for something else, and no renaming could serve
all answers; so slots are assumed to be freed less often than that.

* `Held.live`: what is named in a careful conversation is live then;
* `collections_unobservable`: the answers are the same, up to one renaming.
-/
import MarkdownForest.Proofs.Handles
import MarkdownForest.Proofs.WorkspaceShadows

namespace MarkdownForest.Workspace

set_option autoImplicit false

open Store (Kept)

/-! ## Careful conversations -/

/-- Whether a call collects now. -/
def collectsNow (ws : Workspace) : Call → Bool
  | .request .collect => true
  | .request .maybeCollect => !decide (ws.heap.allocatedSinceCollect < ws.settings.gcThreshold)
  | _ => false

/-- What holds at all collections that calls make. -/
def AtCollections (kept : Workspace → Prop) (ws : Workspace) : List Call → Prop
  | [] => True
  | c :: cs => (ws.collectsNow c → kept ws) ∧ AtCollections kept (ws.afterCall c) cs

/-- After some of the calls it was live, and since then all collections have kept it. -/
def Held (live kept : Workspace → Prop) (settings : Settings) (calls : List Call) : Prop :=
  ∃ earlier later, calls = earlier ++ later ∧ live (afterCalls { settings } earlier) ∧
    AtCollections kept (afterCalls { settings } earlier) later

/-- The tree of the node of a wrapper has a rooted wrapper. -/
def KeptWrapper (ws : Workspace) (w : WrapperId) : Prop :=
  ∃ v, ws.heap.get? w = some v ∧ Kept ws.toStore v.node

/-- Every call names wrappers and nodes only that have been obtained and then kept by all
collections. -/
def Careful (settings : Settings) (calls : List Call) : Prop :=
  ∀ before c after, calls = before ++ c :: after →
    (∀ w ∈ c.wrappers, Held (·.heap.contains w) (KeptWrapper · w) settings before) ∧
      ∀ x ∈ c.nodes, Held (·.forest.contains x) (Kept ·.toStore x) settings before

/-- The answers to the calls that are not collections. -/
def observed (ws : Workspace) : List Call → List (Except WorkspaceError Answer)
  | [] => []
  | c :: cs =>
    if c.collects then (ws.afterCall c).observed cs
    else ws.answer c :: (ws.afterCall c).observed cs

section Steps

variable {ws : Workspace} {x : NodeId} {w : WrapperId} {c : Call} {settings : Settings}
  {calls : List Call}

/-- A call that may collect does nothing, or it collects. -/
theorem Ready.collectsNow_cases (h : Ready ws) (collects : c.collects) :
    (ws.collectsNow c = false ∧ ws.afterCall c = ws) ∨
      (ws.collectsNow c ∧ ∃ stats t,
        ws.afterCall c = { ws.withStore t with collections := ws.collections + 1 } ∧
          Store.Collected ws.toStore t stats) := by
  obtain ⟨stats, t, e, collected, -⟩ := h.collect
  cases c with
  | ask q w => simp [Call.collects] at collects
  | request r =>
    cases r with
    | collect =>
      exact .inr ⟨rfl, stats, t, by rw [Workspace.afterCall, Workspace.after, e]; rfl, collected⟩
    | maybeCollect =>
      rw [Workspace.afterCall, Workspace.after, Workspace.maybeCollect, collectsNow]
      split
      · rename_i due
        exact .inl ⟨by simpa using due, rfl⟩
      · rename_i due
        exact .inr ⟨by simpa using due, stats, t, by rw [e]; rfl, collected⟩
    | _ => simp [Call.collects] at collects

/-- A node stays live in every request but a collection. -/
theorem Ready.contains_after (h : Ready ws) {r : Request}
    (keeps : (Call.request r).collects = false) (hx : ws.forest.contains x) :
    (ws.after r).forest.contains x := by
  cases r with
  | parse source =>
    rcases h.parse_cases source with ⟨e, g, read, parsed⟩ | ⟨y, g, u, ws', read, paired, e, parsed⟩
    · rw [Workspace.after, parsed]
      exact ((h.paired.sound.read_error read).2.1 x).trans hx
    · rw [Workspace.after, parsed]
      rw [(@wrap_extends { ws with forest := g } _ _ _ paired e).1.forest]
      exact (h.paired.sound.read_ok read).2.contains_of hx
  | newNode k =>
    obtain ⟨u, ws', paired, e, made⟩ := h.newNode_cases k
    rw [Workspace.after, made, orElse]
    rw [(@wrap_extends { ws with forest := _ } _ _ _ paired e).1.forest]
    exact (Forest.grown_newNode h.paired.sound.linked _).contains_of hx
  | wrap y =>
    refine orElse_eq (P := fun a => a.forest.contains x) hx fun u ws' e => ?_
    rw [(wrap_extends h.paired e).1.forest]
    exact hx
  | follow link u =>
    refine orElse_eq (P := fun a => a.forest.contains x) hx fun found ws' e => ?_
    obtain ⟨y, -, ⟨-, -, rfl⟩ | ⟨z, u, -, -, wrapped⟩⟩ := follow_cases e
    · exact hx
    · rw [(wrap_extends h.paired wrapped).1.forest]
      exact hx
  | root u | unroot u =>
    refine orElse_eq (P := fun a => a.forest.contains x) hx fun _ ws' e => ?_
    obtain ⟨_, e, ⟨⟩⟩ := bind_eq_ok.mp e
    obtain ⟨_, -, ⟨⟩⟩ := bind_eq_ok.mp e
    exact hx
  | set v u =>
    refine orElse_eq (P := fun a => a.forest.contains x) hx fun _ ws' e => ?_
    obtain ⟨_, e, ⟨⟩⟩ := bind_eq_ok.mp e
    obtain ⟨_, -, e⟩ := bind_eq_ok.mp e
    obtain ⟨g, set, ⟨⟩⟩ := bind_eq_ok.mp e
    exact (Forest.reshaped_set (mapError_eq_ok.mp set)).filled.contains hx
  | apply m =>
    refine orElse_eq (P := fun a => a.forest.contains x) hx fun _ ws' e => ?_
    obtain ⟨⟨transition, t⟩, applied, ⟨⟩⟩ := bind_eq_ok.mp e
    obtain ⟨node, -, edited⟩ := (h.paired.applied applied).forest
    exact (Forest.reshaped_edit edited).filled.contains hx
  | collect | maybeCollect => simp [Call.collects] at keeps

/-- A node stays live in a call that does not collect it. -/
theorem Ready.contains_afterCall (h : Ready ws) (hx : ws.forest.contains x)
    (kept : ws.collectsNow c → Kept ws.toStore x) : (ws.afterCall c).forest.contains x := by
  by_cases collects : c.collects
  · rcases h.collectsNow_cases collects with ⟨-, same⟩ | ⟨now, stats, t, collected, done⟩
    · rwa [same]
    · rw [collected]
      exact done.contains_iff.mpr (kept now)
  · cases c with
    | ask q w => exact hx
    | request r => exact h.contains_after (by simpa using collects) hx

/-- A wrapper stays live in a call that does not collect it. -/
theorem Ready.wrapper_afterCall (h : Ready ws) (hw : ws.heap.contains w)
    (kept : ws.collectsNow c → KeptWrapper ws w) : (ws.afterCall c).heap.contains w := by
  by_cases collects : c.collects
  · rcases h.collectsNow_cases collects with ⟨-, same⟩ | ⟨now, stats, t, collected, done⟩
    · rwa [same]
    · obtain ⟨v, hv, kept⟩ := kept now
      rw [collected]
      exact heap_contains_iff.mpr ⟨v, done.wrappers.mpr ⟨hv, kept⟩⟩
  · obtain ⟨v, hv⟩ := heap_contains_iff.mp hw
    rcases On.afterCall ⟨v, hv, rfl⟩ h c with on | ⟨collects', -⟩
    · exact on.contains
    · exact absurd collects' collects

/-- What is held is live. -/
theorem Held.live {live kept : Workspace → Prop} (held : Held live kept settings calls)
    (step : ∀ ws c, Ready ws → live ws → (ws.collectsNow c → kept ws) → live (ws.afterCall c)) :
    live (afterCalls { settings } calls) := by
  obtain ⟨earlier, later, rfl, alive, through⟩ := held
  rw [afterCalls_append]
  have ready := ready_converse settings earlier
  generalize afterCalls { settings } earlier = ws at *
  induction later generalizing ws with
  | nil => exact alive
  | cons c cs ih => exact ih _ (step ws c ready alive through.1) through.2 (ready.afterCall c)

/-! ## What has been seen -/

/-- What was live after some of the calls. -/
def Seen {α : Type} (live : Workspace → α → Bool) (settings : Settings) (calls : List Call) (a : α) :
    Prop :=
  ∃ earlier later, calls = earlier ++ later ∧ live (afterCalls { settings } earlier) a

/-- What is held has been seen. -/
theorem Held.seen {α : Type} {live : Workspace → α → Bool} {kept : Workspace → Prop} {a : α}
    (held : Held (live · a) kept settings calls) : Seen live settings calls a := by
  obtain ⟨earlier, later, split, alive, -⟩ := held
  exact ⟨earlier, later, split, alive⟩

theorem seen_append {α : Type} (live : Workspace → α → Bool) (settings : Settings)
    (calls : List Call) (c : Call) :
    Seen live settings (calls ++ [c]) =
      Known (Seen live settings calls) (live (afterCalls { settings } (calls ++ [c]))) := by
  funext a
  refine propext ⟨?_, ?_⟩
  · rintro ⟨earlier, later, split, alive⟩
    rcases List.eq_nil_or_concat later with rfl | ⟨later, d, rfl⟩
    · exact .inr (by rwa [split, List.append_nil])
    · rw [List.concat_eq_append, ← List.append_assoc] at split
      exact .inl ⟨earlier, later, (List.append_inj' split rfl).1, alive⟩
  · rintro (⟨earlier, later, rfl, alive⟩ | alive)
    · exact ⟨earlier, later ++ [c], List.append_assoc .., alive⟩
    · exact ⟨calls ++ [c], [], (List.append_nil _).symm, alive⟩

/-- Slots are freed less often than there are generations. -/
def FewFrees {ι α : Type} (arena : Workspace → Arena ι α) (settings : Settings)
    (calls : List Call) : Prop :=
  ∀ slot, count (frees arena slot) { settings } calls < UInt32.size

/-- What has been seen and is live after a call was live before it. -/
theorem live_before {ι α : Type} (arena : Workspace → Arena ι α) {k : Key ι}
    {before after : List Call} (seen : Seen (fun ws k => (arena ws).contains k) settings before k)
    (aged : ∀ ws c, Ready ws → Arena.Aged (arena ws) (arena (ws.afterCall c)))
    (few : FewFrees arena settings (before ++ c :: after))
    (again : (arena ((afterCalls { settings } before).afterCall c)).contains k) :
    (arena (afterCalls { settings } before)).contains k := by
  obtain ⟨earlier, later, rfl, alive⟩ := seen
  have ready := ready_converse settings earlier
  rw [afterCalls_append] at again ⊢
  have again : (arena ((afterCalls { settings } earlier).afterCalls (later ++ [c]))).contains k := by
    rwa [afterCalls_append]
  refine stays_live aged ready alive again ?_
  have few := few k.index
  rw [show earlier ++ later ++ c :: after = earlier ++ ((later ++ [c]) ++ after) by simp,
    count_append, count_append _ _ (later ++ [c])] at few
  omega

/-! ## Both conversations -/

/-- Nodes and wrappers that have been seen. -/
def SeenNode : Settings → List Call → NodeId → Prop :=
  Seen fun ws x => ws.forest.contains x

def SeenWrapper : Settings → List Call → WrapperId → Prop :=
  Seen fun ws w => ws.heap.contains w

/-- Nothing has been seen yet. -/
theorem shadows_start (settings : Settings) :
    Shadows ⟨Equiv.refl _, Equiv.refl _⟩ (SeenNode settings []) (SeenWrapper settings [])
      { settings } { settings } := by
  have unseen : ∀ x, ¬ SeenNode settings [] x := by
    rintro x ⟨earlier, later, split, alive⟩
    obtain ⟨rfl, rfl⟩ := List.append_eq_nil_iff.mp split.symm
    simp [Forest.contains, Arena.contains] at alive
  have unseen' : ∀ w, ¬ SeenWrapper settings [] w := by
    rintro w ⟨earlier, later, split, alive⟩
    obtain ⟨rfl, rfl⟩ := List.append_eq_nil_iff.mp split.symm
    simp [Heap.contains, Arena.contains] at alive
  refine ⟨⟨⟨⟨fun hn => ?_⟩, Forest.linked_empty.of_rows, Forest.linked_empty.of_rows, fun hx => ?_,
    fun hx => absurd hx (unseen _)⟩, fun hw => ?_, fun hx => ?_, fun hw => ?_, fun hx => ?_,
    fun hw => absurd hw (unseen' _), fun hy => ?_⟩, rfl⟩
  · simp at hn
  · simp [Forest.contains, Arena.contains] at hx
  · simp [Heap.get?] at hw
  · simp [Forest.contains, Arena.contains] at hx
  · simp [Heap.contains, Arena.contains] at hw
  · simp at hx
  · simp [IdentityTable.contains] at hy

/-- What goes on after a call has seen what is live now. -/
theorem Continues.seen {r r' : Renaming} {b : Workspace} {before : List Call}
    (h : Continues r r' (SeenNode settings before) (SeenWrapper settings before)
      (afterCalls { settings } (before ++ [c])) b) :
    Shadows r' (SeenNode settings (before ++ [c])) (SeenWrapper settings (before ++ [c]))
      (afterCalls { settings } (before ++ [c])) b := by
  rw [SeenNode, SeenWrapper, seen_append, seen_append]
  exact h.shadows

/-- Names seen before are renamed as they were. -/
theorem Agrees.before {r r' : Renaming} {before : List Call}
    (h : Agrees r r' (SeenNode settings (before ++ [c])) (SeenWrapper settings (before ++ [c]))) :
    Agrees r r' (SeenNode settings before) (SeenWrapper settings before) := by
  rw [SeenNode, SeenWrapper, seen_append, seen_append] at h
  exact ⟨fun x hx => h.node x (.inl hx), fun w hw => h.wrapper w (.inl hw)⟩

theorem Agrees.trans {r r' r'' : Renaming} {nodes : NodeId → Prop} {wrappers : WrapperId → Prop}
    (h : Agrees r r' nodes wrappers) (k : Agrees r' r'' nodes wrappers) :
    Agrees r r'' nodes wrappers :=
  ⟨fun x hx => (k.node x hx).trans (h.node x hx), fun w hw => (k.wrapper w hw).trans (h.wrapper w hw)⟩

/-- A collection leaves what has been seen on the other side as it is. -/
theorem Shadows.collection {r : Renaming} {nodes : NodeId → Prop} {wrappers : WrapperId → Prop}
    {b : Workspace} (h : Shadows r nodes wrappers ws b) (ready : Ready ws) (collects : c.collects) :
    Shadows r nodes wrappers (ws.afterCall c) b := by
  rcases ready.collectsNow_cases collects with ⟨-, same⟩ | ⟨-, stats, t, collected, done⟩
  · rwa [same]
  · have sound := (ready.afterCall c).paired.sound
    rw [collected] at sound ⊢
    exact h.collected sound done

/-- Any other call has the same answer on both sides, up to the renaming. -/
theorem Shadows.exchange {r : Renaming} {b : Workspace} {before after : List Call}
    (h : Shadows r (SeenNode settings before) (SeenWrapper settings before)
      (afterCalls { settings } before) b)
    (ready' : Ready b) (keeps : c.collects = false) (careful : Careful settings (before ++ c :: after))
    (few : FewFrees (·.forest.nodes) settings (before ++ c :: after))
    (few' : FewFrees (·.heap.wrappers) settings (before ++ c :: after)) :
    ∃ r', Alike (fun p p' => p' = p.rename r' ∧ p.Live ((afterCalls { settings } before).afterCall c))
        ((afterCalls { settings } before).answer c) (b.answer (c.rename r)) ∧
      Continues r r' (SeenNode settings before) (SeenWrapper settings before)
        ((afterCalls { settings } before).afterCall c) (b.afterCall (c.rename r)) := by
  have ready := ready_converse settings before
  obtain ⟨wrappers, nodes⟩ := careful before c after rfl
  refine h.call ready ready' keeps
    (fun x hx => (nodes x hx).live fun ws c h hx kept => h.contains_afterCall hx kept)
    (fun w hw => (wrappers w hw).live fun ws c h hw kept => h.wrapper_afterCall hw kept)
    (fun z seen live => ?_) fun u seen live => ?_
  · exact live_before (·.forest.nodes) seen (fun ws c h => h.nodes_aged c) few live
  · exact live_before (·.heap.wrappers) seen (fun ws c h => h.heap_aged c) few' live

/-- The rest of a conversation has the same answers on both sides, up to one renaming. -/
theorem Shadows.rest {r : Renaming} {b : Workspace} {before rest : List Call}
    (h : Shadows r (SeenNode settings before) (SeenWrapper settings before)
      (afterCalls { settings } before) b)
    (ready' : Ready b) (careful : Careful settings (before ++ rest))
    (few : FewFrees (·.forest.nodes) settings (before ++ rest))
    (few' : FewFrees (·.heap.wrappers) settings (before ++ rest)) :
    ∃ r', Agrees r r' (SeenNode settings before) (SeenWrapper settings before) ∧
      b.answers ((rest.filter fun c => !c.collects).map (Call.rename r')) =
        ((afterCalls { settings } before).observed rest).map (Except.map (Answer.rename r')) := by
  induction rest generalizing r b before with
  | nil => exact ⟨r, ⟨fun _ _ => rfl, fun _ _ => rfl⟩, rfl⟩
  | cons c rest ih =>
    have ready := ready_converse settings before
    have after : (afterCalls { settings } before).afterCall c =
        afterCalls { settings } (before ++ [c]) := by rw [afterCalls_append]; rfl
    have split : before ++ c :: rest = before ++ [c] ++ rest := by simp
    cases collects : c.collects with
    | true =>
      have continues := (h.collection ready collects).continues
      rw [after] at continues
      rw [split] at careful few few'
      obtain ⟨r', agrees, answers⟩ := ih continues.seen ready' careful few few'
      refine ⟨r', agrees.before, ?_⟩
      rw [observed, if_pos collects, after, ← answers]
      simp [collects]
    | false =>
      obtain ⟨r₁, answer, continues⟩ := h.exchange ready' collects careful few few'
      obtain ⟨wrappers, nodes⟩ := careful before c rest rfl
      rw [after] at answer continues
      rw [split] at careful few few'
      obtain ⟨r', agrees, answers⟩ := ih continues.seen (ready'.afterCall _) careful few few'
      have same := continues.agrees.trans agrees.before
      have called : c.rename r' = c.rename r :=
        c.rename_congr same (fun x hx => (nodes x hx).seen) fun w hw => (wrappers w hw).seen
      have answered : b.answer (c.rename r) =
          ((afterCalls { settings } before).answer c).map (Answer.rename r') := by
        revert answer
        generalize (afterCalls { settings } before).answer c = p
        generalize b.answer (c.rename r) = p'
        rintro (⟨rfl, live⟩ | cause)
        · rw [Except.map, Answer.rename_congr agrees live (fun x hx => continues.seen.store.forest.seen hx)
            fun w hw => continues.seen.store.seen hw]
        · rfl
      refine ⟨r', same, ?_⟩
      rw [observed, if_neg (by simp [collects]), after, List.map_cons, ← answered, ← answers]
      simp [collects, called, Workspace.answers]

/-- Leaving out the collections of a careful conversation changes no answer, up to one renaming of
nodes and wrappers.  Nodes and wrappers in one slot are told apart by generations, which begin again
after `UInt32.size` of them; `few` and `few'` keep every slot from being freed so often.  Otherwise
one name would stand for two things that have different names where nothing is collected, and no
renaming could give both. -/
theorem collections_unobservable (settings : Settings) (calls : List Call)
    (careful : Careful settings calls) (few : FewFrees (·.forest.nodes) settings calls)
    (few' : FewFrees (·.heap.wrappers) settings calls) :
    ∃ r : Renaming,
      answers { settings } ((calls.filter fun c => !c.collects).map (Call.rename r)) =
        (observed { settings } calls).map (Except.map (Answer.rename r)) := by
  obtain ⟨r, -, answers⟩ :=
    (shadows_start settings).rest (ready_start settings) careful few few'
  exact ⟨r, answers⟩

/-- A careful conversation may go on with what is held. -/
theorem Careful.snoc (careful : Careful settings calls)
    (wrappers : ∀ w ∈ c.wrappers, Held (·.heap.contains w) (KeptWrapper · w) settings calls)
    (nodes : ∀ x ∈ c.nodes, Held (·.forest.contains x) (Kept ·.toStore x) settings calls) :
    Careful settings (calls ++ [c]) := by
  intro before d after split
  rcases List.eq_nil_or_concat after with rfl | ⟨after, e, rfl⟩
  · obtain ⟨rfl, last⟩ := List.append_inj' split rfl
    cases last
    exact ⟨wrappers, nodes⟩
  · rw [List.concat_eq_append, ← List.cons_append, ← List.append_assoc] at split
    exact careful before d after (List.append_inj' split rfl).1

end Steps

/-- A paragraph is held while a text is collected, and is asked about then. -/
def tidied : List Call :=
  [.request (.newNode .paragraph), .request (.root ⟨0, 0⟩), .request (.newNode .text),
    .request .collect, .ask .kind ⟨0, 0⟩]

theorem tidied_unobserved :
    Careful {} tidied ∧ FewFrees (·.forest.nodes) {} tidied ∧
      FewFrees (·.heap.wrappers) {} tidied ∧
      ∃ r : Renaming,
        answers {} ((tidied.filter fun c => !c.collects).map (Call.rename r)) =
          (observed {} tidied).map (Except.map (Answer.rename r)) := by
  have made : (afterCalls {} (tidied.take 1)).heap.contains ⟨0, 0⟩ := by decide
  have kept : KeptWrapper (afterCalls {} (tidied.take 3)) ⟨0, 0⟩ :=
    ⟨{ node := ⟨0, 0⟩, ownership := .root, roots := 1 }, rfl, rfl, ⟨0, 0⟩,
      { node := ⟨0, 0⟩, ownership := .root, roots := 1 }, rfl, rfl, rfl⟩
  have held : Held (·.heap.contains ⟨0, 0⟩) (KeptWrapper · ⟨0, 0⟩) {} (tidied.take 4) :=
    ⟨tidied.take 1, (tidied.take 4).drop 1, rfl, made, (fun e => by cases e),
      (fun e => by cases e), fun _ => kept, trivial⟩
  have careful₀ : Careful {} (tidied.take 0) := fun before c after split => by
    simp [tidied] at split
  have careful₁ : Careful {} (tidied.take 1) :=
    careful₀.snoc (c := .request (.newNode .paragraph)) (fun _ h => by cases h) fun _ h => by cases h
  have careful₂ : Careful {} (tidied.take 2) :=
    careful₁.snoc (c := .request (.root ⟨0, 0⟩))
      (fun w hw => List.mem_singleton.mp hw ▸ ⟨tidied.take 1, [], rfl, made, trivial⟩)
      fun _ h => by cases h
  have careful₄ : Careful {} (tidied.take 4) :=
    (careful₂.snoc (c := .request (.newNode .text)) (fun _ h => by cases h)
      fun _ h => by cases h).snoc (c := .request .collect) (fun _ h => by cases h)
      fun _ h => by cases h
  have careful : Careful {} tidied :=
    careful₄.snoc (c := .ask .kind ⟨0, 0⟩) (List.forall_mem_singleton.mpr held) fun _ h => by cases h
  have few : ∀ slot, count (frees (·.forest.nodes) slot) {} tidied < UInt32.size := fun slot =>
    Nat.lt_of_le_of_lt (count_le_length _ _ _) (by decide)
  have few' : ∀ slot, count (frees (·.heap.wrappers) slot) {} tidied < UInt32.size := fun slot =>
    Nat.lt_of_le_of_lt (count_le_length _ _ _) (by decide)
  exact ⟨careful, few, few', collections_unobservable {} tidied careful few few'⟩

end MarkdownForest.Workspace
