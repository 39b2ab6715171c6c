/-
# MarkdownForest.Proofs.Lifetimes -- nodes made and nodes freed

A node is live from when it is made to when it is freed.  The history of a run
says which nodes are made and which are freed, in order (`Forest.history`).  For
every slot of the arena it has a node made there, that node freed, the node of the
next generation made, and so on (`Lives.turns`); so nothing is freed that has not
been made since it was freed last, and no node is freed twice before its slot has
gone through all generations.

The counters of a forest count the history (`recorded_run`).  `run_freeSubtree`
puts this together with what freeing a node does.
-/
import MarkdownForest.Proofs.Ledger
import MarkdownForest.Proofs.Requests
import MarkdownForest.Proofs.Subtrees

namespace MarkdownForest

set_option autoImplicit false

/-! ## Slots -/

namespace Arena

variable {ι α : Type} {a b : Arena ι α} {k : Key ι} {v : α}

/-- The generation of a slot, and whether it holds a value. -/
def state (a : Arena ι α) (i : Nat) : UInt32 × Bool :=
  (a.generation i, a.occupied i)

theorem state_alloc (a : Arena ι α) (v : α) :
    let k := (a.alloc v).1
    a.state k.index = (k.generation, false) ∧
      (a.alloc v).2.state = Function.update a.state k.index (k.generation, true) := by
  cases free : a.free with
  | nil =>
    obtain ⟨key, slots, -⟩ := alloc_grows free v
    simp only [key]
    refine ⟨by simp [state, generation, occupied], funext fun i => ?_⟩
    by_cases e : i = a.slots.size
    · subst e
      simp [state, generation, occupied, slots]
    · simp [state, generation, occupied, slots, Array.getElem?_push, e]
  | cons j rest =>
    obtain ⟨key, slots, -⟩ := alloc_reuses free v
    obtain ⟨s, hs, vacant⟩ := a.vacant_of_free j (by simp [free])
    obtain ⟨hlt, hs'⟩ := Array.getElem?_eq_some_iff.mp hs
    simp only [key]
    refine ⟨by simp [state, occupied, hs, vacant], funext fun i => ?_⟩
    by_cases e : i = j
    · subst e
      simp [state, generation, occupied, slots, hlt]
    · simp [state, generation, occupied, slots, Array.getElem?_setIfInBounds_ne (Ne.symm e), e]

theorem state_live (h : a.contains k) : a.state k.index = (k.generation, true) := by
  obtain ⟨occupied, generation⟩ := contains_iff_slot.mp h
  rw [state, occupied, generation]

theorem state_erase (h : a.contains k) :
    (a.erase k).state = Function.update a.state k.index (k.generation + 1, false) := by
  obtain ⟨v, hv⟩ := contains_iff.mp h
  obtain ⟨hlt, -⟩ := Array.getElem?_eq_some_iff.mp (get?_eq_some_iff.mp hv)
  obtain ⟨slots, -⟩ := erase_slots h
  refine funext fun i => ?_
  by_cases e : i = k.index
  · subst e
    simp [state, generation, occupied, slots, hlt]
  · simp [state, generation, occupied, slots, Array.getElem?_setIfInBounds_ne (Ne.symm e), e]

/-- With nothing stored or erased, slots stay as they are. -/
theorem state_eq (filled : Filled a b) (emptied : Emptied a b) : b.state = a.state := by
  refine funext fun i => ?_
  rcases emptied i with ⟨g, o⟩ | ⟨g, -, -⟩
  · rw [state, state, g, o]
  · rw [filled.generation i] at g
    simp at g

end Arena

/-! ## Histories -/

/-- A node is made, or is freed. -/
inductive Event where
  | made (x : NodeId)
  | freed (x : NodeId)
  deriving DecidableEq

namespace Event

def node : Event → NodeId
  | made x | freed x => x

/-- What the slot of the node is like before. -/
def before : Event → UInt32 × Bool
  | made x => (x.generation, false)
  | freed x => (x.generation, true)

/-- What the slot of the node is like after. -/
def after : Event → UInt32 × Bool
  | made x => (x.generation, true)
  | freed x => (x.generation + 1, false)

/-- The node that is made. -/
def made? : Event → Option NodeId
  | made x => some x
  | freed _ => none

/-- The node that is freed. -/
def freed? : Event → Option NodeId
  | made _ => none
  | freed x => some x

/-- The events of a slot, one after the other. -/
def turn (i n : Nat) : Event :=
  if n % 2 = 0 then made ⟨i, .ofNat (n / 2)⟩ else freed ⟨i, .ofNat (n / 2)⟩

/-- What a slot is like after so many events. -/
def stage (n : Nat) : UInt32 × Bool :=
  (.ofNat (n / 2), n % 2 = 1)

theorem eq_turn {e : Event} {n : Nat} (h : e.before = stage n) :
    e = turn e.node.index n ∧ e.after = stage (n + 1) := by
  cases e with
  | made x =>
    obtain ⟨g, even⟩ := Prod.mk.inj h
    have even : n % 2 = 0 := by
      have : ¬ n % 2 = 1 := by simpa using even
      omega
    have half : (n + 1) / 2 = n / 2 := by omega
    have odd : (n + 1) % 2 = 1 := by omega
    constructor
    · rw [turn, if_pos even, ← g]
      rfl
    · simp [after, stage, half, odd, g]
  | freed x =>
    obtain ⟨g, odd⟩ := Prod.mk.inj h
    have odd : n % 2 = 1 := by simpa using odd
    have half : (n + 1) / 2 = n / 2 + 1 := by omega
    have even : ¬ (n + 1) % 2 = 1 := by omega
    constructor
    · rw [turn, if_neg (by omega), ← g]
      rfl
    · simp [after, stage, half, even, g, UInt32.ofNat_add]

end Event

/-- The events lead from slots that are like `σ` to slots that are like `τ`. -/
def Lives (σ : Nat → UInt32 × Bool) : List Event → (Nat → UInt32 × Bool) → Prop
  | [], τ => τ = σ
  | e :: es, τ =>
    σ e.node.index = e.before ∧ Lives (Function.update σ e.node.index e.after) es τ

namespace Lives

variable {σ τ υ : Nat → UInt32 × Bool} {es ds : List Event}

theorem append (h : Lives σ es τ) (k : Lives τ ds υ) : Lives σ (es ++ ds) υ := by
  induction es generalizing σ with
  | nil =>
    cases h
    exact k
  | cons e es ih => exact ⟨h.1, ih h.2⟩

theorem behind (h : Lives σ (es ++ ds) υ) : ∃ τ, Lives τ ds υ := by
  induction es generalizing σ with
  | nil => exact ⟨σ, h⟩
  | cons e es ih => exact ih h.2

/-- A node is made before it is freed, unless it is live. -/
theorem made_before {x : NodeId} (h : Lives σ (es ++ .freed x :: ds) τ)
    (away : σ x.index ≠ (x.generation, true)) : .made x ∈ es := by
  induction es generalizing σ with
  | nil => exact absurd h.1 away
  | cons e es ih =>
    obtain ⟨-, rest⟩ := h
    by_cases made : e = .made x
    · exact List.mem_cons.mpr (.inl made.symm)
    · refine List.mem_cons_of_mem e (ih rest ?_)
      by_cases here : x.index = e.node.index
      · rw [here, Function.update_self]
        cases e with
        | made y =>
          intro same
          exact made (congrArg Event.made (Key.ext here.symm (Prod.mk.inj same).1))
        | freed y =>
          intro same
          cases (Prod.mk.inj same).2
      · rwa [Function.update_of_ne here]

/-- Between two times that a node is freed it is made again. -/
theorem remade {x : NodeId} (h : Lives σ (.freed x :: (es ++ .freed x :: ds)) τ) :
    .made x ∈ es := by
  refine made_before h.2 ?_
  rw [Event.node, Function.update_self]
  intro same
  cases (Prod.mk.inj same).2

/-- The events of a slot are its turns. -/
theorem turns {i n : Nat} (h : Lives σ es τ) (start : σ i = Event.stage n) :
    ∃ count, es.filter (·.node.index = i) = (List.range' n count).map (Event.turn i) := by
  induction es generalizing σ n with
  | nil => exact ⟨0, rfl⟩
  | cons e es ih =>
    obtain ⟨before, rest⟩ := h
    by_cases here : e.node.index = i
    · rw [here, start] at before
      obtain ⟨turn, after⟩ := Event.eq_turn before.symm
      obtain ⟨count, ih⟩ := ih rest (n := n + 1) (by rw [here, Function.update_self, after])
      refine ⟨count + 1, ?_⟩
      rw [List.filter_cons_of_pos (by simpa using here), ih, List.range'_succ, List.map_cons]
      rw [here] at turn
      rw [← turn]
    · obtain ⟨count, ih⟩ := ih rest (n := n) (by
        rw [Function.update_of_ne (Ne.symm here), start])
      exact ⟨count, by rw [List.filter_cons_of_neg (by simpa using here), ih]⟩

end Lives

/-- The nodes made in the course of events. -/
def madeIn (es : List Event) : List NodeId :=
  es.filterMap Event.made?

/-- The nodes freed in the course of events. -/
def freedIn (es : List Event) : List NodeId :=
  es.filterMap Event.freed?

@[simp] theorem madeIn_nil : madeIn [] = [] := rfl

@[simp] theorem freedIn_nil : freedIn [] = [] := rfl

@[simp] theorem madeIn_append (es ds : List Event) : madeIn (es ++ ds) = madeIn es ++ madeIn ds :=
  List.filterMap_append

@[simp] theorem madeIn_map_made (xs : List NodeId) : madeIn (xs.map .made) = xs := by
  simp [madeIn, List.filterMap_map, Function.comp_def, Event.made?]

@[simp] theorem madeIn_map_freed (xs : List NodeId) : madeIn (xs.map .freed) = [] := by
  simp [madeIn, List.filterMap_map, Function.comp_def, Event.made?]

@[simp] theorem freedIn_map_made (xs : List NodeId) : freedIn (xs.map .made) = [] := by
  simp [freedIn, List.filterMap_map, Function.comp_def, Event.freed?]

@[simp] theorem freedIn_map_freed (xs : List NodeId) : freedIn (xs.map .freed) = xs := by
  simp [freedIn, List.filterMap_map, Function.comp_def, Event.freed?]

@[simp] theorem freedIn_made (x : NodeId) (es : List Event) :
    freedIn (.made x :: es) = freedIn es := rfl

@[simp] theorem freedIn_freed (x : NodeId) (es : List Event) :
    freedIn (.freed x :: es) = x :: freedIn es := rfl

@[simp] theorem freedIn_append (es ds : List Event) :
    freedIn (es ++ ds) = freedIn es ++ freedIn ds :=
  List.filterMap_append

theorem filter_freedIn (es : List Event) (i : Nat) :
    (freedIn es).filter (·.index = i) = freedIn (es.filter (·.node.index = i)) := by
  induction es with
  | nil => rfl
  | cons e es ih =>
    cases e with
    | made x => by_cases here : x.index = i <;> simpa [Event.node, List.filter_cons, here] using ih
    | freed x => by_cases here : x.index = i <;> simpa [Event.node, List.filter_cons, here] using ih

/-- Of the turns of a slot, every other frees. -/
theorem freedIn_turns (i n : Nat) : freedIn ((List.range n).map (Event.turn i)) =
    (List.range (n / 2)).map fun j => ⟨i, .ofNat j⟩ := by
  induction n with
  | zero => rfl
  | succ n ih =>
    rw [List.range_succ, List.map_append, freedIn_append, ih]
    by_cases even : n % 2 = 0
    · have half : (n + 1) / 2 = n / 2 := by omega
      simp [Event.turn, even, half]
    · have half : (n + 1) / 2 = n / 2 + 1 := by omega
      simp [Event.turn, even, half, List.range_succ]

/-- Nodes of which each slot has the generations in order are distinct, if there are not more than
there are generations. -/
theorem nodup_of_slots {xs : List NodeId} {count : Nat → Nat}
    (slots : ∀ i, xs.filter (·.index = i) = (List.range (count i)).map fun j => ⟨i, .ofNat j⟩)
    (few : ∀ i, count i ≤ UInt32.size) : xs.Nodup := by
  refine List.nodup_iff_count_le_one.mpr fun x => ?_
  have slot : ((List.range (count x.index)).map
      fun j => (⟨x.index, .ofNat j⟩ : NodeId)).Nodup := by
    refine List.Nodup.map_on (fun j hj k hk same => ?_) List.nodup_range
    have words : ∀ m ∈ List.range (count x.index), (UInt32.ofNat m).toNat = m := fun m hm =>
      UInt32.toNat_ofNat_of_lt' ((List.mem_range.mp hm).trans_le (few _))
    have same : UInt32.ofNat j = UInt32.ofNat k := congrArg Key.generation same
    rw [← words j hj, ← words k hk, same]
  rw [← List.count_filter (p := (·.index = x.index)) (by simp), slots]
  exact List.nodup_iff_count_le_one.mp slot x

/-! ## What each call makes and frees -/

namespace Forest

mutual
/-- The nodes that planting a tree makes, in order. -/
def planted (f : Forest) : Tree → List NodeId
  | .node c ts => (f.newNode c).1 :: plantedBelow (f.newNode c).2 (f.newNode c).1 ts

def plantedBelow (f : Forest) (x : NodeId) : List Tree → List NodeId
  | [] => []
  | t :: ts => planted f t ++ plantedBelow ((f.plant t).2.place x (f.plant t).1) x ts
end

/-- What happens to nodes in a request. -/
def events (f : Forest) : Request → List Event
  | .newNode k => [.made (f.newNode (.new k)).1]
  | .read o source =>
    let parsed := readSource o source.toList
    let (x, g) := f.plant parsed.documentMade
    let made := (f.planted parsed.documentMade).map Event.made
    match parsed.error? with
    | none => made
    | some _ => made ++ (g.freedNodes x).map .freed
  | .freeSubtree x => (f.freedNodes x).map .freed
  | _ => []

/-- What happens to nodes in the course of requests. -/
def history (f : Forest) : List Request → List Event
  | [] => []
  | r :: rs => f.events r ++ (f.after r).history rs

/-- `g` is what `f` has become through the events, and has counted them. -/
structure Recorded (f g : Forest) (es : List Event) : Prop where
  lives : Lives f.nodes.state es g.nodes.state
  allocated : g.allocated = f.allocated + (madeIn es).length
  freed : g.freed = f.freed + (freedIn es).length

section Recorded

variable {f g h : Forest} {es ds : List Event} {x : NodeId}

protected theorem Recorded.trans (r : Recorded f g es) (s : Recorded g h ds) :
    Recorded f h (es ++ ds) where
  lives := r.lives.append s.lives
  allocated := by rw [s.allocated, r.allocated, madeIn_append, List.length_append, Nat.add_assoc]
  freed := by rw [s.freed, r.freed, freedIn_append, List.length_append, Nat.add_assoc]

/-- Changing records makes and frees nothing. -/
theorem Updated.recorded (u : Updated f g) : Recorded f g [] := by
  obtain ⟨-, allocated, freed⟩ := u.counters
  exact ⟨Arena.state_eq u.reshaped.filled u.reshaped.emptied, allocated, freed⟩

theorem recorded_newNode (f : Forest) (c : Content) :
    Recorded f (f.newNode c).2 [.made (f.newNode c).1] where
  lives := f.nodes.state_alloc _
  allocated := rfl
  freed := rfl

theorem recorded_place (f : Forest) (p x : NodeId) : Recorded f (f.place p x) [] := by
  unfold place
  split
  · rename_i g h
    exact (updated_appendChild h).recorded
  · exact Updated.refl.recorded

mutual
/-- Planting a tree makes its nodes. -/
theorem recorded_plant (f : Forest) :
    (t : Tree) → Recorded f (f.plant t).2 ((f.planted t).map .made)
  | .node c ts => by
    rw [planted, List.map_cons]
    exact (f.recorded_newNode c).trans (recorded_plantBelow _ _ ts)

theorem recorded_plantBelow (f : Forest) (x : NodeId) :
    (ts : List Tree) → Recorded f (f.plantBelow x ts) ((f.plantedBelow x ts).map .made)
  | [] => Updated.refl.recorded
  | t :: ts => by
    rw [plantedBelow, List.map_append]
    have first := (recorded_plant f t).trans (recorded_place _ x (f.plant t).1)
    rw [List.append_nil] at first
    exact first.trans (recorded_plantBelow _ x ts)
end

/-- Releasing a stack frees each node while it is live. -/
theorem lives_release (f : Forest) (stack : List NodeId) :
    Lives f.nodes.state ((f.released stack).map .freed) (f.release stack).2.nodes.state := by
  induction f, stack using release.induct with
  | case1 f =>
    rw [released_nil, release_nil]
    rfl
  | case2 f x stack hx ih => rwa [released_stale hx, release_stale hx]
  | case3 f x stack n hx g _ _ _ ih =>
    have live : f.contains x := contains_iff.mpr ⟨n, hx⟩
    rw [released_live hx, release_live hx, List.map_cons]
    refine ⟨Arena.state_live live, ?_⟩
    rw [show Event.node (.freed x) = x from rfl, show Event.after (.freed x) =
      (x.generation + 1, false) from rfl, ← Arena.state_erase live]
    exact ih

theorem recorded_freeSubtree {count : Nat} (e : f.freeSubtree x = .ok (count, g)) :
    Recorded f g ((f.freedNodes x).map .freed) := by
  obtain ⟨f', unlinked, nodes, counted, rfl⟩ := freeSubtree_ok e
  have u := (updated_detach unlinked).recorded
  obtain ⟨allocated, freed⟩ := release_counters f' [x]
  refine ⟨?_, ?_, ?_⟩
  · rw [nodes]
    exact u.lives.append (lives_release f' [x])
  · simpa [allocated] using u.allocated
  · have := u.freed
    simp only [freedIn_map_freed]
    rw [freed, counted, this]
    rfl

theorem recorded_erase (f : Forest) (x : NodeId) :
    Recorded f (f.erase x).2 ((f.freedNodes x).map .freed) := by
  unfold Forest.erase
  split
  · rename_i freed h
    exact recorded_freeSubtree h
  · rename_i failed
    rw [freedNodes_error failed]
    exact Updated.refl.recorded

theorem recorded_read (f : Forest) (o : ParseOptions) (source : String) :
    Recorded f (f.read o source).2 (f.events (.read o source)) := by
  have planted := f.recorded_plant (readSource o source.toList).documentMade
  unfold read events
  dsimp only
  cases (readSource o source.toList).error? with
  | none => exact planted
  | some e => exact planted.trans (recorded_erase _ _)

/-- A request makes and frees what its events say. -/
theorem recorded_after (f : Forest) (r : Request) : Recorded f (f.after r) (f.events r) := by
  cases h : f.perform r with
  | error e =>
    have same : f.after r = f := by rw [Forest.after, h]
    have nothing : f.events r = [] := by
      cases r with
      | newNode | read => cases h
      | freeSubtree x =>
        rcases bind_eq_error.mp h with failed | ⟨_, -, ⟨⟩⟩
        rw [events, freedNodes_error failed, List.map_nil]
      | _ => rfl
    rw [same, nothing]
    exact Updated.refl.recorded
  | ok g =>
    have becomes : f.after r = g := by rw [Forest.after, h]
    rw [becomes]
    cases r with
    | newNode k =>
      cases h
      exact f.recorded_newNode _
    | read o source =>
      cases h
      exact f.recorded_read o source
    | freeSubtree x =>
      obtain ⟨freed, freeing, ⟨⟩⟩ := bind_eq_ok.mp h
      exact recorded_freeSubtree freeing
    | unlink x => exact (updated_detach h).recorded
    | set v x => exact (updated_set h).recorded
    | appendChild | prependChild | insertBefore | insertAfter => exact (updated_move h).recorded

theorem recorded_history (f : Forest) (rs : List Request) :
    Recorded f (rs.foldl Forest.after f) (f.history rs) := by
  induction rs generalizing f with
  | nil => exact Updated.refl.recorded
  | cons r rs ih => exact (recorded_after f r).trans (ih _)

end Recorded

/-- The history of a run counts what the counters do, and the events of each slot are its turns.  So
a node that is freed again has been made again, which takes that its slot has been freed more often
than it has generations. -/
theorem run_history (rs : List Request) :
    let events := ({} : Forest).history rs
    (madeIn events).length = (run rs).allocated ∧ (freedIn events).length = (run rs).freed ∧
      (∀ i, ∃ count, events.filter (·.node.index = i) = (List.range count).map (Event.turn i)) ∧
      (∀ x before between after,
        events = before ++ .freed x :: (between ++ .freed x :: after) → .made x ∈ between) ∧
      ((∀ i, (freedIn events).countP (·.index = i) ≤ UInt32.size) → (freedIn events).Nodup) := by
  intro events
  obtain ⟨lives, allocated, freed⟩ : Recorded {} (run rs) events := recorded_history {} rs
  have turns : ∀ i, ∃ count,
      events.filter (·.node.index = i) = (List.range count).map (Event.turn i) := by
    intro i
    obtain ⟨count, turns⟩ := lives.turns (i := i) (n := 0) rfl
    exact ⟨count, by rw [turns, List.range_eq_range']⟩
  refine ⟨?_, ?_, turns, ?_, fun few => nodup_of_slots (fun i => ?_) few⟩
  · rw [allocated]
    exact (Nat.zero_add _).symm
  · rw [freed]
    exact (Nat.zero_add _).symm
  · intro x before between after twice
    rw [twice] at lives
    obtain ⟨_, rest⟩ := lives.behind
    exact rest.remade
  · obtain ⟨count, turns⟩ := turns i
    have slot : (freedIn events).filter (·.index = i) =
        (List.range (count / 2)).map fun j => ⟨i, .ofNat j⟩ := by
      rw [filter_freedIn, turns, freedIn_turns]
    have size : (freedIn events).countP (·.index = i) = count / 2 := by
      rw [List.countP_eq_length_filter, slot, List.length_map, List.length_range]
    rw [size, slot]

/-- After any requests, the nodes made are those live and those freed.  Both are counted as they
happen: in each slot a node is made, then freed, then that of the next generation is made, and so
on.  So no node is counted as freed twice: it would have to be made again in between, and no node is
unless its slot has been freed more often than it has generations.

Freeing a live node comes to an end, also along the links as they are read while nodes are already
gone.  It frees the nodes at and below the node, each once, as many as counting them along the links
gave before: afterwards these are stale, other nodes are live if they were, and their records are
what they were, but without the links that led to the node.  A node that is not live is refused. -/
theorem run_freeSubtree (rs : List Request) :
    let f := run rs
    let events := ({} : Forest).history rs
    f.allocated = f.live + f.freed ∧
      ((madeIn events).length = f.allocated ∧ (freedIn events).length = f.freed ∧
        (∀ i, ∃ count, events.filter (·.node.index = i) = (List.range count).map (Event.turn i)) ∧
        (∀ x before between after,
          events = before ++ .freed x :: (between ++ .freed x :: after) → .made x ∈ between) ∧
        ((∀ i, (freedIn events).countP (·.index = i) ≤ UInt32.size) → (freedIn events).Nodup)) ∧
      ∀ x, f.freeLoop x = .some (f.freeSubtree x) ∧ f.sizeLoop x = .some (f.subtreeSize x) ∧
        match f.freeSubtree x with
        | .error e => e = .stale x ∧ ¬ f.contains x
        | .ok (count, g) =>
          f.subtreeSize x = .ok count ∧
          ∃ (n : Node) (ids : List NodeId), f.nodes.get? x = some n ∧ ids.Nodup ∧
            ids.length = count ∧ (∀ y, y ∈ ids ↔ Below f x y) ∧
            (∀ y, g.contains y ↔ f.contains y ∧ y ∉ ids) ∧
            ∀ y, y ∉ ids → g.nodes.get? y = (f.nodes.get? y).map (detached x n y) := by
  intro f events
  have s : Sound f := sound_run rs
  have h := s.linked
  refine ⟨s.counted, run_history rs, fun x => ⟨h.freeLoop_eq x, h.sizeLoop_eq x, ?_⟩⟩
  cases freeing : f.freeSubtree x with
  | error e =>
    obtain ⟨stale, rfl⟩ := h.freeSubtree_error freeing
    exact ⟨rfl, stale⟩
  | ok freed =>
    obtain ⟨count, g⟩ := freed
    obtain ⟨f', unlinked, -, counted, -⟩ := freeSubtree_ok freeing
    obtain ⟨n, hn, -⟩ := bind_eq_ok.mp unlinked
    have hn : f.nodes.get? x = some n := node_ok.mp hn
    have hx : f.contains x := contains_iff.mpr ⟨n, hn⟩
    have records := h.freed hn freeing
    refine ⟨?_, n, f.freedNodes x, hn, h.nodup_freedNodes hx, counted.symm,
      fun y => h.mem_freedNodes hx, fun y => ?_, fun y kept => ?_⟩
    · rw [counted]
      exact h.subtreeSize_eq hx
    · rw [Forest.contains, Arena.contains, records y]
      by_cases gone : y ∈ f.freedNodes x <;> simp [gone, Forest.contains, Arena.contains]
    · rw [records y, if_neg kept]

end Forest

end MarkdownForest
