/-
# MarkdownForest.Proofs.PlantingOrder -- blocks that are appended before they are filled

A reader of blocks appends a block to its parent as soon as it is made and fills
it there; inlines are appended once they are filled (`grow`).  Planting appends
every tree when it is whole.  The order makes no difference, neither to whether
the edits are accepted nor to the forest they lead to:

* `Linked.ext`: in an arena of a given shape, rows and contents determine the
  records;
* `appendChild_comm`: two edits that append roots to different nodes can change
  places;
* `grow_eq`, `growDocument_eq`: growing is planting, and fails nowhere.
-/
import MarkdownForest.Proofs.Growing
import MarkdownForest.Proofs.Updates

namespace MarkdownForest

set_option autoImplicit false

/-! ## The shape of an arena -/

namespace Arena

variable {ι α : Type} {a b c : Arena ι α}

/-- The slots are of the same generations, and those to use again are the same. -/
structure SameShape (a b : Arena ι α) : Prop where
  free : b.free = a.free
  generations : b.slots.map (·.generation) = a.slots.map (·.generation)

namespace SameShape

protected theorem refl (a : Arena ι α) : SameShape a a :=
  ⟨rfl, rfl⟩

protected theorem symm (h : SameShape a b) : SameShape b a :=
  ⟨h.free.symm, h.generations.symm⟩

protected theorem trans (h : SameShape a b) (k : SameShape b c) : SameShape a c :=
  ⟨k.free.trans h.free, k.generations.trans h.generations⟩

theorem size (h : SameShape a b) : b.slots.size = a.slots.size := by
  simpa using congrArg Array.size h.generations

theorem generation (h : SameShape a b) (i : Nat) :
    b.slots[i]?.map (·.generation) = a.slots[i]?.map (·.generation) := by
  simpa using congrArg (·[i]?) h.generations

/-- An arena is known from its shape and from what is stored in it. -/
theorem ext (h : SameShape a b) (same : ∀ k, b.get? k = a.get? k) : b = a := by
  obtain ⟨slots, free, nodup, vacant⟩ := a
  obtain ⟨slots', free', nodup', vacant'⟩ := b
  obtain rfl : free' = free := h.free
  suffices e : slots' = slots by
    subst e
    rfl
  refine Array.ext_getElem? fun i => ?_
  have generation := h.generation i
  dsimp only at generation
  cases hs : slots[i]? with
  | none => simpa [hs] using generation
  | some s =>
    obtain ⟨s', hs', g⟩ : ∃ s', slots'[i]? = some s' ∧ s'.generation = s.generation := by
      simpa [hs] using generation
    have value := same ⟨i, s.generation⟩
    simp only [get?, hs, hs', g, if_true] at value
    rw [hs']
    cases s
    cases s'
    simp_all

theorem alloc (h : SameShape a b) (v w : α) :
    (b.alloc w).1 = (a.alloc v).1 ∧ SameShape (a.alloc v).2 (b.alloc w).2 := by
  obtain ⟨slots, free, nodup, vacant⟩ := a
  obtain ⟨slots', free', nodup', vacant'⟩ := b
  obtain rfl : free' = free := h.free
  have generations := h.generations
  dsimp only at generations
  cases free' with
  | nil => exact ⟨congrArg (Key.mk · 0) h.size, rfl, by simp [Arena.alloc, generations]⟩
  | cons i free =>
    have generation := h.generation i
    dsimp only at generation
    refine ⟨by simp [Arena.alloc, generation], rfl, ?_⟩
    simp only [Arena.alloc, Array.map_setIfInBounds, generation]
    rw [generations]

/-- What is erased in arenas of one shape leaves one shape. -/
theorem erase (h : SameShape a b) {k : Key ι} (live : b.contains k = a.contains k) :
    SameShape (a.erase k) (b.erase k) := by
  unfold Arena.contains at live
  unfold Arena.erase
  split
  · rename_i stale
    split
    · exact h
    · rename_i e
      simp [stale, e] at live
  · rename_i e
    split
    · rename_i stale
      simp [stale, e] at live
    · refine ⟨congrArg (k.index :: ·) h.free, ?_⟩
      simp only [Array.map_setIfInBounds]
      rw [h.generations]

end SameShape

theorem sameShape_set (a : Arena ι α) (k : Key ι) (v : α) : SameShape a (a.set k v) := by
  unfold set
  split
  · exact .refl a
  · rename_i w h
    refine ⟨rfl, ?_⟩
    rw [get?_eq_some_iff] at h
    refine Array.ext_getElem? fun i => ?_
    rw [Array.getElem?_map, Array.getElem?_map, Array.getElem?_setIfInBounds]
    split
    · rename_i e
      subst e
      split <;> simp_all
    · rfl

end Arena

namespace Forest

/-! ## Forests of one shape -/

section Shape

open Arena (SameShape)

variable {f g : Forest} {rows : NodeId → List NodeId} {p x : NodeId}

theorem sameShape_update {change : Node → Node} (h : f.update x change = .ok g) :
    SameShape f.nodes g.nodes := by
  unfold update at h
  split at h
  · cases h
    exact Arena.sameShape_set ..
  · cases h

theorem Updated.sameShape (u : Updated f g) : SameShape f.nodes g.nodes := by
  induction u with
  | refl => exact .refl _
  | step _ last ih => exact ih.trans (sameShape_update last)

theorem sameShape_appendChild (h : f.appendChild p x = .ok g) : SameShape f.nodes g.nodes :=
  (updated_appendChild h).sameShape

/-- In an arena of a given shape, rows and contents determine a forest. -/
theorem Linked.ext (hf : Linked f rows) (hg : Linked g rows) (shape : SameShape f.nodes g.nodes)
    (content : ∀ x, g.content? x = f.content? x) (allocated : g.allocated = f.allocated)
    (freed : g.freed = f.freed) : g = f := by
  have nodes : g.nodes = f.nodes := shape.ext fun x => by
    have same := content x
    unfold Forest.content? at same
    cases hn : f.nodes.get? x with
    | none => simpa [hn] using same
    | some n =>
      obtain ⟨m, hm, e⟩ : ∃ m, g.nodes.get? x = some m ∧ m.content = n.content := by
        simpa [hn] using same
      have parent : m.parent = n.parent := Option.ext fun q => by
        rw [hf.parent_iff hn, hg.parent_iff hm]
      rw [hm, hf.record_eq hg hn hm e parent rfl fun _ _ => rfl]
  cases f
  cases g
  simp_all

end Shape

/-! ## Edits that change places -/

section Commute

open Arena (SameShape)

variable {f g h : Forest} {rows : NodeId → List NodeId} {a b p x y : NodeId}

/-- A move changes nothing above a node that is not below the node moved. -/
theorem Below.of_unmoved {above : Option NodeId} (s : Linked f rows) (m : Moved f g b above)
    (apart : ¬ Below f b y) (below : Below g x y) : Below f x y := by
  obtain ⟨path, hp⟩ := s.path y
  have same : Path g y path := hp.congr fun z hz => by
    have : z ≠ b := fun e => apart ⟨path, hp, e ▸ hz⟩
    rw [m.parent?, if_neg this]
  obtain ⟨path', hp', hx⟩ := below
  exact ⟨path, hp, hp'.unique same ▸ hx⟩

/-- What is above a node after a move was above it before, or is above the place of the move. -/
theorem Below.before_move (s : Linked f rows) (m : Moved f g x (some p)) (below : Below g b y) :
    Below f b y ∨ Below f b p := by
  obtain ⟨path, hy, hb⟩ := below
  induction hy with
  | @root y _ =>
    obtain rfl := List.mem_singleton.mp hb
    exact .inl (s.below_self b)
  | @step y q path up _ ih =>
    rcases List.mem_cons.mp hb with rfl | hb
    · exact .inl (s.below_self b)
    · rw [m.parent?] at up
      by_cases e : y = x
      · rw [if_pos e] at up
        obtain rfl := Option.some.inj up
        exact .inr ((ih hb).elim id id)
      · rw [if_neg e] at up
        exact (ih hb).imp_left (·.of_parent up)

/-- A root that is appended goes to the end of a row and leaves the others as they are. -/
theorem Linked.append_root (s : Linked f rows) (top : f.parent? x = none) (may : MayHold f p x) :
    ∃ g, f.appendChild p x = .ok g ∧ Moved f g x (some p) ∧
      Linked g fun q => if q = p then rows p ++ [x] else rows q := by
  obtain ⟨g, hg, moved, linked⟩ := s.appendChild may
  have outside : ∀ q, (rows q).erase x = rows q := fun q => List.erase_of_not_mem fun hx => by
    simp [s.parent?_iff.mpr hx] at top
  exact ⟨g, hg, moved, linked.congr_rows fun q => by rw [outside, outside]⟩

/-- A node may still become a child after a move that puts it above no place it may go to. -/
theorem MayHold.moved {above : Option NodeId} (may : MayHold f p x) (hg : Linked g rows)
    (m : Moved f g b above) (apart : ¬ Below g x p) : MayHold g p x where
  parent := (m.contains_eq p).trans may.parent
  child := (m.contains_eq x).trans may.child
  ne := may.ne
  apart h := apart ((hg.mem_ancestors ((m.contains_eq p).trans may.parent)).mp h)
  fits := by
    rw [m.content?, m.content?]
    exact may.fits

/-- Two roots that are appended to different nodes can be so in either order. -/
theorem appendChild_comm (s : Linked f rows) (hx : f.appendChild p x = .ok g)
    (hb : f.appendChild a b = .ok h) (topx : f.parent? x = none) (topb : f.parent? b = none)
    (ne : x ≠ b) (apart : a ≠ p) (clear : ¬ Below f b p) :
    ∃ k, g.appendChild a b = .ok k ∧ h.appendChild p x = .ok k := by
  have mayx := (s.of_appendChild hx).may
  have mayb := (s.of_appendChild hb).may
  obtain ⟨_, ex, movedx, linkedx⟩ := s.append_root topx mayx
  obtain rfl := Except.ok.inj (hx.symm.trans ex)
  obtain ⟨_, eb, movedb, linkedb⟩ := s.append_root topb mayb
  obtain rfl := Except.ok.inj (hb.symm.trans eb)
  have mayb' : MayHold g a b := mayb.moved linkedx movedx fun below => by
    rcases below.before_move s movedx with below | below
    · exact mayb.apart ((s.mem_ancestors mayb.parent).mpr below)
    · exact clear below
  have mayx' : MayHold h p x := mayx.moved linkedb movedb fun below =>
    mayx.apart ((s.mem_ancestors mayx.parent).mpr (below.of_unmoved s movedb clear))
  obtain ⟨k, hk, movedk, linkedk⟩ :=
    linkedx.append_root (by rw [movedx.parent?, if_neg ne.symm, topb]) mayb'
  obtain ⟨l, hl, movedl, linkedl⟩ :=
    linkedb.append_root (by rw [movedb.parent?, if_neg ne, topx]) mayx'
  -- the rows are the same in either order, so the forests are
  have linkedl : Linked l fun q =>
      if q = a then (if a = p then rows p ++ [x] else rows a) ++ [b]
      else if q = p then rows p ++ [x] else rows q := linkedl.congr_rows fun q => by
    by_cases hq : q = a
    · simp [hq, apart]
    · by_cases hq' : q = p <;> simp [hq, hq', apart.symm]
  have shape : SameShape k.nodes l.nodes :=
    ((sameShape_appendChild hx).trans (sameShape_appendChild hk)).symm.trans
      ((sameShape_appendChild hb).trans (sameShape_appendChild hl))
  have e : l = k := linkedk.ext linkedl shape
    (fun z => by rw [movedl.content?, movedb.content?, movedk.content?, movedx.content?])
    (by rw [movedl.allocated, movedb.allocated, movedk.allocated, movedx.allocated])
    (by rw [movedl.freed, movedb.freed, movedk.freed, movedx.freed])
  exact ⟨k, hk, e ▸ hl⟩

/-- A node can be made before or after an edit. -/
theorem newNode_appendChild (s : Linked f rows) (hx : f.appendChild p x = .ok g) (c : Content) :
    (g.newNode c).1 = (f.newNode c).1 ∧
      (f.newNode c).2.appendChild p x = .ok (g.newNode c).2 := by
  have may := (s.of_appendChild hx).may
  obtain ⟨_, ex, moved, linked⟩ := s.appendChild may
  obtain rfl := Except.ok.inj (hx.symm.trans ex)
  obtain ⟨same, shape⟩ := (sameShape_appendChild hx).alloc { content := c } { content := c }
  have kept : ∀ {y}, f.contains y → Same f (f.newNode c).2 y := (grown_newNode s c).kept
  have may' : MayHold (f.newNode c).2 p x := by
    have hp := contains_newNode (c := c) may.parent
    refine ⟨hp, contains_newNode may.child, may.ne, fun above => ?_, ?_⟩
    · rw [(s.newNode c).mem_ancestors hp] at above
      have old := above.congr (g := f) fun z => (parent?_newNode f c z).symm
      exact may.apart ((s.mem_ancestors may.parent).mpr old)
    · rw [(kept may.parent).content?, (kept may.child).content?]
      exact may.fits
  obtain ⟨k, hk, movedk, linkedk⟩ := (s.newNode c).appendChild may'
  refine ⟨same, hk.trans (congrArg Except.ok ?_)⟩
  refine (linked.newNode c).ext linkedk (shape.symm.trans (sameShape_appendChild hk))
    (fun z => ?_) ?_ ?_
  · have same : (g.newNode c).1 = (f.newNode c).1 := same
    rw [movedk.content?, content?_newNode, content?_newNode, moved.content?, same]
  · rw [movedk.allocated]
    exact congrArg (· + 1) moved.allocated.symm
  · rw [movedk.freed]
    exact moved.freed.symm

end Commute

/-! ## Planting beside an edit -/

section Plant

variable {p x : NodeId}

mutual
/-- A root that is appended elsewhere can be so before or after a tree is planted. -/
theorem plant_appendChild {f g : Forest} (s : Sound f) (hx : f.appendChild p x = .ok g)
    (topx : f.parent? x = none) :
    ∀ t : Tree, t.WellFormed → (g.plant t).1 = (f.plant t).1 ∧
      (f.plant t).2.appendChild p x = .ok (g.plant t).2
  | .node c ts, w => by
    simp only [Tree.WellFormed] at w
    obtain ⟨inRange, fits, inside⟩ := w
    obtain ⟨same, moved⟩ := newNode_appendChild s.linked hx c
    have grown := grown_newNode s.linked c
    have mayx := (s.linked.of_appendChild hx).may
    have apart : (f.newNode c).1 ≠ p := (grown.ne mayx.parent).symm
    have top : (f.newNode c).2.parent? x = none := (parent?_newNode f c x).trans topx
    have below := plantBelow_appendChild (s.newNode inRange) moved top apart grown.content ts inside
      fits
    rw [← same] at below
    exact ⟨same, by simpa [plant, same] using below⟩

/-- A root that is appended elsewhere can be so before or after trees are planted below a node. -/
theorem plantBelow_appendChild {f g : Forest} {z : NodeId} {c : Content} (s : Sound f)
    (hx : f.appendChild p x = .ok g) (topx : f.parent? x = none) (apart : z ≠ p)
    (holds : f.content? z = some c) :
    ∀ ts : List Tree, Tree.WellFormedList ts → (∀ t ∈ ts, c.kind.canContain t.kind) →
      (f.plantBelow z ts).appendChild p x = .ok (g.plantBelow z ts)
  | [], _, _ => hx
  | t :: ts, w, fits => by
    simp only [Tree.WellFormedList] at w
    obtain ⟨-, sound, grown⟩ := plant_spec s t w.1
    obtain ⟨same, later⟩ := plant_appendChild s hx topx t w.1
    have mayx := (s.linked.of_appendChild hx).may
    have may := grown.mayHold s.linked sound.linked holds (fits t (by simp))
    obtain ⟨h, hy, moved, linked⟩ := sound.linked.appendChild may
    have top : (f.plant t).2.parent? x = none := (grown.kept mayx.child).parent?.trans topx
    have ne : x ≠ (f.plant t).1 := grown.ne mayx.child
    obtain ⟨k, placed, hk⟩ := appendChild_comm sound.linked later hy top grown.top ne apart
      (grown.not_below s.linked mayx.parent)
    have e : f.plantBelow z (t :: ts) = h.plantBelow z ts := by
      change ((f.plant t).2.place z (f.plant t).1).plantBelow z ts = _
      rw [place, hy]
    have e' : g.plantBelow z (t :: ts) = k.plantBelow z ts := by
      change ((g.plant t).2.place z (g.plant t).1).plantBelow z ts = _
      rw [same, place, placed]
    rw [e, e']
    refine plantBelow_appendChild (sound.appendChild hy) hk ?_ apart ?_ ts w.2
      fun t ht => fits t (by simp [ht])
    · rw [moved.parent?, if_neg ne, top]
    · rw [moved.content?, (grown.kept (contains_of_content? holds)).content?, holds]
end

end Plant

/-! ## Growing -/

mutual
/-- Makes a tree below a node: a block is appended before it is filled, an inline after. -/
def grow (f : Forest) (p : NodeId) : Tree → Except ForestError Forest
  | .node c ts =>
    let (x, f) := f.newNode c
    if c.kind.isInline then do (← growBelow f x ts).appendChild p x
    else do growBelow (← f.appendChild p x) x ts

/-- Makes trees below a node, one after another. -/
def growBelow (f : Forest) (p : NodeId) : List Tree → Except ForestError Forest
  | [] => .ok f
  | t :: ts => do growBelow (← f.grow p t) p ts
end

/-- Makes a document of trees. -/
def growDocument (f : Forest) (ts : List Tree) : Except ForestError (NodeId × Forest) := do
  let (x, f) := f.newNode .document
  return (x, ← f.growBelow x ts)

section Grow

/-- A well-formed tree can be appended to a node that may contain it. -/
theorem plant_place {f : Forest} {p : NodeId} {d : Content} (s : Sound f)
    (holds : f.content? p = some d) {t : Tree} (w : t.WellFormed)
    (fits : d.kind.canContain t.kind) :
    (f.plant t).2.appendChild p (f.plant t).1 = .ok ((f.plant t).2.place p (f.plant t).1) ∧
      ((f.plant t).2.place p (f.plant t).1).content? p = some d := by
  obtain ⟨-, sound, grown⟩ := plant_spec s t w
  obtain ⟨g, hg, moved, -⟩ := sound.linked.appendChild
    (grown.mayHold s.linked sound.linked holds fits)
  have e : (f.plant t).2.place p (f.plant t).1 = g := by
    rw [place, hg]
  refine ⟨e ▸ hg, ?_⟩
  rw [e, moved.content?, (grown.kept (contains_of_content? holds)).content?, holds]

mutual
/-- Growing a well-formed tree is planting and appending it. -/
theorem grow_eq {f : Forest} {p : NodeId} {d : Content} (s : Sound f)
    (holds : f.content? p = some d) :
    ∀ t : Tree, t.WellFormed → d.kind.canContain t.kind →
      f.grow p t = .ok ((f.plant t).2.place p (f.plant t).1)
  | .node c ts, w, fits => by
    obtain ⟨placed, -⟩ := plant_place s holds w fits
    simp only [Tree.WellFormed] at w
    obtain ⟨inRange, below, inside⟩ := w
    have sound := s.newNode inRange
    have grown := grown_newNode s.linked c
    unfold grow
    dsimp only
    split
    · rw [growBelow_eq sound grown.content ts inside below]
      exact placed
    -- The block is appended empty; filling it afterwards comes to the same.
    · obtain ⟨g, hg, moved, -⟩ := sound.linked.appendChild
        (grown.mayHold s.linked sound.linked holds fits)
      have filled : g.content? (f.newNode c).1 = some c := (moved.content? _).trans grown.content
      have apart : (f.newNode c).1 ≠ p := (grown.ne (contains_of_content? holds)).symm
      have later := plantBelow_appendChild sound hg grown.top apart grown.content ts inside below
      rw [hg, ok_bind, growBelow_eq (sound.appendChild hg) filled ts inside below, ← placed]
      exact later.symm

/-- Growing well-formed trees below a node is planting them there. -/
theorem growBelow_eq {f : Forest} {p : NodeId} {d : Content} (s : Sound f)
    (holds : f.content? p = some d) :
    ∀ ts : List Tree, Tree.WellFormedList ts → (∀ t ∈ ts, d.kind.canContain t.kind) →
      f.growBelow p ts = .ok (f.plantBelow p ts)
  | [], _, _ => rfl
  | t :: ts, w, fits => by
    simp only [Tree.WellFormedList] at w
    obtain ⟨-, sound, -⟩ := plant_spec s t w.1
    obtain ⟨placed, kept⟩ := plant_place s holds w.1 (fits t (by simp))
    rw [growBelow, grow_eq s holds t w.1 (fits t (by simp)), ok_bind,
      growBelow_eq (sound.appendChild placed) kept ts w.2 fun t ht => fits t (by simp [ht])]
    rfl
end

/-- The document that a source makes grows as it is planted, and every edit is accepted. -/
theorem growDocument_eq {f : Forest} (s : Sound f) (o : ParseOptions) (source : List Char) :
    f.growDocument (readSource o source).trees =
      .ok (f.plant (readSource o source).documentMade) := by
  have w := documentMade_wellFormed o source
  simp only [Parsed.documentMade, Tree.WellFormed] at w
  obtain ⟨inRange, fits, inside⟩ := w
  have grown := grown_newNode s.linked .document
  unfold growDocument
  dsimp only
  rw [growBelow_eq (s.newNode inRange) grown.content _ inside fits]
  rfl

end Grow

end Forest

end MarkdownForest
