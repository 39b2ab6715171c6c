/-
# MarkdownForest.Proofs.Growing -- nodes that are made

`Grown f g x c` says that `g` is `f` with a new tree, whose root `x` holds `c`:
the nodes of `f` keep what they hold and where they stand, and all others are at
or below `x`.

* `Sound.newNode`: a single node is made;
* `plant_spec`: a well-formed tree is made with every child in its place, so that
  `x` is the only new root;
* `Grown.dropped`: dropping the new tree leaves what there was;
* `Sound.read_ok`, `Sound.read_error`: reading a source makes a document, or leaves
  no trace among the nodes.
-/
import MarkdownForest.Forest.Plant
import MarkdownForest.Proofs.Placement
import MarkdownForest.Proofs.Sound

namespace MarkdownForest.Forest

set_option autoImplicit false

/-- A node holds what it held and stands where it stood, and so do its children. -/
structure Same (f g : Forest) (y : NodeId) : Prop where
  content? : g.content? y = f.content? y
  parent? : g.parent? y = f.parent? y
  children : g.children y = f.children y

structure Grown (f g : Forest) (x : NodeId) (c : Content) : Prop where
  fresh : f.contains x = false
  top : g.parent? x = none
  content : g.content? x = some c
  kept : ∀ {y}, f.contains y → Same f g y
  made : ∀ {y}, g.contains y → f.contains y ∨ Below g x y
  live : f.live < g.live
  freed : g.freed = f.freed

section Grown

variable {f g h : Forest} {rows : NodeId → List NodeId} {x y : NodeId} {c d : Content}

theorem Grown.contains_of (r : Grown f g x c) (hy : f.contains y) : g.contains y := by
  obtain ⟨b, hb⟩ := content?_of_contains hy
  exact contains_of_content? ((r.kept hy).content?.trans hb)

theorem Grown.contains_self (r : Grown f g x c) : g.contains x :=
  contains_of_content? r.content

theorem Grown.ne (r : Grown f g x c) (hy : f.contains y) : y ≠ x := fun e => by
  have fresh := r.fresh
  simp [← e, hy] at fresh

/-- What was below a node of the forest before stays below it. -/
theorem Grown.below {z : NodeId} (r : Grown f g x c) (s : Linked f rows) (hz : f.contains z)
    (below : Below f y z) : Below g y z := by
  obtain ⟨path, hp, hy⟩ := below
  exact ⟨path, hp.congr fun w hw => (r.kept (s.live_of_path hz hp w hw)).parent?, hy⟩

/-- What there was is not below what is made. -/
theorem Grown.not_below (r : Grown f g x c) (s : Linked f rows) (hy : f.contains y) :
    ¬ Below g x y := fun below => by
  obtain ⟨path, hp⟩ := s.path y
  have live := s.live_of_path hy hp
  obtain ⟨path', hp', hx⟩ := below
  obtain rfl := hp'.unique (hp.congr fun z hz => (r.kept (live z hz)).parent?)
  exact r.ne (live x hx) rfl

/-- A node that holds what it held and stands where it stood has the record it had. -/
theorem Linked.kept_record (hf : Linked f f.children) (hg : Linked g g.children)
    (same : ∀ {y}, f.contains y → Same f g y) (hx : f.contains x) :
    g.nodes.get? x = f.nodes.get? x := by
  obtain ⟨n, hn⟩ := contains_iff.mp hx
  have here := same hx
  obtain ⟨k, hk⟩ := contains_iff.mp
    (contains_of_content? (here.content?.trans (by simp [content?, hn] : f.content? x = some n.content)))
  have content : k.content = n.content := by simpa [content?, hn, hk] using here.content?
  have parent : k.parent = n.parent := by
    simpa [parent?_of_get? hn, parent?_of_get? hk] using here.parent?
  have beside : ∀ p, n.parent = some p → g.children p = f.children p := fun p up =>
    (same (hf.live_links hn (.inr (.inr up)))).children
  rw [hn, hk, hf.record_eq hg hn hk content parent here.children beside]

/-! ## A single node -/

theorem get?_newNode (f : Forest) (c : Content) (y : NodeId) :
    (f.newNode c).2.nodes.get? y =
      if y = (f.newNode c).1 then some { content := c } else f.nodes.get? y :=
  Arena.get?_alloc ..

theorem newNode_fresh (f : Forest) (c : Content) : f.nodes.get? (f.newNode c).1 = none :=
  Arena.get?_alloc_new ..

theorem get?_newNode_iff {n : Node} : (f.newNode c).2.nodes.get? y = some n ↔
    (y = (f.newNode c).1 ∧ n = { content := c }) ∨ f.nodes.get? y = some n :=
  Arena.get?_alloc_iff ..

theorem content?_newNode (f : Forest) (c : Content) (y : NodeId) :
    (f.newNode c).2.content? y = if y = (f.newNode c).1 then some c else f.content? y := by
  rw [content?, get?_newNode]
  split <;> simp [content?]

theorem parent?_newNode (f : Forest) (c : Content) (y : NodeId) :
    (f.newNode c).2.parent? y = f.parent? y := by
  rw [Forest.parent?, get?_newNode]
  split
  · rename_i e
    simp [e, Forest.parent?, newNode_fresh]
  · rfl

/-- A new node is in no row. -/
theorem Linked.fresh_not_mem (s : Linked f rows) (c : Content) (p : NodeId) :
    (f.newNode c).1 ∉ rows p := fun hx => by
  obtain ⟨n, hn⟩ := contains_iff.mp (s.live hx).1
  simp [newNode_fresh] at hn

/-- A new node has none below it. -/
theorem Linked.fresh_row (s : Linked f rows) (c : Content) : rows (f.newNode c).1 = [] :=
  List.eq_nil_iff_forall_not_mem.mpr fun y hy => by
    obtain ⟨n, hn⟩ := contains_iff.mp (s.live hy).2
    simp [newNode_fresh] at hn

theorem contains_newNode (hy : f.contains y) : (f.newNode c).2.contains y := by
  obtain ⟨n, hn⟩ := contains_iff.mp hy
  exact contains_iff.mpr ⟨n, get?_newNode_iff.mpr (.inr hn)⟩

theorem Linked.newNode (s : Linked f rows) (c : Content) : Linked (f.newNode c).2 rows where
  parent_iff {y n} hn p := by
    rcases get?_newNode_iff.mp hn with ⟨rfl, rfl⟩ | hn
    · simp [s.fresh_not_mem c p]
    · exact s.parent_iff hn p
  live hy := ⟨contains_newNode (s.live hy).1, contains_newNode (s.live hy).2⟩
  nodup := s.nodup
  ends {p n} hn := by
    rcases get?_newNode_iff.mp hn with ⟨rfl, rfl⟩ | hn
    · simp [s.fresh_row c]
    · exact s.ends hn
  sides {p y n before after} row hn := by
    rcases get?_newNode_iff.mp hn with ⟨rfl, rfl⟩ | hn
    · exact absurd (by simp [row]) (s.fresh_not_mem c p)
    · exact s.sides row hn
  alone hn top := by
    rcases get?_newNode_iff.mp hn with ⟨rfl, rfl⟩ | hn
    · exact ⟨rfl, rfl⟩
    · exact s.alone hn top
  ownership hn := by
    rcases get?_newNode_iff.mp hn with ⟨rfl, rfl⟩ | hn
    · simp
    · exact s.ownership hn
  path y := by
    obtain ⟨path, hp⟩ := s.path y
    exact ⟨path, hp.congr fun z _ => parent?_newNode f c z⟩

theorem grown_newNode (s : Linked f rows) (c : Content) :
    Grown f (f.newNode c).2 (f.newNode c).1 c := by
  have fresh := newNode_fresh f c
  have top : (f.newNode c).2.parent? (f.newNode c).1 = none := by
    simp [Forest.parent?, get?_newNode]
  refine ⟨by simp [Forest.contains, Arena.contains, fresh], top, ?_, ?_, ?_, ?_, rfl⟩
  · simp [content?_newNode]
  · intro y hy
    have ne : y ≠ (f.newNode c).1 := fun e => by
      simp [e, Forest.contains, Arena.contains, fresh] at hy
    refine ⟨by rw [content?_newNode, if_neg ne], parent?_newNode f c y, ?_⟩
    rw [(s.newNode c).children_eq, s.children_eq]
  · intro y hy
    by_cases e : y = (f.newNode c).1
    · subst e
      exact .inr (.self (.root top))
    · left
      simpa [Forest.contains, Arena.contains, get?_newNode, e] using hy
  · have := Arena.size_alloc f.nodes { content := c }
    simp only [Forest.live, Forest.newNode]
    omega

theorem Sound.newNode (s : Sound f) (inRange : c.InRange) : Sound (f.newNode c).2 where
  linked := (s.linked.newNode c).of_rows
  placed {y p b d} up hb hd := by
    rw [parent?_newNode] at up
    have old : ∀ {z}, f.contains z → (f.newNode c).2.content? z = f.content? z := fun hz =>
      ((grown_newNode s.linked c).kept hz).content?
    rw [old (contains_of_parent? up)] at hb
    rw [old (s.linked.live_parent up)] at hd
    exact s.placed up hb hd
  inRange {y b} hb := by
    rw [content?_newNode] at hb
    split at hb
    · exact Option.some.inj hb ▸ inRange
    · exact s.inRange hb
  counted := by
    have := Arena.size_alloc f.nodes { content := c }
    have := s.counted
    simp only [Forest.live, Forest.newNode] at *
    omega

/-! ## Trees -/

/-- Moving a root below a node puts what was below a node no higher. -/
theorem Below.of_moved {z w : NodeId} (m : Moved f g y (some x)) (top : f.parent? y = none)
    (hx : Linked g rows) (below : Below f z w) : Below g z w := by
  obtain ⟨path, hw, hz⟩ := below
  induction hw with
  | @root w topw =>
    obtain rfl := List.mem_singleton.mp hz
    exact hx.below_self z
  | @step w p path up _ ih =>
    have ne : w ≠ y := fun e => by simp [e, top] at up
    have up' : g.parent? w = some p := by rw [m.parent?, if_neg ne, up]
    rcases List.mem_cons.mp hz with rfl | hz
    · exact hx.below_self z
    · exact (ih hz).of_parent up'

/-- A tree just made can be appended to a node there was. -/
theorem Grown.mayHold {rows' : NodeId → List NodeId} (t : Grown g h y d) (s : Linked g rows)
    (hh : Linked h rows') (holds : g.content? x = some c) (fits : c.kind.canContain d.kind) :
    MayHold h x y := by
  have hx := contains_of_content? holds
  refine ⟨t.contains_of hx, t.contains_self, t.ne hx, fun above => ?_, fun hc hd => ?_⟩
  · exact t.not_below s hx ((hh.mem_ancestors (t.contains_of hx)).mp above)
  · rw [(t.kept hx).content?, holds] at hc
    rw [t.content] at hd
    obtain rfl := Option.some.inj hc
    obtain rfl := Option.some.inj hd
    exact fits

theorem Grown.append {k : Forest} (s : Sound g) (r : Grown f g x c) (t : Grown g h y d)
    (sound : Sound h) (m : Moved h k y (some x))
    (linked : Linked k fun q =>
      if q = x then (h.children x).erase y ++ [y] else (h.children q).erase y) :
    Grown f k x c := by
  have hx := r.contains_self
  have content : ∀ {z}, g.contains z → k.content? z = g.content? z := fun {z} hz =>
    (m.content? z).trans (t.kept hz).content?
  have parent : ∀ {z}, g.contains z → k.parent? z = g.parent? z := fun {z} hz => by
    rw [m.parent?, if_neg (t.ne hz), (t.kept hz).parent?]
  refine ⟨r.fresh, (parent hx).trans r.top, (content hx).trans r.content, ?_, ?_, ?_, ?_⟩
  · intro z hz
    have hz' := r.contains_of hz
    have same := r.kept hz
    have outside : y ∉ h.children z := fun hy => by
      have top := t.top
      simp [sound.linked.parent?_iff.mpr hy] at top
    refine ⟨(content hz').trans same.content?, (parent hz').trans same.parent?, ?_⟩
    rw [linked.children_eq, if_neg (r.ne hz), List.erase_of_not_mem outside, (t.kept hz').children,
      same.children]
  · intro z hz
    have belowY : Below k x y := (linked.below_self x).of_parent (by rw [m.parent?, if_pos rfl])
    rcases t.made ((m.contains_eq z).symm.trans hz) with old | below
    · rcases r.made old with older | below
      · exact .inl older
      · exact .inr (.of_moved m t.top linked (t.below s.linked old below))
    · exact .inr (belowY.trans (.of_moved m t.top linked below))
  · have := r.live
    have := t.live
    rw [m.live]
    omega
  · rw [m.freed, t.freed, r.freed]

end Grown

section Plant

variable {f g : Forest} {x : NodeId} {c : Content}

mutual
/-- Planting that fails as soon as a child may not be appended. -/
def tryPlant (f : Forest) : Tree → Except ForestError (NodeId × Forest)
  | .node c ts => do
    let (x, f) := f.newNode c
    return (x, ← tryPlantBelow f x ts)

def tryPlantBelow (f : Forest) (x : NodeId) : List Tree → Except ForestError Forest
  | [] => .ok f
  | t :: ts => do
    let (y, f) ← f.tryPlant t
    tryPlantBelow (← f.appendChild x y) x ts
end

mutual
/-- Planting a well-formed tree makes one new root, and all else that is made is below it.  No
append fails. -/
theorem plant_spec {f : Forest} (s : Sound f) :
    ∀ t : Tree, t.WellFormed → f.tryPlant t = .ok (f.plant t) ∧ Sound (f.plant t).2 ∧
      Grown f (f.plant t).2 (f.plant t).1 t.content
  | .node c ts, w => by
    simp only [Tree.WellFormed] at w
    obtain ⟨inRange, fits, inside⟩ := w
    obtain ⟨accepted, sound, grown⟩ :=
      plantBelow_spec (s.newNode inRange) (grown_newNode s.linked c) ts inside fits
    exact ⟨by simp only [tryPlant, accepted, ok_bind, pure_eq_ok]; rfl, sound, grown⟩

theorem plantBelow_spec {f g : Forest} {x : NodeId} {c : Content} (s : Sound g)
    (r : Grown f g x c) :
    ∀ ts : List Tree, Tree.WellFormedList ts → (∀ t ∈ ts, c.kind.canContain t.kind) →
      g.tryPlantBelow x ts = .ok (g.plantBelow x ts) ∧ Sound (g.plantBelow x ts) ∧
        Grown f (g.plantBelow x ts) x c
  | [], _, _ => ⟨rfl, s, r⟩
  | t :: ts, w, fits => by
    simp only [Tree.WellFormedList] at w
    obtain ⟨planted, sound, grown⟩ := plant_spec s t w.1
    have may := grown.mayHold s.linked sound.linked r.content (fits t (by simp))
    obtain ⟨k, hk, moved, linked⟩ := sound.linked.appendChild may
    have e : g.plantBelow x (t :: ts) = k.plantBelow x ts := by
      change ((g.plant t).2.place x (g.plant t).1).plantBelow x ts = _
      rw [place, hk]
    obtain ⟨accepted, sound', grown'⟩ := plantBelow_spec (sound.appendChild hk)
      (r.append s grown sound moved linked) ts w.2 fun t ht => fits t (by simp [ht])
    rw [e]
    exact ⟨by simp only [tryPlantBelow, planted, ok_bind, hk, accepted], sound', grown'⟩
end

/-- Dropping what was made leaves the nodes there were. -/
theorem Grown.dropped {h : Forest} {count : Nat} (s : Sound f) (t : Sound g) (r : Grown f g x c)
    (d : Dropped g h x count) :
    (∀ y, h.contains y = f.contains y) ∧ ∀ {y}, f.contains y → Same f h y := by
  have kept : ∀ {y}, f.contains y → h.contains y := fun hy =>
    (d.contains_iff_of_live (r.contains_of hy)).mpr (r.not_below s.linked hy)
  refine ⟨fun y => ?_, fun {y} hy => ?_⟩
  · rw [Bool.eq_iff_iff]
    refine ⟨fun hy => ?_, kept⟩
    obtain ⟨n, hn⟩ := contains_iff.mp hy
    have hg : g.contains y := contains_iff.mpr ⟨n, d.sub hn⟩
    exact (r.made hg).resolve_right ((d.contains_iff_of_live hg).mp hy)
  · have same := r.kept hy
    have record := d.kept (r.not_below s.linked hy)
    refine ⟨?_, ?_, ?_⟩
    · rw [content?, record, ← same.content?, content?]
    · rw [Forest.parent?, record, ← same.parent?, Forest.parent?]
    · rw [(d.linked t.linked r.top).children_eq, if_pos (kept hy), same.children]

end Plant

/-! ## Sources -/

section Read

variable {f g : Forest} {x : NodeId} {o : ParseOptions} {source : String} {e : ParseError}

/-- A source that is read becomes a new document. -/
theorem Sound.read_ok (s : Sound f) (h : f.read o source = (.ok x, g)) :
    Sound g ∧ Grown f g x .document := by
  obtain ⟨-, sound, grown⟩ := plant_spec s _ (documentMade_wellFormed o source.toList)
  unfold Forest.read at h
  dsimp only at h
  split at h
  · cases h
    exact ⟨sound, grown⟩
  · cases h

/-- A source that is not read leaves no node behind and touches none. -/
theorem Sound.read_error (s : Sound f) (h : f.read o source = (.error e, g)) :
    Sound g ∧ (∀ y, g.contains y = f.contains y) ∧ ∀ {y}, f.contains y → Same f g y := by
  obtain ⟨-, sound, grown⟩ := plant_spec s _ (documentMade_wellFormed o source.toList)
  unfold Forest.read at h
  dsimp only at h
  split at h
  · cases h
  · cases h
    have dropped := sound.linked.erase grown.contains_self grown.top
    exact ⟨sound.dropped dropped grown.top, grown.dropped s sound dropped⟩

theorem Sound.read (s : Sound f) (o : ParseOptions) (source : String) :
    Sound (f.read o source).2 := by
  cases h : f.read o source with
  | mk result g =>
    cases result with
    | ok x => exact (s.read_ok h).1
    | error e => exact (s.read_error h).1

end Read

end MarkdownForest.Forest
