/-
# MarkdownForest.Proofs.Recasting -- contents that nothing depends on

Edits look at the kinds of nodes and at links, at nothing else in a node.  So a
change of a content that keeps its kind can be made before or after any of them
(`recast`):

* `appendChild_recast`, `plantBelow_recast`: moves, and trees that are planted;
* `newNode_recast`: a node may be made with the content it is to have;
* `freeSubtree_recast`: freeing, after which the change is gone if its node is.
-/
import MarkdownForest.Proofs.PlantingOrder
import MarkdownForest.Proofs.Slots

namespace MarkdownForest.Forest

set_option autoImplicit false

open Arena (SameShape)

/-- The forest with the content of a node changed; a node that is not live changes nothing. -/
def recast (f : Forest) (x : NodeId) (φ : Content → Content) : Forest :=
  match f.nodes.get? x with
  | some n => { f with nodes := f.nodes.set x { n with content := φ n.content } }
  | none => f

section Recast

variable {f g : Forest} {x y z : NodeId} {φ : Content → Content}

/-- In arenas of one shape, forests are told apart by what is stored. -/
theorem ext_of_get? (shape : SameShape f.nodes g.nodes)
    (same : ∀ y, g.nodes.get? y = f.nodes.get? y) (allocated : g.allocated = f.allocated)
    (freed : g.freed = f.freed) : g = f := by
  have nodes : g.nodes = f.nodes := shape.ext same
  cases f
  cases g
  simp_all

theorem recast_dead (hx : f.nodes.get? x = none) : f.recast x φ = f := by
  rw [recast, hx]

theorem get?_recast (f : Forest) (x : NodeId) (φ : Content → Content) (y : NodeId) :
    (f.recast x φ).nodes.get? y =
      if y = x then (f.nodes.get? x).map fun n => { n with content := φ n.content }
      else f.nodes.get? y := by
  unfold recast
  split
  · rename_i n hn
    have live : f.nodes.contains x := Arena.contains_iff.mpr ⟨n, hn⟩
    dsimp only
    rw [Arena.get?_set live]
    split
    · rw [hn]
      rfl
    · rfl
  · rename_i hn
    split
    · rename_i e
      rw [e, hn]
      rfl
    · rfl

theorem sameShape_recast (f : Forest) (x : NodeId) (φ : Content → Content) :
    SameShape f.nodes (f.recast x φ).nodes := by
  unfold recast
  split
  · exact Arena.sameShape_set ..
  · exact .refl _

theorem counters_recast (f : Forest) (x : NodeId) (φ : Content → Content) :
    (f.recast x φ).allocated = f.allocated ∧ (f.recast x φ).freed = f.freed := by
  unfold recast
  split <;> exact ⟨rfl, rfl⟩

/-- A record of the forest after the change has the links it had. -/
theorem get?_recast_of_live {n : Node} (hy : f.nodes.get? y = some n) (x : NodeId)
    (φ : Content → Content) :
    (f.recast x φ).nodes.get? y =
      some { n with content := if y = x then φ n.content else n.content } := by
  rw [get?_recast]
  split
  · rename_i e
    rw [← e, hy]
    rfl
  · exact hy

theorem get?_recast_none (hy : f.nodes.get? y = none) (x : NodeId) (φ : Content → Content) :
    (f.recast x φ).nodes.get? y = none := by
  rw [get?_recast]
  split
  · rename_i e
    rw [← e, hy]
    rfl
  · exact hy

theorem contains_recast (f : Forest) (x : NodeId) (φ : Content → Content) (y : NodeId) :
    (f.recast x φ).contains y = f.contains y := by
  unfold Forest.contains Arena.contains
  cases hy : f.nodes.get? y with
  | none => rw [get?_recast_none hy]
  | some n => rw [get?_recast_of_live hy]; rfl

/-! ## Reading -/

theorem parent?_recast (f : Forest) (x : NodeId) (φ : Content → Content) :
    (f.recast x φ).parent? = f.parent? := by
  funext y
  unfold parent?
  cases hy : f.nodes.get? y with
  | none => rw [get?_recast_none hy]
  | some n => rw [get?_recast_of_live hy]; rfl

theorem next?_recast (f : Forest) (x : NodeId) (φ : Content → Content) :
    (f.recast x φ).next? = f.next? := by
  funext y
  unfold next?
  cases hy : f.nodes.get? y with
  | none => rw [get?_recast_none hy]
  | some n => rw [get?_recast_of_live hy]; rfl

theorem capacity_recast (f : Forest) (x : NodeId) (φ : Content → Content) :
    (f.recast x φ).nodes.capacity = f.nodes.capacity :=
  (sameShape_recast f x φ).size

theorem ancestors_recast (f : Forest) (x : NodeId) (φ : Content → Content) (y : NodeId) :
    (f.recast x φ).ancestors y = f.ancestors y := by
  rw [ancestors, contains_recast, parent?_recast, capacity_recast]
  rfl

theorem onward_recast (f : Forest) (x : NodeId) (φ : Content → Content) (first : Option NodeId) :
    (f.recast x φ).onward first = f.onward first := by
  rw [onward, next?_recast, capacity_recast]
  rfl

theorem lastChild_recast (f : Forest) (x : NodeId) (φ : Content → Content) (y : NodeId) :
    (f.recast x φ).lastChild y = f.lastChild y := by
  unfold lastChild node
  cases hy : f.nodes.get? y with
  | none => rw [get?_recast_none hy]
  | some n => rw [get?_recast_of_live hy]; rfl

theorem kind_recast (keeps : ∀ c, (φ c).kind = c.kind) (y : NodeId) :
    (f.recast x φ).kind y = f.kind y := by
  unfold kind content node
  cases hy : f.nodes.get? y with
  | none => rw [get?_recast_none hy]
  | some n =>
    rw [get?_recast_of_live hy]
    by_cases e : y = x
    · simp only [e, if_true]
      exact congrArg Except.ok (keeps n.content)
    · simp only [e, if_false]

theorem checkChild_recast (keeps : ∀ c, (φ c).kind = c.kind) (y z : NodeId) :
    (f.recast x φ).checkChild y z = f.checkChild y z := by
  unfold checkChild
  rw [kind_recast keeps, kind_recast keeps, ancestors_recast]

/-! ## Moving -/

/-- A change of links only. -/
def OfLinks (change : Node → Node) : Prop :=
  ∀ (n : Node) (c : Content), change { n with content := c } = { change n with content := c }

theorem update_recast {change : Node → Node} (links : OfLinks change) (y : NodeId) :
    (f.recast x φ).update y change = (f.update y change).map (·.recast x φ) := by
  cases hy : f.nodes.get? y with
  | none =>
    unfold update
    rw [get?_recast_none hy, hy]
    rfl
  | some n =>
    have live : f.contains y := contains_iff.mpr ⟨n, hy⟩
    obtain ⟨h, eh, rh⟩ := update_of_live live change
    obtain ⟨k, ek, rk⟩ := update_of_live ((contains_recast f x φ y).trans live) change
    obtain ⟨allocated, freed⟩ := counters_recast f x φ
    obtain ⟨allocated', freed'⟩ := counters_recast h x φ
    rw [eh, ek]
    refine congrArg Except.ok (ext_of_get? ?_ (fun z => ?_) ?_ ?_)
    · exact (((sameShape_update eh).trans (sameShape_recast h x φ)).symm.trans
        (sameShape_recast f x φ)).trans (sameShape_update ek)
    · rw [rk.get?, get?_recast, get?_recast, rh.get?, rh.get?]
      by_cases ex : z = x
      · subst ex
        cases f.nodes.get? z with
        | none => simp
        | some m =>
          by_cases ey : z = y
          · have content : (change m).content = m.content := by
              have := congrArg Node.content (links m m.content)
              exact this
            simp only [ey, if_true, Option.map_some, content]
            exact congrArg some (links m (φ m.content))
          · simp [ey]
      · simp [ex]
    · rw [rk.allocated, allocated, allocated', rh.allocated]
    · rw [rk.freed, freed, freed', rh.freed]

theorem updateAt_recast {change : Node → Node} (links : OfLinks change) (link : Option NodeId) :
    (f.recast x φ).updateAt link change = (f.updateAt link change).map (·.recast x φ) := by
  cases link with
  | none => rfl
  | some y => exact update_recast links y

/-- What comes after an edit. -/
theorem map_recast_bind {m : Except ForestError Forest} {k k' : Forest → Except ForestError Forest}
    (later : ∀ g, k (g.recast x φ) = (k' g).map (·.recast x φ)) :
    m.map (·.recast x φ) >>= k = (m >>= k').map (·.recast x φ) := by
  cases m with
  | error => rfl
  | ok g => exact later g

theorem detach_recast (y : NodeId) :
    (f.recast x φ).detach y = (f.detach y).map (·.recast x φ) := by
  unfold detach node
  cases hy : f.nodes.get? y with
  | none =>
    rw [get?_recast_none hy]
    rfl
  | some n =>
    rw [get?_recast_of_live hy]
    simp only [ok_bind]
    rw [updateAt_recast (fun _ _ => rfl)]
    refine map_recast_bind fun g => ?_
    rw [updateAt_recast (fun _ _ => rfl)]
    refine map_recast_bind fun g => ?_
    rw [updateAt_recast (fun _ _ => rfl)]
    refine map_recast_bind fun g => ?_
    exact update_recast (fun _ _ => rfl) y

theorem attach_recast (p : NodeId) (previous next : Option NodeId) (y : NodeId) :
    (f.recast x φ).attach p previous next y = (f.attach p previous next y).map (·.recast x φ) := by
  have set : ∀ {change : Node → Node} (z : NodeId) (g : Forest), OfLinks change →
      (g.recast x φ).update z change = (g.update z change).map (·.recast x φ) :=
    fun z _ links => update_recast links z
  unfold attach
  rw [set y f fun _ _ => rfl]
  refine map_recast_bind fun g => ?_
  cases previous with
  | none =>
    dsimp only
    rw [set p g fun _ _ => rfl]
    refine map_recast_bind fun h => ?_
    cases next with
    | none => exact set p h fun _ _ => rfl
    | some z => exact set z h fun _ _ => rfl
  | some w =>
    dsimp only
    rw [set w g fun _ _ => rfl]
    refine map_recast_bind fun h => ?_
    cases next with
    | none => exact set p h fun _ _ => rfl
    | some z => exact set z h fun _ _ => rfl

/-- A child is appended to the same end, whatever the nodes hold. -/
theorem appendChild_recast (keeps : ∀ c, (φ c).kind = c.kind) (p y : NodeId) :
    (f.recast x φ).appendChild p y = (f.appendChild p y).map (·.recast x φ) := by
  unfold appendChild
  rw [checkChild_recast keeps]
  cases f.checkChild p y with
  | error => rfl
  | ok =>
    simp only [ok_bind]
    rw [detach_recast]
    refine map_recast_bind fun g => ?_
    rw [lastChild_recast]
    cases g.lastChild p with
    | error => rfl
    | ok last => exact attach_recast p last none y

theorem place_recast (keeps : ∀ c, (φ c).kind = c.kind) (p y : NodeId) :
    (f.recast x φ).place p y = (f.place p y).recast x φ := by
  unfold place
  rw [appendChild_recast keeps]
  cases f.appendChild p y <;> rfl

/-! ## Making -/

/-- The node that is made next is another one. -/
theorem newNode_recast_of_live (hx : f.contains x) (c : Content) :
    (f.recast x φ).newNode c = ((f.newNode c).1, (f.newNode c).2.recast x φ) := by
  obtain ⟨same, shape⟩ := (sameShape_recast f x φ).alloc { content := c } { content := c }
  have same : ((f.recast x φ).newNode c).1 = (f.newNode c).1 := same
  obtain ⟨allocated, freed⟩ := counters_recast f x φ
  obtain ⟨allocated', freed'⟩ := counters_recast (f.newNode c).2 x φ
  have apart : x ≠ (f.newNode c).1 := by
    intro e
    have fresh := newNode_fresh f c
    rw [← e] at fresh
    simp [Forest.contains, Arena.contains, fresh] at hx
  refine Prod.ext same (ext_of_get? ((sameShape_recast _ x φ).symm.trans shape) (fun z => ?_) ?_ ?_)
  · rw [get?_newNode, same, get?_recast, get?_recast, get?_newNode, get?_newNode, if_neg apart]
    by_cases e : z = x
    · simp [e, apart]
    · simp [e]
  · exact (congrArg (· + 1) allocated).trans allocated'.symm
  · exact freed.trans freed'.symm

/-- A node made with a content that is changed is made with the new one. -/
theorem newNode_recast (f : Forest) (c : Content) (φ : Content → Content) :
    f.newNode (φ c) = ((f.newNode c).1, (f.newNode c).2.recast (f.newNode c).1 φ) := by
  obtain ⟨same, shape⟩ := (SameShape.refl f.nodes).alloc { content := c } { content := φ c }
  have same : (f.newNode (φ c)).1 = (f.newNode c).1 := same
  obtain ⟨allocated, freed⟩ := counters_recast (f.newNode c).2 (f.newNode c).1 φ
  refine Prod.ext same (ext_of_get? ((sameShape_recast _ _ φ).symm.trans shape) (fun z => ?_)
    allocated.symm freed.symm)
  rw [get?_newNode, same, get?_recast, get?_newNode, get?_newNode]
  by_cases e : z = (f.newNode c).1
  · simp [e]
  · simp [e]

mutual
theorem plant_recast (keeps : ∀ c, (φ c).kind = c.kind) {f : Forest} (hx : f.contains x) :
    ∀ t : Tree, (f.recast x φ).plant t = ((f.plant t).1, (f.plant t).2.recast x φ)
  | .node c ts => by
    unfold plant
    rw [newNode_recast_of_live hx]
    dsimp only
    rw [plantBelow_recast keeps (contains_newNode hx)]

theorem plantBelow_recast (keeps : ∀ c, (φ c).kind = c.kind) {f : Forest} {p : NodeId}
    (hx : f.contains x) :
    ∀ ts : List Tree, (f.recast x φ).plantBelow p ts = (f.plantBelow p ts).recast x φ
  | [] => rfl
  | t :: ts => by
    unfold plantBelow
    rw [plant_recast keeps hx t]
    dsimp only
    rw [place_recast keeps]
    have planted := (filled_plant f t).contains hx
    exact plantBelow_recast keeps ((filled_place _ p (f.plant t).1).contains planted) ts
end

/-! ## Freeing -/

theorem without_recast (y : NodeId) : (f.recast x φ).without y = (f.without y).recast x φ := by
  obtain ⟨allocated, freed⟩ := counters_recast f x φ
  obtain ⟨allocated', freed'⟩ := counters_recast (f.without y) x φ
  have shape : SameShape (f.without y).nodes ((f.recast x φ).without y).nodes :=
    (sameShape_recast f x φ).erase (contains_recast f x φ y)
  refine ext_of_get? ((sameShape_recast _ x φ).symm.trans shape) (fun z => ?_)
    (allocated.trans allocated'.symm) (freed.trans freed'.symm)
  rw [get?_without, get?_recast, get?_recast, get?_without, get?_without]
  by_cases ex : z = x
  · subst ex
    by_cases ey : z = y
    · simp [ey]
    · simp [ey]
  · simp [ex]

theorem release_recast (f : Forest) (stack : List NodeId) :
    (f.recast x φ).release stack = ((f.release stack).1, (f.release stack).2.recast x φ) := by
  induction f, stack using release.induct with
  | case1 f => simp
  | case2 f y stack hy ih => rw [release_stale (get?_recast_none hy x φ), release_stale hy, ih]
  | case3 f y stack n hy g _ _ _ ih =>
    rw [release_live (get?_recast_of_live hy x φ), release_live hy]
    dsimp only
    rw [without_recast, onward_recast, ih]

theorem freeSubtree_recast (f : Forest) (x y : NodeId) (φ : Content → Content) :
    (f.recast x φ).freeSubtree y =
      (f.freeSubtree y).map fun freed => (freed.1, freed.2.recast x φ) := by
  have counted : ∀ (g : Forest) (n : Nat),
      { g.recast x φ with freed := (g.recast x φ).freed + n } =
        ({ g with freed := g.freed + n } : Forest).recast x φ := by
    intro g n
    rw [(counters_recast g x φ).2]
    unfold recast
    dsimp only
    split <;> rfl
  unfold freeSubtree
  rw [detach_recast]
  cases f.detach y with
  | error => rfl
  | ok g => simp only [Except.map, ok_bind, pure_eq_ok, release_recast, counted]

end Recast

end MarkdownForest.Forest
