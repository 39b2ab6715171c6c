/-
# MarkdownForest.Proofs.Renaming -- forests that differ in the names of nodes

`Mirrors ρ f g` says that `g` has a copy of every node of `f`, under the name that
`ρ` gives it, with its links renamed.  What else there is in `g` is left open.

Going along links never leaves the nodes there are, so all that is read off a
node of `f` is read off its copy too:

* `Mirrors.ancestors`, `Mirrors.children`: ways lead to the copies;
* `Mirrors.branch?`: what is below a node is copied, whatever the capacities;
* `Mirrors.walk`, `Mirrors.html`, `Mirrors.commonMark`: texts are the same.
-/
import Mathlib.Data.List.Nodup
import Mathlib.Logic.Equiv.Basic
import MarkdownForest.Forest.Html
import MarkdownForest.Proofs.Branches
import MarkdownForest.Proofs.Edits

namespace MarkdownForest

set_option autoImplicit false

/-! ## Renaming -/

/-- The record with its links renamed. -/
def Node.rename (ρ : Equiv.Perm NodeId) (n : Node) : Node where
  content := n.content
  ownership := n.ownership
  parent := n.parent.map ρ
  firstChild := n.firstChild.map ρ
  lastChild := n.lastChild.map ρ
  next := n.next.map ρ
  previous := n.previous.map ρ

namespace Branch

mutual
def rename (ρ : Equiv.Perm NodeId) : Branch → Branch
  | node x bs => node (ρ x) (renameList ρ bs)

def renameList (ρ : Equiv.Perm NodeId) : List Branch → List Branch
  | [] => []
  | b :: bs => rename ρ b :: renameList ρ bs
end

theorem renameList_eq_map (ρ : Equiv.Perm NodeId) (bs : List Branch) :
    renameList ρ bs = bs.map (rename ρ) := by
  induction bs with
  | nil => rfl
  | cons b bs ih => rw [renameList, ih, List.map_cons]

end Branch

def WalkEvent.rename (ρ : Equiv.Perm NodeId) : WalkEvent → WalkEvent
  | enter x => enter (ρ x)
  | exit x => exit (ρ x)

def WalkEvent.node : WalkEvent → NodeId
  | enter x | exit x => x

namespace WalkStep

def rename (ρ : Equiv.Perm NodeId) : WalkStep → WalkStep
  | visit b => visit (b.rename ρ)
  | leave x => leave (ρ x)

/-- The nodes of what is still to do. -/
def ids : WalkStep → List NodeId
  | visit b => b.ids
  | leave x => [x]

end WalkStep

def Walk.rename (ρ : Equiv.Perm NodeId) (w : Walk) : Walk :=
  ⟨w.todo.map (WalkStep.rename ρ)⟩

theorem Option.map_perm_eq_some {α : Type} (ρ : Equiv.Perm α) {o : Option α} {a : α} :
    o.map ρ = some (ρ a) ↔ o = some a := by
  cases o <;> simp

namespace Forest

/-- Every node of `f` is in `g` under another name. -/
structure Mirrors (ρ : Equiv.Perm NodeId) (f g : Forest) : Prop where
  record : ∀ {x n}, f.nodes.get? x = some n → g.nodes.get? (ρ x) = some (n.rename ρ)

namespace Mirrors

variable {ρ : Equiv.Perm NodeId} {f g : Forest} {rows rows' : NodeId → List NodeId}
  {x y p : NodeId}

/-! ## Records -/

section Records

variable (m : Mirrors ρ f g) (hx : f.contains x)
include m hx

theorem contains : g.contains (ρ x) := by
  obtain ⟨n, hn⟩ := contains_iff.mp hx
  exact contains_iff.mpr ⟨_, m.record hn⟩

theorem node : g.node (ρ x) = (f.node x).map (Node.rename ρ) := by
  obtain ⟨n, hn⟩ := contains_iff.mp hx
  rw [node_ok.mpr hn, node_ok.mpr (m.record hn)]
  rfl

theorem content? : g.content? (ρ x) = f.content? x := by
  obtain ⟨n, hn⟩ := contains_iff.mp hx
  simp [Forest.content?, hn, m.record hn, Node.rename]

theorem content : g.content (ρ x) = f.content x := by
  obtain ⟨n, hn⟩ := contains_iff.mp hx
  simp [Forest.content, node_ok.mpr hn, node_ok.mpr (m.record hn), Node.rename]

theorem kind : g.kind (ρ x) = f.kind x := by
  rw [Forest.kind, Forest.kind, m.content hx]

theorem get {α : Type} (read : Content → Except FieldError α) :
    g.get read (ρ x) = f.get read x := by
  rw [Forest.get, Forest.get, m.content hx]

theorem contentAt : g.contentAt (ρ x) = f.contentAt x := by
  rw [Forest.contentAt, Forest.contentAt]
  exact congrArg (·.getD .document) (m.content? hx)

theorem isImage : g.isImage (ρ x) = f.isImage x := by
  rw [Forest.isImage, Forest.isImage, m.contentAt hx]

theorem ownership : g.ownership (ρ x) = f.ownership x := by
  obtain ⟨n, hn⟩ := contains_iff.mp hx
  simp [Forest.ownership, node_ok.mpr hn, node_ok.mpr (m.record hn), Node.rename]

theorem parent? : g.parent? (ρ x) = (f.parent? x).map ρ := by
  obtain ⟨n, hn⟩ := contains_iff.mp hx
  rw [parent?_of_get? hn, parent?_of_get? (m.record hn)]
  rfl

theorem next? : g.next? (ρ x) = (f.next? x).map ρ := by
  obtain ⟨n, hn⟩ := contains_iff.mp hx
  simp [Forest.next?, hn, m.record hn, Node.rename]

end Records

/-- Renaming otherwise what is not there changes nothing. -/
theorem congr {τ : Equiv.Perm NodeId} (m : Mirrors ρ f g) (h : Linked f f.children)
    (same : ∀ {z}, f.contains z → τ z = ρ z) : Mirrors τ f g where
  record {x n} hn := by
    have link : ∀ {o : Option NodeId}, (∀ z, o = some z → f.contains z) → o.map τ = o.map ρ := by
      intro o live
      cases o with
      | none => rfl
      | some z => rw [Option.map_some, same (live z rfl), Option.map_some]
    obtain ⟨first, last⟩ := h.ends hn
    have renamed : n.rename τ = n.rename ρ := by
      simp only [Node.rename, Node.mk.injEq, true_and]
      exact ⟨link fun z e => h.live_links hn (.inr (.inr e)),
        link fun z e => (h.live (List.mem_of_head? (first ▸ e))).1,
        link fun z e => (h.live (List.mem_of_getLast? (last ▸ e))).1,
        link fun z e => h.live_links hn (.inr (.inl e)), link fun z e => h.live_links hn (.inl e)⟩
    rw [same (contains_iff.mpr ⟨n, hn⟩), renamed]
    exact m.record hn

/-! ## Ways -/

section Ways

variable (m : Mirrors ρ f g) (hf : Linked f rows)
include m hf

theorem path {path : List NodeId} (hx : f.contains x) (hp : Path f x path) :
    Path g (ρ x) (path.map ρ) := by
  induction hp with
  | root top => exact .root (by rw [m.parent? hx, top, Option.map_none])
  | step up _ ih =>
    exact .step (by rw [m.parent? hx, up, Option.map_some]) (ih (hf.live_parent up))

theorem ancestors (hg : Linked g rows') (hx : f.contains x) :
    g.ancestors (ρ x) = (f.ancestors x).map ρ :=
  hg.ancestors_eq (m.contains hx) (m.path hf hx (hf.path_ancestors hx))

/-- The way along the children of a node leads to the copies of these, as far as it is followed. -/
theorem children (hx : f.contains x) : g.children (ρ x) = (f.children x).map ρ := by
  obtain ⟨n, hn⟩ := contains_iff.mp hx
  have first : (g.nodes.get? (ρ x)).bind (·.firstChild) = ((f.children x).map ρ).head? := by
    rw [m.record hn, Option.bind_some, List.head?_map, hf.children_eq, ← (hf.ends hn).1]
    rfl
  have short : ((f.children x).map ρ).length ≤ g.nodes.capacity := by
    refine length_le_capacity ?_ fun y hy => ?_
    · rw [hf.children_eq]
      exact (hf.nodup x).map ρ.injective
    · obtain ⟨z, hz, rfl⟩ := List.mem_map.mp hy
      exact m.contains (hf.live (hf.children_eq x ▸ hz)).1
  rw [Forest.children, onward, first]
  refine follow_head? (fun before y after split => ?_) short
  obtain ⟨before, rest, row, rfl, more⟩ := List.map_eq_append_iff.mp split
  obtain ⟨z, after, rfl, rfl, rfl⟩ := List.map_eq_cons_iff.mp more
  rw [hf.children_eq] at row
  rw [m.next? (hf.live (row ▸ List.mem_append_cons_self)).1, hf.next?_eq row, List.head?_map]

/-- A branch is copied, if the fuel is enough for what is below a node that deep. -/
theorem branchAt (hg : Linked g rows') {fuel fuel' : Nat} (hx : f.contains x)
    (enough : f.nodes.capacity < (f.ancestors x).length + fuel)
    (enough' : g.nodes.capacity < (f.ancestors x).length + fuel') :
    g.branchAt fuel' (ρ x) = (f.branchAt fuel x).rename ρ := by
  have short := hf.length_ancestors_le hx
  have short' := hg.length_ancestors_le (m.contains hx)
  rw [m.ancestors hf hg hx, List.length_map] at short'
  induction fuel generalizing fuel' x with
  | zero => omega
  | succ fuel ih =>
    obtain ⟨fuel', rfl⟩ : ∃ k, fuel' = k + 1 := ⟨fuel' - 1, by omega⟩
    rw [Forest.branchAt, Forest.branchAt, Branch.rename, m.children hf hx, List.map_map,
      Branch.renameList_eq_map, List.map_map]
    congr 1
    refine List.map_congr_left fun y hy => ?_
    rw [hf.children_eq] at hy
    have live := (hf.live hy).1
    have deeper := hf.length_ancestors_child hx hy
    have short := hf.length_ancestors_le live
    have short' := hg.length_ancestors_le (m.contains live)
    rw [m.ancestors hf hg live, List.length_map] at short'
    exact ih live (by omega) (by omega) short short'

theorem branch? (hg : Linked g rows') (hx : f.contains x) :
    g.branch? (ρ x) = (f.branch? x).map (Branch.rename ρ) := by
  obtain ⟨above, e⟩ := (hf.path_ancestors hx).eq_cons
  have deep : 0 < (f.ancestors x).length := by simp [e]
  rw [Forest.branch?, Forest.branch?, if_pos hx, if_pos (m.contains hx), Option.map_some,
    m.branchAt hf hg hx (Nat.lt_add_of_pos_left deep) (Nat.lt_add_of_pos_left deep)]

end Ways

/-! ## Trees -/

section Trees

mutual
theorem treeOf (m : Mirrors ρ f g) :
    ∀ b : Branch, (∀ x ∈ b.ids, f.contains x) → g.treeOf (b.rename ρ) = f.treeOf b
  | .node x bs, live => by
    simp only [Branch.ids, List.mem_cons, forall_eq_or_imp] at live
    rw [Branch.rename, Forest.treeOf, Forest.treeOf, m.contentAt live.1, m.treesOf bs live.2]

theorem treesOf (m : Mirrors ρ f g) :
    ∀ bs : List Branch, (∀ x ∈ Branch.idsList bs, f.contains x) →
      g.treesOf (Branch.renameList ρ bs) = f.treesOf bs
  | [], _ => rfl
  | b :: bs, live => by
    simp only [Branch.idsList, List.mem_append] at live
    rw [Branch.renameList, Forest.treesOf, Forest.treesOf, m.treeOf b fun x hx => live x (.inl hx),
      m.treesOf bs fun x hx => live x (.inr hx)]
end

variable (m : Mirrors ρ f g) (hf : Linked f rows) (hg : Linked g rows') (hx : f.contains x)
include m hf hg hx

theorem tree? : g.tree? (ρ x) = f.tree? x := by
  rw [Forest.tree?, Forest.tree?, m.branch? hf hg hx, Forest.branch?, if_pos hx, Option.map_some,
    Option.map_some, Option.map_some, m.treeOf _ fun y hy => hf.live_branchAt hx hy]

theorem snapshot : g.snapshot (ρ x) = f.snapshot x := by
  obtain ⟨t, ht⟩ : ∃ t, f.tree? x = some t := by simp [Forest.tree?, Forest.branch?, hx]
  rw [Forest.snapshot, Forest.snapshot, m.tree? hf hg hx, ht]

theorem commonMark : g.commonMark (ρ x) = f.commonMark x := by
  obtain ⟨n, hn⟩ := contains_iff.mp hx
  have next : (n.next.map ρ).bind g.tree? = n.next.bind f.tree? := by
    cases e : n.next with
    | none => rfl
    | some y => exact m.tree? hf hg (hf.live_links hn (.inr (.inl e)))
  simp [Forest.commonMark, Forest.next, node_ok.mpr hn, node_ok.mpr (m.record hn), Node.rename,
    next, m.snapshot hf hg hx]

end Trees

end Mirrors

/-! ## Walks -/

/-- All that a walk has still to do is about live nodes. -/
def LiveWalk (f : Forest) (w : Walk) : Prop :=
  ∀ s ∈ w.todo, ∀ x ∈ s.ids, f.contains x

section Walks

variable {ρ : Equiv.Perm NodeId} {f g : Forest} {rows rows' : NodeId → List NodeId}
  {x y p : NodeId} {w v : Walk} {e : WalkEvent}

theorem LiveWalk.next? (live : LiveWalk f w) (h : w.next? f = some (e, v)) :
    f.contains e.node ∧ LiveWalk f v := by
  obtain ⟨todo⟩ := w
  rcases todo with _ | ⟨⟨⟨x, bs⟩⟩ | x, rest⟩
  · simp [Walk.next?] at h
  · have visit : ∀ y ∈ x :: Branch.idsList bs, f.contains y := live (.visit (.node x bs)) (by simp)
    have later : LiveWalk f ⟨rest⟩ := fun s hs => live s (List.mem_cons_of_mem _ hs)
    rw [Walk.next?] at h
    split at h <;> cases h
    · exact ⟨visit x (by simp), later⟩
    · refine ⟨visit x (by simp), fun s hs y hy => ?_⟩
      simp only [List.mem_append, List.mem_map, List.mem_cons] at hs
      rcases hs with ⟨b, hb, rfl⟩ | rfl | hs
      · exact visit y (List.mem_cons_of_mem _ (Branch.mem_idsList.mpr ⟨b, hb, hy⟩))
      · obtain rfl := List.mem_singleton.mp hy
        exact visit y List.mem_cons_self
      · exact later s hs y hy
  · cases h
    exact ⟨live (.leave x) (by simp) x (by simp [WalkStep.ids]),
      fun s hs => live s (List.mem_cons_of_mem _ hs)⟩

theorem LiveWalk.skipToExit (live : LiveWalk f w) (hx : f.contains x) :
    LiveWalk f (w.skipToExit x) := by
  rw [Walk.skipToExit]
  split
  · exact fun s hs => live s (List.dropWhile_sublist _ |>.mem hs)
  · intro s hs y hy
    rcases List.mem_cons.mp hs with rfl | hs
    · obtain rfl : y = x := by simpa [WalkStep.ids] using hy
      exact hx
    · exact live s hs y hy

theorem Linked.liveWalk_start (h : Linked f rows) (x : NodeId) : LiveWalk f (Walk.start f x) := by
  rw [Walk.start, branch?]
  split
  · rename_i b hb
    split at hb
    · rename_i hx
      cases hb
      intro s hs y hy
      obtain rfl := List.mem_singleton.mp hs
      exact h.live_branchAt hx hy
    · cases hb
  · intro s hs
    simp at hs

/-- A walk meets live nodes only. -/
theorem LiveWalk.events (live : LiveWalk f w) (skip : NodeId → Bool) :
    ∀ e ∈ w.events f skip, f.contains e.node := by
  fun_induction Walk.events f skip w with
  | case1 w h => simp
  | case2 w x v h ih =>
    obtain ⟨here, later⟩ := live.next? h
    simpa using ⟨here, ih later⟩
  | case3 w x v h ih =>
    obtain ⟨here, later⟩ := live.next? h
    refine List.forall_mem_cons.mpr ⟨here, ih ?_⟩
    split
    · exact later.skipToExit here
    · exact later

theorem isLeaving_rename (s : WalkStep) :
    Walk.isLeaving (ρ x) (s.rename ρ) = Walk.isLeaving x s := by
  cases s <;> simp [WalkStep.rename, Walk.isLeaving]

theorem skipToExit_rename : (w.rename ρ).skipToExit (ρ x) = (w.skipToExit x).rename ρ := by
  have any : (w.rename ρ).todo.any (Walk.isLeaving (ρ x)) = w.todo.any (Walk.isLeaving x) := by
    simp [Walk.rename, Function.comp_def, isLeaving_rename]
  rw [Walk.skipToExit, Walk.skipToExit, any]
  split
  · simp [Walk.rename, List.dropWhile_map, Function.comp_def, isLeaving_rename]
  · rfl

namespace Mirrors

theorem walk_next? (m : Mirrors ρ f g) (live : LiveWalk f w) :
    (w.rename ρ).next? g = (w.next? f).map fun s => (s.1.rename ρ, s.2.rename ρ) := by
  obtain ⟨todo⟩ := w
  rcases todo with _ | ⟨⟨⟨x, bs⟩⟩ | x, rest⟩
  · rfl
  · have hx : f.contains x := live (.visit (.node x bs)) (by simp) x (by simp [WalkStep.ids, Branch.ids])
    have leaf : Walk.isLeaf g (ρ x) = Walk.isLeaf f x := by
      obtain ⟨n, hn⟩ := contains_iff.mp hx
      simp [Walk.isLeaf, hn, m.record hn, Node.rename]
    simp only [Walk.rename, List.map_cons, WalkStep.rename, Branch.rename, Walk.next?, leaf]
    split
    · rfl
    · simp [WalkEvent.rename, WalkStep.rename, Branch.renameList_eq_map, Function.comp_def]
  · rfl

theorem events (m : Mirrors ρ f g) {skip skip' : NodeId → Bool} (live : LiveWalk f w)
    (same : ∀ {x}, f.contains x → skip' (ρ x) = skip x) :
    (w.rename ρ).events g skip' = (w.events f skip).map (WalkEvent.rename ρ) := by
  fun_induction Walk.events f skip w with
  | case1 w h =>
    have next := m.walk_next? live
    rw [h] at next
    rw [Walk.events, next]
    rfl
  | case2 w x v h ih =>
    have next := m.walk_next? live
    rw [h] at next
    rw [Walk.events, next, List.map_cons, ← ih (live.next? h).2]
    rfl
  | case3 w x v h ih =>
    have next := m.walk_next? live
    rw [h] at next
    obtain ⟨here, later⟩ := live.next? h
    rw [Walk.events, next, List.map_cons]
    have skips : skip' (ρ x) = skip x := same here
    dsimp only [Option.map_some, WalkEvent.rename]
    rw [skips, skipToExit_rename]
    split
    · rename_i skipped
      rw [dif_pos skipped] at ih
      rw [← ih (later.skipToExit here)]
    · rename_i passed
      rw [dif_neg passed] at ih
      rw [← ih later]

section Texts

variable (m : Mirrors ρ f g) (hf : Linked f rows)
include m hf

theorem walk {skip skip' : NodeId → Bool} (hg : Linked g rows') (hx : f.contains x)
    (same : ∀ {x}, f.contains x → skip' (ρ x) = skip x) :
    g.walk skip' (ρ x) = (f.walk skip x).map (WalkEvent.rename ρ) := by
  have start : Walk.start g (ρ x) = (Walk.start f x).rename ρ := by
    rw [Walk.start, Walk.start, m.branch? hf hg hx, Forest.branch?, if_pos hx]
    rfl
  rw [Forest.walk, start, m.events (hf.liveWalk_start x) same, Forest.walk]

/-- Whether a paragraph is bare depends on live nodes only. -/
theorem isBare (hx : f.contains x) : g.isBare (ρ x) = f.isBare x := by
  rw [Forest.isBare, Forest.isBare, m.contentAt hx, m.parent? hx]
  cases up : f.parent? x with
  | none => rfl
  | some p =>
    have hp := hf.live_parent up
    rw [Option.map_some, Option.bind_some, Option.bind_some, m.parent? hp]
    cases up' : f.parent? p with
    | none => rfl
    | some q => simp only [Option.map_some, m.contentAt (hf.live_parent up')]

theorem description (hg : Linked g rows') (hx : f.contains x) :
    g.description (ρ x) = f.description x := by
  rw [Forest.description, Forest.description, m.walk hf hg hx fun _ => rfl, List.flatMap_map]
  refine List.flatMap_congr fun e he => ?_
  have live := (hf.liveWalk_start x).events _ e he
  cases e with
  | enter y => simp only [WalkEvent.rename, Forest.plainEvent, m.contentAt (show f.contains y from live)]
  | exit y => rfl

theorem renderEvent (hg : Linked g rows') (o : Html.RenderOptions) (page : Html.Page)
    (live : f.contains e.node) : g.renderEvent o page (e.rename ρ) = f.renderEvent o page e := by
  cases e with
  | enter y =>
    have hy : f.contains y := live
    simp only [WalkEvent.rename, Forest.renderEvent, m.isImage hy, m.description hf hg hy,
      m.isBare hf hy, m.contentAt hy]
  | exit y =>
    have hy : f.contains y := live
    simp only [WalkEvent.rename, Forest.renderEvent, m.isBare hf hy, m.contentAt hy]

theorem html (hg : Linked g rows') (o : Html.RenderOptions) (hx : f.contains x) :
    g.html o (ρ x) = f.html o x := by
  have live := (hf.liveWalk_start x).events f.isImage
  have page : (f.walk f.isImage x).foldl (fun p e => g.renderEvent o p (e.rename ρ)) {} =
      (f.walk f.isImage x).foldl (f.renderEvent o) {} :=
    List.foldl_ext _ _ _ fun p e he => m.renderEvent hf hg o p (live e he)
  rw [Forest.html, Forest.html, m.content hx, m.walk hf hg hx fun hy => m.isImage hy,
    List.foldl_map, page]

end Texts

end Mirrors

end Walks

end Forest

end MarkdownForest
