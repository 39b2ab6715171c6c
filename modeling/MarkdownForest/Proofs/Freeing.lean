/-
# MarkdownForest.Proofs.Freeing -- freeing a node with what is below it

`Forest.release` works off a stack.  Its nodes are live, what is below one is not
below another, and what is below them has not been touched yet (`Pending`).
Taking a node off and putting its children on keeps this (`Pending.pop`); so in
the end exactly what was below the stack is gone (`release_spec`).

* `release_count`: what is counted is by how much fewer nodes are live;
* `Linked.restrict`: links that fit together still do where each row is kept or
  dropped as a whole, along with what is above it;
* `Linked.freeSubtree`: freeing a node drops it with what is below it.
-/
import MarkdownForest.Proofs.Edits

namespace MarkdownForest.Forest

set_option autoImplicit false

section Release

variable {f g : Forest} {rows : NodeId → List NodeId} {x y : NodeId} {n : Node}
  {stack : List NodeId}

theorem get?_without (f : Forest) (x y : NodeId) :
    (f.without x).nodes.get? y = if y = x then none else f.nodes.get? y :=
  Arena.get?_erase f.nodes x y

@[simp] theorem release_nil (f : Forest) : f.release [] = (0, f) := by
  rw [release]

theorem release_stale (hx : f.nodes.get? x = none) :
    f.release (x :: stack) = f.release stack := by
  rw [release]
  split
  · rfl
  · simp_all

theorem release_live (hx : f.nodes.get? x = some n) :
    f.release (x :: stack) =
      let rest := (f.without x).release
        (((f.without x).onward n.firstChild).reverse ++ stack)
      (rest.1 + 1, rest.2) := by
  rw [release]
  split
  · simp_all
  · rename_i m hm
    obtain rfl := Option.some.inj (hx.symm.trans hm)
    rfl

/-- What is counted is by how much fewer nodes are live. -/
theorem release_count (f : Forest) (stack : List NodeId) :
    (f.release stack).1 + (f.release stack).2.live = f.live := by
  induction f, stack using release.induct with
  | case1 f => simp
  | case2 f x stack hx ih => rw [release_stale hx, ih]
  | case3 f x stack n hx g _ _ _ ih =>
    have fewer : f.live = (f.without x).live + 1 :=
      Arena.size_erase (contains_iff.mpr ⟨n, hx⟩)
    rw [release_live hx, fewer, ← ih]
    exact Nat.add_right_comm ..

/-- Releasing changes no counter of the forest. -/
theorem release_counters (f : Forest) (stack : List NodeId) :
    (f.release stack).2.allocated = f.allocated ∧ (f.release stack).2.freed = f.freed := by
  induction f, stack using release.induct with
  | case1 f => simp
  | case2 f x stack hx ih => rw [release_stale hx]; exact ih
  | case3 f x stack n hx g _ _ _ ih => rw [release_live hx]; exact ih

/-- What a stack of `f` is while what was below it before is being released. -/
structure Pending (f g : Forest) (stack : List NodeId) : Prop where
  live : ∀ s ∈ stack, f.contains s
  apart : stack.Pairwise fun s t => ∀ y, Below f s y → ¬ Below f t y
  untouched : ∀ s ∈ stack, ∀ y, Below f s y → g.nodes.get? y = f.nodes.get? y

theorem Linked.below_self (h : Linked f rows) (x : NodeId) : Below f x x :=
  (h.path x).elim fun _ => .self

theorem Linked.below_child (h : Linked f rows) (hy : y ∈ rows x) : Below f x y := by
  exact (h.below_self x).of_parent (h.parent?_iff.mpr hy)

/-- A node has what is below its children below it. -/
theorem Linked.below_iff (h : Linked f rows) :
    Below f x y ↔ y = x ∨ ∃ c ∈ rows x, Below f c y := by
  constructor
  · rintro ⟨path, hy, hx⟩
    induction hy with
    | root _ => exact .inl (List.mem_singleton.mp hx).symm
    | @step y p path up above ih =>
      rcases List.mem_cons.mp hx with rfl | hx
      · exact .inl rfl
      · rcases ih hx with rfl | ⟨c, hc, below⟩
        · exact .inr ⟨y, h.parent?_iff.mp up, _, .step up above, List.mem_cons_self⟩
        · exact .inr ⟨c, hc, below.of_parent up⟩
  · rintro (rfl | ⟨c, hc, below⟩)
    · exact h.below_self y
    · exact (h.below_child hc).trans below

theorem Linked.self_not_below_child (h : Linked f rows) {c : NodeId} (hc : c ∈ rows x)
    (below : Below f c y) : y ≠ x := by
  rintro rfl
  exact Below.not_child (h.parent?_iff.mpr hc) below

/-- The node on top of the stack is as it was. -/
theorem Pending.top (h : Linked f rows) (w : Pending f g (x :: stack)) :
    g.nodes.get? x = f.nodes.get? x :=
  w.untouched x List.mem_cons_self x (h.below_self x)

theorem Pending.top_live (h : Linked f rows) (w : Pending f g (x :: stack)) :
    ∃ n, g.nodes.get? x = some n := by
  obtain ⟨n, hn⟩ := contains_iff.mp (w.live x List.mem_cons_self)
  exact ⟨n, (w.top h).trans hn⟩

/-- A live node as the whole stack. -/
theorem Pending.single (hx : f.contains x) : Pending f f [x] :=
  ⟨by simpa using hx, by simp, fun _ _ _ _ => rfl⟩

/-- The records of its children are there also when a node on the stack has been taken off. -/
theorem Pending.child_kept (h : Linked f rows) (w : Pending f g (x :: stack)) (hy : y ∈ rows x) :
    (g.without x).nodes.get? y = f.nodes.get? y := by
  rw [get?_without, if_neg (h.self_not_below_child hy (h.below_self y)),
    w.untouched x (by simp) y (h.below_child hy)]

theorem Pending.next?_eq (h : Linked f rows) (w : Pending f g (x :: stack))
    {before after : List NodeId} (row : rows x = before ++ y :: after) :
    (g.without x).next? y = after.head? := by
  rw [Forest.next?, w.child_kept h (by simp [row])]
  exact h.next?_eq row

/-- The children of a node on the stack are found also when it has been taken off. -/
theorem Pending.onward_eq (h : Linked f rows) (w : Pending f g (x :: stack))
    (hx : f.nodes.get? x = some n) : (g.without x).onward n.firstChild = rows x := by
  have short := length_le_capacity (f := g.without x) (h.nodup x) fun c hc => by
    obtain ⟨m, hm⟩ := contains_iff.mp (h.live hc).1
    exact contains_iff.mpr ⟨m, (w.child_kept h hc).trans hm⟩
  rw [onward, (h.ends hx).1]
  exact follow_head? (fun _ _ _ row => w.next?_eq h row) short

/-- Taking a node off the stack and putting its children on. -/
theorem Pending.pop (h : Linked f rows) (w : Pending f g (x :: stack)) :
    Pending f (g.without x) ((rows x).reverse ++ stack) where
  live s hs := by
    rcases List.mem_append.mp hs with hs | hs
    · exact (h.live (List.mem_reverse.mp hs)).1
    · exact w.live s (List.mem_cons_of_mem x hs)
  apart := by
    have ⟨first, rest⟩ := List.pairwise_cons.mp w.apart
    refine List.pairwise_append.mpr ⟨?_, rest, ?_⟩
    · refine List.pairwise_reverse.mpr ((h.nodup x).imp_of_mem ?_)
      intro s t hs ht ne y hyt hys
      exact ne (hys.siblings hyt (h.parent?_iff.mpr hs) (h.parent?_iff.mpr ht))
    · intro s hs t ht y hys
      exact first t ht y ((h.below_child (List.mem_reverse.mp hs)).trans hys)
  untouched s hs y below := by
    rw [get?_without]
    rcases List.mem_append.mp hs with hs | later
    · have hs := List.mem_reverse.mp hs
      rw [if_neg (h.self_not_below_child hs below)]
      exact w.untouched x (by simp) y ((h.below_child hs).trans below)
    · have ne : y ≠ x := by
        rintro rfl
        exact (List.pairwise_cons.mp w.apart).1 s later y (h.below_self y) below
      rw [if_neg ne]
      exact w.untouched s (List.mem_cons_of_mem x later) y below

/-- Releasing a stack drops what is below it, and nothing else. -/
theorem release_spec (h : Linked f rows) (w : Pending f g stack) (y : NodeId) :
    ((∃ s ∈ stack, Below f s y) → (g.release stack).2.nodes.get? y = none) ∧
      ((¬ ∃ s ∈ stack, Below f s y) → (g.release stack).2.nodes.get? y = g.nodes.get? y) := by
  induction g, stack using release.induct with
  | case1 g => simp
  | case2 g x stack hx ih =>
    obtain ⟨n, hn⟩ := w.top_live h
    cases hx.symm.trans hn
  | case3 g x stack n hx g' _ _ _ ih =>
    have hf : f.nodes.get? x = some n := (w.top h).symm.trans hx
    have children : (g'.onward n.firstChild) = rows x := w.onward_eq h hf
    rw [children] at ih
    obtain ⟨gone, kept⟩ := ih (w.pop h)
    have e : (g.release (x :: stack)).2 = (g'.release ((rows x).reverse ++ stack)).2 := by
      rw [release_live hx, ← children]
    rw [e]
    constructor
    · rintro ⟨s, hs, below⟩
      by_cases later : ∃ s ∈ (rows x).reverse ++ stack, Below f s y
      · exact gone later
      -- what is below the stack, but not below what is left of it, is `x` itself
      · rw [kept later, get?_without, if_pos]
        rcases List.mem_cons.mp hs with rfl | hs
        · rcases h.below_iff.mp below with e | ⟨c, hc, below⟩
          · exact e
          · exact absurd ⟨c, by simp [hc], below⟩ later
        · exact absurd ⟨s, by simp [hs], below⟩ later
    · intro apart
      have later : ¬ ∃ s ∈ (rows x).reverse ++ stack, Below f s y := by
        rintro ⟨s, hs, below⟩
        rcases List.mem_append.mp hs with hs | hs
        · exact apart ⟨x, by simp, (h.below_child (List.mem_reverse.mp hs)).trans below⟩
        · exact apart ⟨s, by simp [hs], below⟩
      have ne : y ≠ x := fun e => apart ⟨x, by simp, e ▸ h.below_self x⟩
      rw [kept later, get?_without, if_neg ne]

end Release

/-! ## Whole trees -/

section Trees

variable {f g : Forest} {rows : NodeId → List NodeId} {x y : NodeId}

/-- Dropping whole trees leaves the links of the others as they are. -/
theorem Linked.restrict (h : Linked f rows)
    (sub : ∀ {x n}, g.nodes.get? x = some n → f.nodes.get? x = some n)
    (whole : ∀ {x p}, f.parent? x = some p → (g.contains x ↔ g.contains p)) :
    Linked g fun p => if g.contains p then rows p else [] where
  parent_iff {x n} hx p := by
    rw [h.parent_iff (sub hx) p]
    by_cases hp : g.contains p
    · simp [hp]
    · have : x ∉ rows p := fun hm =>
        hp ((whole (h.parent?_iff.mpr hm)).mp (contains_iff.mpr ⟨n, hx⟩))
      simp [hp, this]
  live {p x} hx := by
    by_cases hp : g.contains p
    · rw [if_pos hp] at hx
      exact ⟨(whole (h.parent?_iff.mpr hx)).mpr hp, hp⟩
    · simp [hp] at hx
  nodup p := by
    by_cases hp : g.contains p <;> simp [hp, h.nodup p]
  ends hp := by
    rw [if_pos (contains_iff.mpr ⟨_, hp⟩)]
    exact h.ends (sub hp)
  sides {p x n before after} row hx := by
    by_cases hp : g.contains p
    · rw [if_pos hp] at row
      exact h.sides row (sub hx)
    · simp [hp] at row
  alone hx := h.alone (sub hx)
  ownership hx := h.ownership (sub hx)
  path y := by
    have same : ∀ z, g.contains z → g.parent? z = f.parent? z := fun z hz => by
      obtain ⟨n, hn⟩ := contains_iff.mp hz
      rw [parent?_of_get? hn, parent?_of_get? (sub hn)]
    obtain ⟨path, hp⟩ := h.path y
    by_cases hy : g.contains y
    · have there : ∀ z ∈ path, g.contains z := by
        induction hp with
        | root _ => simpa using hy
        | step up _ ih =>
          intro z hz
          rcases List.mem_cons.mp hz with rfl | hz
          · exact hy
          · exact ih ((whole up).mp hy) z hz
      exact ⟨path, hp.congr fun z hz => same z (there z hz)⟩
    · refine ⟨[y], .root ?_⟩
      simp [Forest.parent?, not_contains_iff.mp hy]

/-- `g` is `f` without the tree of the root `x`, which had `count` nodes. -/
structure Dropped (f g : Forest) (x : NodeId) (count : Nat) : Prop where
  gone : ∀ {y}, Below f x y → g.nodes.get? y = none
  kept : ∀ {y}, ¬ Below f x y → g.nodes.get? y = f.nodes.get? y
  live : count + g.live = f.live
  allocated : g.allocated = f.allocated
  freed : g.freed = f.freed + count

namespace Dropped

variable {count : Nat}

theorem sub (d : Dropped f g x count) {y : NodeId} {n : Node} (hy : g.nodes.get? y = some n) :
    f.nodes.get? y = some n := by
  by_cases below : Below f x y
  · simp [d.gone below] at hy
  · rwa [d.kept below] at hy

theorem contains_iff_of_live (d : Dropped f g x count) (hy : f.contains y) :
    g.contains y ↔ ¬ Below f x y := by
  constructor
  · rintro hg below
    simp [Forest.contains, Arena.contains, d.gone below] at hg
  · intro apart
    simpa [Forest.contains, Arena.contains, d.kept apart] using hy

theorem linked (d : Dropped f g x count) (h : Linked f rows) (top : f.parent? x = none) :
    Linked g fun p => if g.contains p then rows p else [] := by
  refine h.restrict d.sub fun {y p} up => ?_
  rw [d.contains_iff_of_live (contains_of_parent? up), d.contains_iff_of_live (h.live_parent up)]
  refine not_congr ⟨fun below => ?_, fun below => below.of_parent up⟩
  rcases below.eq_or_parent up with rfl | below
  · simp [up] at top
  · exact below

theorem parent?_sub (d : Dropped f g x count) {y p : NodeId} (up : g.parent? y = some p) :
    f.parent? y = some p := by
  obtain ⟨n, hn, hp⟩ := Option.bind_eq_some_iff.mp up
  rw [parent?_of_get? (d.sub hn), hp]

/-- In the trees that stay, what is below a node is what was. -/
theorem below_iff (d : Dropped f g x count) (h : Linked f rows) {r : NodeId}
    (apart : ¬ Below f x y) : Below g r y ↔ Below f r y := by
  constructor
  · rintro ⟨path, hp, hr⟩
    induction hp with
    | root _ =>
      rw [List.mem_singleton.mp hr]
      exact h.below_self _
    | step up _ ih =>
      have up := d.parent?_sub up
      rcases List.mem_cons.mp hr with rfl | hr
      · exact h.below_self _
      · exact (ih (fun below => apart (below.of_parent up)) hr).of_parent up
  · rintro ⟨path, hp, hr⟩
    refine ⟨path, hp.congr fun z hz => ?_, hr⟩
    have : ¬ Below f x z := fun below => apart (below.trans ⟨path, hp, hz⟩)
    rw [Forest.parent?, d.kept this, Forest.parent?]

end Dropped

/-! ## Roots -/

theorem mem_roots : y ∈ f.roots ↔ f.contains y ∧ f.parent? y = none := by
  simp only [roots, List.mem_map, List.mem_filter, Prod.exists, Arena.mem_entries,
    exists_and_right, exists_eq_right, contains_iff, Option.isNone_iff_eq_none]
  constructor
  · rintro ⟨n, hn, top⟩
    exact ⟨⟨n, hn⟩, by rw [parent?_of_get? hn, top]⟩
  · rintro ⟨⟨n, hn⟩, top⟩
    exact ⟨n, hn, by rwa [parent?_of_get? hn] at top⟩

theorem nodup_roots (f : Forest) : f.roots.Nodup :=
  f.nodes.nodup_keys.sublist (List.filter_sublist.map _)

/-- Dropping a tree drops one root. -/
theorem Dropped.length_roots {count : Nat} (d : Dropped f g x count) (hx : f.contains x)
    (top : f.parent? x = none) (self : Below f x x) : f.roots.length = g.roots.length + 1 := by
  have gone : x ∉ g.roots := fun hg =>
    (d.contains_iff_of_live hx).mp (mem_roots.mp hg).1 self
  have perm : f.roots.Perm (x :: g.roots) := by
    refine (List.perm_ext_iff_of_nodup f.nodup_roots
      (List.nodup_cons.mpr ⟨gone, g.nodup_roots⟩)).mpr fun y => ?_
    rw [List.mem_cons, mem_roots, mem_roots]
    constructor
    · rintro ⟨hy, topY⟩
      by_cases e : y = x
      · exact .inl e
      · have apart : ¬ Below f x y := fun below => e (below.eq_of_top topY).symm
        exact .inr ⟨(d.contains_iff_of_live hy).mpr apart,
          by rw [Forest.parent?, d.kept apart]; exact topY⟩
    · rintro (rfl | ⟨hy, topY⟩)
      · exact ⟨hx, top⟩
      · obtain ⟨n, hn⟩ := contains_iff.mp hy
        rw [parent?_of_get? hn] at topY
        exact ⟨contains_iff.mpr ⟨n, d.sub hn⟩, by rw [parent?_of_get? (d.sub hn), topY]⟩
  simpa using perm.length_eq

theorem release_dropped (h : Linked f rows) (hx : f.contains x) :
    Dropped f { (f.release [x]).2 with freed := (f.release [x]).2.freed + (f.release [x]).1 } x
      (f.release [x]).1 := by
  have w := Pending.single hx
  obtain ⟨allocated, freed⟩ := release_counters f [x]
  refine ⟨fun below => ?_, fun apart => ?_, release_count f [x], allocated, by rw [freed]⟩
  · exact (release_spec h w _).1 ⟨x, by simp, below⟩
  · exact (release_spec h w _).2 (by simpa using apart)

/-- A live node can be freed: it is made a root, and then its tree is dropped. -/
theorem Linked.freeSubtree (h : Linked f rows) (hx : f.contains x) :
    ∃ f' count g, f.freeSubtree x = .ok (count, g) ∧ f.unlink x = .ok f' ∧ Moved f f' x none ∧
      (Linked f' fun q => (rows q).erase x) ∧ Dropped f' g x count := by
  obtain ⟨f', hf', moved, h'⟩ := h.unlink hx
  refine ⟨f', _, _, ?_, hf', moved, h', release_dropped h' (moved.contains_eq x ▸ hx)⟩
  rw [Forest.freeSubtree, show f.detach x = .ok f' from hf']
  rfl

/-- A node that is not live is not freed, and no other fails. -/
theorem Linked.freeSubtree_error (h : Linked f rows) {e : ForestError}
    (failed : f.freeSubtree x = .error e) : ¬ f.contains x ∧ e = .stale x := by
  rcases bind_eq_error.mp failed with failed | ⟨f', -, failed⟩
  · obtain ⟨stale, rfl⟩ := h.unlink_error.mp failed
    exact ⟨by simp [stale], rfl⟩
  · cases failed

/-- Taking a root out of its row changes no record. -/
theorem Linked.detach_top (h : Linked f rows) (hx : f.contains x) (top : f.parent? x = none) :
    ∃ f', f.unlink x = .ok f' ∧ Rewrites f f' fun _ m => m := by
  obtain ⟨n, hn⟩ := contains_iff.mp hx
  obtain ⟨f', hf', r⟩ := detach_rewrites h hn
  rw [parent?_of_get? hn] at top
  refine ⟨f', hf', r.congr fun y m hm => ?_⟩
  obtain ⟨previous, next⟩ := h.alone hn top
  by_cases e : y = x
  · subst e
    obtain rfl := Option.some.inj (hn.symm.trans hm)
    cases n
    simp_all [detached, h.ownership hn]
  · simp [detached, e, top, previous, next]

/-- Erasing a root drops its tree. -/
theorem Linked.erase (h : Linked f rows) (hx : f.contains x) (top : f.parent? x = none) :
    Dropped f (f.erase x).2 x (f.erase x).1 := by
  obtain ⟨f', count, g, hg, hf', moved, h', d⟩ := h.freeSubtree hx
  obtain ⟨_, hf'', r⟩ := h.detach_top hx top
  obtain rfl := Except.ok.inj (hf'.symm.trans hf'')
  have get? : ∀ y, f'.nodes.get? y = f.nodes.get? y := fun y => by simp [r.get?]
  have same : ∀ y, f'.parent? y = f.parent? y := fun y => by rw [r.parent?]; rfl
  have e : f.erase x = (count, g) := by rw [Forest.erase, hg]
  rw [e]
  refine ⟨fun below => d.gone (below.congr same), fun apart => ?_, d.live.trans r.live,
    d.allocated.trans r.allocated, d.freed.trans (by rw [r.freed])⟩
  rw [d.kept fun below => apart (below.congr fun z => (same z).symm), get?]

end Trees

end MarkdownForest.Forest
