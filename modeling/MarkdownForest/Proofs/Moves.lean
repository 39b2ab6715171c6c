/-
# MarkdownForest.Proofs.Moves -- taking nodes out of rows and putting them in

A node leaves its row by `Forest.detach` and joins another by `Forest.attach`.
Each is first described record by record (`detached`, `attached`); that the new
records are linked again is then a matter of where a node stands in its row.

* `Linked.detach`: the row of the node loses it, and it becomes a root;
* `Linked.attach`: a row `before ++ after` becomes `before ++ x :: after`.

Neither meets a link to a node that is not live.
-/
import MarkdownForest.Proofs.Links

namespace MarkdownForest.Forest

set_option autoImplicit false

/-! ## Places in a row -/

section Rows

variable {α : Type} {x y : α} {before after l r : List α}

/-- An element of a row without `x` stands before `x` or after it. -/
theorem split_of_split_without (h : l ++ y :: r = before ++ after) :
    (∃ m, before = l ++ y :: m ∧ r = m ++ after) ∨
      ∃ m, after = m ++ y :: r ∧ l = before ++ m := by
  rcases List.append_eq_append_iff.mp h with ⟨m, hm, hr⟩ | ⟨m, hm, hr⟩
  · cases m with
    | nil => exact .inr ⟨[], by simpa using hr.symm, by simpa using hm.symm⟩
    | cons z m =>
      obtain ⟨rfl, rfl⟩ := List.cons.inj hr
      exact .inl ⟨m, hm, rfl⟩
  · exact .inr ⟨m, hr, hm⟩

/-- An element of a row is the one at a given place, or stands before or after it. -/
theorem split_of_split (h : l ++ y :: r = before ++ x :: after) :
    (∃ m, before = l ++ y :: m ∧ r = m ++ x :: after) ∨
      (y = x ∧ l = before ∧ r = after) ∨ ∃ m, after = m ++ y :: r ∧ l = before ++ x :: m := by
  rcases split_of_split_without h with h | ⟨m, hm, rfl⟩
  · exact .inl h
  · cases m with
    | nil =>
      obtain ⟨rfl, rfl⟩ := List.cons.inj hm
      exact .inr (.inl ⟨rfl, by simp, rfl⟩)
    | cons z m =>
      obtain ⟨rfl, rfl⟩ := List.cons.inj hm
      exact .inr (.inr ⟨m, rfl, rfl⟩)

theorem not_mem_of_nodup (h : (before ++ x :: after).Nodup) : x ∉ before ∧ x ∉ after := by
  have := (List.perm_middle.nodup_iff.mp h)
  simpa using (List.nodup_cons.mp this).1

theorem erase_middle [DecidableEq α] (h : (before ++ x :: after).Nodup) :
    (before ++ x :: after).erase x = before ++ after := by
  rw [List.erase_append_right _ (not_mem_of_nodup h).1, List.erase_cons_head]

end Rows

/-! ## Taking a node out -/

/-- The record of `y` once `x`, whose record is `n`, is taken out of its row. -/
def detached (x : NodeId) (n : Node) (y : NodeId) (m : Node) : Node :=
  { m with
    ownership := if y = x then .root else m.ownership
    parent := if y = x then none else m.parent
    firstChild := if n.parent = some y ∧ m.firstChild = some x then n.next else m.firstChild
    lastChild := if n.parent = some y ∧ m.lastChild = some x then n.previous else m.lastChild
    next := if y = x then none else if n.previous = some y then n.next else m.next
    previous := if y = x then none else if n.next = some y then n.previous else m.previous }

/-- Where a node with a parent stands, and who its neighbours are. -/
theorem Linked.place {f : Forest} {rows : NodeId → List NodeId} (h : Linked f rows)
    {x p : NodeId} {n : Node} (hn : f.nodes.get? x = some n) (hp : n.parent = some p) :
    ∃ before after, rows p = before ++ x :: after ∧ n.previous = before.getLast? ∧
      n.next = after.head? := by
  obtain ⟨before, after, row⟩ := List.append_of_mem ((h.parent_iff hn p).mp hp)
  exact ⟨before, after, row, h.sides row hn⟩

/-- A record is determined by its content, its parent, the row below it and the row it is in. -/
theorem Linked.record_eq {f g : Forest} {rows rows' : NodeId → List NodeId} (hf : Linked f rows)
    (hg : Linked g rows') {x : NodeId} {n m : Node} (hn : f.nodes.get? x = some n)
    (hm : g.nodes.get? x = some m) (content : m.content = n.content) (parent : m.parent = n.parent)
    (below : rows' x = rows x) (beside : ∀ p, n.parent = some p → rows' p = rows p) : m = n := by
  obtain ⟨first, last⟩ := hf.ends hn
  obtain ⟨first', last'⟩ := hg.ends hm
  rw [below] at first' last'
  have ownership : m.ownership = n.ownership := by
    have old := hf.ownership hn
    have new := hg.ownership hm
    rw [parent, ← old] at new
    cases e : n.ownership <;> cases e' : m.ownership <;> simp_all
  have sides : m.previous = n.previous ∧ m.next = n.next := by
    cases up : n.parent with
    | none =>
      obtain ⟨previous, next⟩ := hf.alone hn up
      obtain ⟨previous', next'⟩ := hg.alone hm (parent.trans up)
      exact ⟨previous'.trans previous.symm, next'.trans next.symm⟩
    | some p =>
      obtain ⟨before, after, row, previous, next⟩ := hf.place hn up
      obtain ⟨previous', next'⟩ := hg.sides ((beside p up).trans row) hm
      exact ⟨previous'.trans previous.symm, next'.trans next.symm⟩
  cases n
  cases m
  simp_all

/-- The links from a node to its parent and its neighbours lead to live nodes. -/
theorem Linked.live_links {f : Forest} {rows : NodeId → List NodeId} (h : Linked f rows)
    {x y : NodeId} {n : Node} (hn : f.nodes.get? x = some n)
    (hy : n.previous = some y ∨ n.next = some y ∨ n.parent = some y) : f.contains y := by
  cases hp : n.parent with
  | none => simp [h.alone hn hp, hp] at hy
  | some p =>
    obtain ⟨before, after, row, prev, next⟩ := h.place hn hp
    rw [prev, next, hp] at hy
    rcases hy with hy | hy | hy
    · exact (h.live (p := p) (by simp [row, List.mem_of_getLast? hy])).1
    · exact (h.live (p := p) (by simp [row, List.mem_of_head? hy])).1
    · exact Option.some.inj hy ▸ (h.live ((h.parent_iff hn p).mp hp)).2

theorem detach_rewrites {f : Forest} {rows : NodeId → List NodeId} (h : Linked f rows)
    {x : NodeId} {n : Node} (hn : f.nodes.get? x = some n) :
    ∃ g, f.detach x = .ok g ∧ Rewrites f g (detached x n) := by
  obtain ⟨f₁, e₁, r₁⟩ := updateAt_of_live n.previous
    (fun y hy => h.live_links hn (.inl hy)) ({ · with next := n.next })
  obtain ⟨f₂, e₂, r₂⟩ := updateAt_of_live (f := f₁) n.next
    (fun y hy => r₁.contains_eq y ▸ h.live_links hn (.inr (.inl hy)))
    ({ · with previous := n.previous })
  have r₁₂ := r₁.trans r₂
  obtain ⟨f₃, e₃, r₃⟩ := updateAt_of_live (f := f₂) n.parent
    (fun y hy => r₁₂.contains_eq y ▸ h.live_links hn (.inr (.inr hy))) fun p =>
      { p with
        firstChild := if p.firstChild = some x then n.next else p.firstChild
        lastChild := if p.lastChild = some x then n.previous else p.lastChild }
  have r₁₃ := r₁₂.trans r₃
  obtain ⟨g, e₄, r₄⟩ := update_of_live (f := f₃) (x := x)
    (r₁₃.contains_eq x ▸ contains_iff.mpr ⟨n, hn⟩)
    ({ · with parent := none, previous := none, next := none, ownership := .root })
  refine ⟨g, by simp [detach, node, hn, e₁, e₂, e₃, e₄], (r₁₃.trans r₄).congr fun y m _ => ?_⟩
  by_cases hp : n.previous = some y <;> by_cases hq : n.next = some y <;>
    by_cases hr : n.parent = some y <;> simp only [detached, hp, hq, hr, if_true, if_false] <;>
    split <;> simp

/-- Neighbours have the same parent. -/
theorem Linked.neighbour {f : Forest} {rows : NodeId → List NodeId} (h : Linked f rows)
    {x y : NodeId} {n : Node} (hn : f.nodes.get? x = some n)
    (near : n.previous = some y ∨ n.next = some y) : ∃ p, n.parent = some p ∧ y ∈ rows p := by
  cases hp : n.parent with
  | none => simp [h.alone hn hp] at near
  | some p =>
    obtain ⟨before, after, row, prev, next⟩ := h.place hn hp
    rw [prev, next] at near
    rcases near with near | near
    · exact ⟨p, rfl, by simp [row, List.mem_of_getLast? near]⟩
    · exact ⟨p, rfl, by simp [row, List.mem_of_head? near]⟩

/-- A node is before its next sibling, and after its previous one. -/
theorem Linked.next_iff {f : Forest} {rows : NodeId → List NodeId} (h : Linked f rows)
    {x y : NodeId} {n m : Node} (hn : f.nodes.get? x = some n) (hm : f.nodes.get? y = some m) :
    n.next = some y ↔ m.previous = some x := by
  constructor
  · intro near
    obtain ⟨p, hp, -⟩ := h.neighbour hn (.inr near)
    obtain ⟨before, after, row, -, next⟩ := h.place hn hp
    obtain ⟨after, rfl⟩ : ∃ l, after = y :: l := by
      cases after <;> simp_all
    have row : rows p = (before ++ [x]) ++ y :: after := by simpa using row
    simpa using (h.sides row hm).1
  · intro near
    obtain ⟨p, hp, -⟩ := h.neighbour hm (.inl near)
    obtain ⟨before, after, row, previous, -⟩ := h.place hm hp
    rw [near] at previous
    obtain ⟨before, rfl⟩ := List.getLast?_eq_some_iff.mp previous.symm
    have row : rows p = before ++ x :: y :: after := by simpa using row
    simpa using (h.sides row hn).2

theorem Linked.sides_detached {f : Forest} {rows : NodeId → List NodeId} (h : Linked f rows)
    {x y p : NodeId} {n m : Node} {l r : List NodeId} (hn : f.nodes.get? x = some n)
    (row : (rows p).erase x = l ++ y :: r) (hm : f.nodes.get? y = some m) :
    (detached x n y m).previous = l.getLast? ∧ (detached x n y m).next = r.head? := by
  have hy : y ≠ x ∧ y ∈ rows p := (h.nodup p).mem_erase_iff.mp (by simp [row])
  simp only [detached, if_neg hy.1]
  by_cases hx : x ∈ rows p
  · obtain ⟨before, after, whole, prev, next⟩ := h.place hn ((h.parent_iff hn p).mpr hx)
    have nodup := h.nodup p
    rw [whole] at nodup row
    rw [erase_middle nodup] at row
    rcases split_of_split_without row.symm with ⟨k, rfl, rfl⟩ | ⟨k, rfl, rfl⟩
    -- before `x`: the last one there had `x` as its next sibling
    · have there : rows p = l ++ y :: (k ++ x :: after) := by simp [whole]
      have sides := h.sides there hm
      have notBelow := (not_mem_of_nodup (there ▸ h.nodup p)).2
      have notAfter : after.head? ≠ some y := fun e =>
        notBelow (by simp [List.mem_of_head? e])
      rw [next, if_neg notAfter]
      refine ⟨sides.1, ?_⟩
      cases k with
      | nil => simp [prev]
      | cons z k =>
        have notLast : (z :: k).getLast? ≠ some y := fun e =>
          notBelow (List.mem_append_left _ (List.mem_of_getLast? e))
        simp only [prev, List.getLast?_append_cons, List.getLast?_cons_cons, notLast, if_false]
        simpa using sides.2
    -- after `x`: the first one there had `x` as its previous sibling
    · have there : rows p = (before ++ x :: k) ++ y :: r := by simp [whole]
      have sides := h.sides there hm
      have notAbove := (not_mem_of_nodup (there ▸ h.nodup p)).1
      have notBefore : before.getLast? ≠ some y := fun e =>
        notAbove (by simp [List.mem_of_getLast? e])
      rw [prev, if_neg notBefore]
      refine ⟨?_, sides.2⟩
      cases k with
      | nil => simp [next]
      | cons z k =>
        have notFirst : z ≠ y := fun e => notAbove (by simp [e])
        simp only [next, List.cons_append, List.head?_cons, Option.some.injEq, notFirst, if_false]
        simpa using sides.1
  · rw [List.erase_of_not_mem hx] at row
    have far : ¬ (n.previous = some y ∨ n.next = some y) := fun near => by
      obtain ⟨q, hq, hyq⟩ := h.neighbour hn near
      rw [h.row_unique hyq hy.2] at hq
      exact hx ((h.parent_iff hn p).mp hq)
    rw [if_neg fun e => far (.inl e), if_neg fun e => far (.inr e)]
    exact h.sides row hm

theorem Linked.ends_detached {f : Forest} {rows : NodeId → List NodeId} (h : Linked f rows)
    {x p : NodeId} {n m : Node} (hn : f.nodes.get? x = some n) (hm : f.nodes.get? p = some m) :
    (detached x n p m).firstChild = ((rows p).erase x).head? ∧
      (detached x n p m).lastChild = ((rows p).erase x).getLast? := by
  obtain ⟨first, last⟩ := h.ends hm
  simp only [detached]
  by_cases hp : n.parent = some p
  · obtain ⟨before, after, row, prev, next⟩ := h.place hn hp
    have nodup := row ▸ h.nodup p
    obtain ⟨notBefore, notAfter⟩ := not_mem_of_nodup nodup
    rw [first, last, row, erase_middle nodup, hp, prev, next]
    constructor
    · cases before with
      | nil => simp
      | cons y before =>
        have : y ≠ x := fun e => notBefore (by simp [e])
        simp [this]
    · rcases List.eq_nil_or_concat after with rfl | ⟨after, y, rfl⟩
      · simp
      · have : y ≠ x := fun e => notAfter (by simp [e])
        rw [List.concat_eq_append,
          show before ++ x :: (after ++ [y]) = (before ++ x :: after) ++ [y] by simp,
          ← List.append_assoc before, List.getLast?_concat, List.getLast?_concat]
        simp [this]
  · have hx : x ∉ rows p := fun hx => hp ((h.parent_iff hn p).mpr hx)
    simp [hp, first, last, List.erase_of_not_mem hx]

theorem Linked.path_detached {f g : Forest} {rows : NodeId → List NodeId} (h : Linked f rows)
    {x : NodeId} (up : ∀ y, g.parent? y = if y = x then none else f.parent? y) (y : NodeId) :
    ∃ path, Path g y path := by
  obtain ⟨path, hp⟩ := h.path y
  induction hp with
  | @root y top => exact ⟨_, .root (by rw [up, top, ite_self])⟩
  | @step y p path hy _ ih =>
    by_cases e : y = x
    · exact ⟨_, .root (by rw [up, if_pos e])⟩
    · obtain ⟨path', hp'⟩ := ih
      exact ⟨_, .step (by rw [up, if_neg e, hy]) hp'⟩

theorem Rewrites.parent? {f g : Forest} {c : NodeId → Node → Node} (r : Rewrites f g c)
    (y : NodeId) : g.parent? y = (f.nodes.get? y).bind fun m => (c y m).parent := by
  rw [Forest.parent?, r.get?]
  cases f.nodes.get? y <;> rfl

theorem parent?_detached {f g : Forest} {x : NodeId} {n : Node}
    (r : Rewrites f g (detached x n)) (y : NodeId) :
    g.parent? y = if y = x then none else f.parent? y := by
  rw [r.parent?]
  by_cases e : y = x <;> simp [detached, e, Forest.parent?]

/-- Taking a node out removes it from its row. -/
theorem Linked.detach {f g : Forest} {rows : NodeId → List NodeId} (h : Linked f rows)
    {x : NodeId} {n : Node} (hn : f.nodes.get? x = some n) (r : Rewrites f g (detached x n)) :
    Linked g fun p => (rows p).erase x where
  parent_iff {y m'} hm' p := by
    obtain ⟨m, hm, rfl⟩ := r.eq_some hm'
    by_cases e : y = x
    · simp [detached, e, (h.nodup p).mem_erase_iff]
    · simp [detached, e, (h.nodup p).mem_erase_iff, h.parent_iff hm p]
  live hy := by
    rw [r.contains_eq, r.contains_eq]
    exact h.live (List.mem_of_mem_erase hy)
  nodup p := (h.nodup p).erase x
  ends hm' := by
    obtain ⟨m, hm, rfl⟩ := r.eq_some hm'
    exact h.ends_detached hn hm
  sides row hm' := by
    obtain ⟨m, hm, rfl⟩ := r.eq_some hm'
    exact h.sides_detached hn row hm
  alone {y m'} hm' top := by
    obtain ⟨m, hm, rfl⟩ := r.eq_some hm'
    by_cases e : y = x
    · simp [detached, e]
    · simp only [detached, if_neg e] at top ⊢
      have far : ¬ (n.previous = some y ∨ n.next = some y) := fun near => by
        obtain ⟨q, -, hyq⟩ := h.neighbour hn near
        simp [(h.parent_iff hm q).mpr hyq] at top
      rw [if_neg fun e => far (.inl e), if_neg fun e => far (.inr e)]
      exact h.alone hm top
  ownership {y m'} hm' := by
    obtain ⟨m, hm, rfl⟩ := r.eq_some hm'
    by_cases e : y = x
    · simp [detached, e]
    · simpa [detached, e] using h.ownership hm
  path := h.path_detached (parent?_detached r)

/-! ## Putting a root in -/

/-- The record of `y` once `x` is put below `p` between two neighbours. -/
def attached (p : NodeId) (previous next : Option NodeId) (x y : NodeId) (m : Node) : Node :=
  { m with
    ownership := if y = x then .attached else m.ownership
    parent := if y = x then some p else m.parent
    firstChild := if previous = none ∧ y = p then some x else m.firstChild
    lastChild := if next = none ∧ y = p then some x else m.lastChild
    next := if previous = some y then some x else if y = x then next else m.next
    previous := if next = some y then some x else if y = x then previous else m.previous }

theorem attach_rewrites {f : Forest} {p x : NodeId} (previous next : Option NodeId)
    (hx : f.contains x) (hp : f.contains p) (hprev : ∀ y, previous = some y → f.contains y)
    (hnext : ∀ y, next = some y → f.contains y) :
    ∃ g, f.attach p previous next x = .ok g ∧ Rewrites f g (attached p previous next x) := by
  obtain ⟨f₁, e₁, r₁⟩ := update_of_live hx
    ({ · with parent := some p, previous, next, ownership := .attached })
  obtain ⟨f₂, e₂, r₂⟩ : ∃ f₂, previous.elim (f₁.update p ({ · with firstChild := some x }))
      (fun y => f₁.update y ({ · with next := some x })) = .ok f₂ ∧
      Rewrites f₁ f₂ fun y m =>
        { m with
          next := if previous = some y then some x else m.next
          firstChild := if previous = none ∧ y = p then some x else m.firstChild } := by
    cases previous with
    | none =>
      obtain ⟨f₂, e, r⟩ := update_of_live (r₁.contains_eq p ▸ hp) ({ · with firstChild := some x })
      exact ⟨f₂, e, r.congr fun y m _ => by by_cases h : y = p <;> simp [h]⟩
    | some z =>
      obtain ⟨f₂, e, r⟩ := update_of_live (r₁.contains_eq z ▸ hprev z rfl) ({ · with next := some x })
      exact ⟨f₂, e, r.congr fun y m _ => by by_cases h : y = z <;> simp [h, @eq_comm _ z]⟩
  have r₁₂ := r₁.trans r₂
  obtain ⟨g, e₃, r₃⟩ : ∃ g, next.elim (f₂.update p ({ · with lastChild := some x }))
      (fun y => f₂.update y ({ · with previous := some x })) = .ok g ∧
      Rewrites f₂ g fun y m =>
        { m with
          previous := if next = some y then some x else m.previous
          lastChild := if next = none ∧ y = p then some x else m.lastChild } := by
    cases next with
    | none =>
      obtain ⟨g, e, r⟩ := update_of_live (r₁₂.contains_eq p ▸ hp) ({ · with lastChild := some x })
      exact ⟨g, e, r.congr fun y m _ => by by_cases h : y = p <;> simp [h]⟩
    | some z =>
      obtain ⟨g, e, r⟩ := update_of_live (r₁₂.contains_eq z ▸ hnext z rfl)
        ({ · with previous := some x })
      exact ⟨g, e, r.congr fun y m _ => by by_cases h : y = z <;> simp [h, @eq_comm _ z]⟩
  refine ⟨g, ?_, (r₁₂.trans r₃).congr fun y m _ => ?_⟩
  · cases previous <;> cases next <;> simp only [Option.elim] at e₂ e₃ <;>
      simp only [attach, e₁, ok_bind, e₂, e₃]
  · by_cases e : y = x <;> simp [attached, e]

section Attach

variable {f g : Forest} {rows : NodeId → List NodeId} {x p : NodeId} {n : Node}
  {before after : List NodeId}

theorem parent?_attached {previous next : Option NodeId} (hx : f.contains x)
    (r : Rewrites f g (attached p previous next x)) (y : NodeId) :
    g.parent? y = if y = x then some p else f.parent? y := by
  rw [r.parent?]
  by_cases e : y = x
  · obtain ⟨n, hn⟩ := contains_iff.mp hx
    simp [attached, e, hn]
  · simp [attached, e, Forest.parent?]

theorem Linked.not_mem_of_top (h : Linked f rows) (hn : f.nodes.get? x = some n)
    (top : n.parent = none) (q : NodeId) : x ∉ rows q := fun hx => by
  simp [(h.parent_iff hn q).mpr hx] at top

theorem ends_ne_of_not_mem {y : NodeId} (hy : y ∉ before ++ after) :
    before.getLast? ≠ some y ∧ after.head? ≠ some y :=
  ⟨fun e => hy (List.mem_append_left _ (List.mem_of_getLast? e)),
    fun e => hy (List.mem_append_right _ (List.mem_of_head? e))⟩

theorem Linked.ends_attached (h : Linked f rows) {q : NodeId} {m : Node}
    (row : rows p = before ++ after) (hm : f.nodes.get? q = some m) :
    (attached p before.getLast? after.head? x q m).firstChild =
        (if q = p then before ++ x :: after else rows q).head? ∧
      (attached p before.getLast? after.head? x q m).lastChild =
        (if q = p then before ++ x :: after else rows q).getLast? := by
  obtain ⟨first, last⟩ := h.ends hm
  by_cases e : q = p
  · subst e
    rw [row] at first last
    simp only [attached, if_true, and_true, List.getLast?_eq_none_iff, List.head?_eq_none_iff]
    constructor
    · cases before with
      | nil => simp
      | cons y before => simpa using first
    · rcases List.eq_nil_or_concat after with rfl | ⟨after, y, rfl⟩
      · simp
      · rw [List.concat_eq_append] at last ⊢
        rw [← List.cons_append, ← List.append_assoc, List.getLast?_concat]
        rw [← List.append_assoc, List.getLast?_concat] at last
        simpa using last
  · simp [attached, e, first, last]

theorem Linked.sides_attached (h : Linked f rows) (hn : f.nodes.get? x = some n)
    (top : n.parent = none) (row : rows p = before ++ after) {q y : NodeId} {m : Node}
    {l r : List NodeId} (there : (if q = p then before ++ x :: after else rows q) = l ++ y :: r)
    (hm : f.nodes.get? y = some m) :
    (attached p before.getLast? after.head? x y m).previous = l.getLast? ∧
      (attached p before.getLast? after.head? x y m).next = r.head? := by
  have hx := h.not_mem_of_top hn top
  have nodup := h.nodup p
  simp only [attached]
  by_cases e : q = p
  · rw [if_pos e] at there
    rcases split_of_split there.symm with ⟨k, rfl, rfl⟩ | ⟨rfl, rfl, rfl⟩ | ⟨k, rfl, rfl⟩
    -- before `x`: the last one there gets `x` as its next sibling
    · have split : rows p = l ++ y :: (k ++ after) := by simp [row]
      have sides := h.sides split hm
      have notX : y ≠ x := fun e => hx p (by simp [split, e])
      have notBelow := (not_mem_of_nodup (split ▸ nodup)).2
      have notAfter : after.head? ≠ some y := fun e =>
        notBelow (by simp [List.mem_of_head? e])
      rw [if_neg notAfter, if_neg notX, if_neg notX]
      refine ⟨sides.1, ?_⟩
      cases k with
      | nil => simp
      | cons z k =>
        have notLast : (z :: k).getLast? ≠ some y := fun e =>
          notBelow (List.mem_append_left _ (List.mem_of_getLast? e))
        rw [List.getLast?_append_cons, List.getLast?_cons_cons, if_neg notLast]
        simpa using sides.2
    · obtain ⟨notBefore, notAfter⟩ := ends_ne_of_not_mem (row ▸ hx p)
      simp [notBefore, notAfter]
    -- after `x`: the first one there gets `x` as its previous sibling
    · have split : rows p = (before ++ k) ++ y :: r := by simp [row]
      have sides := h.sides split hm
      have notX : y ≠ x := fun e => hx p (by simp [split, e])
      have notAbove := (not_mem_of_nodup (split ▸ nodup)).1
      have notBefore : before.getLast? ≠ some y := fun e =>
        notAbove (by simp [List.mem_of_getLast? e])
      rw [if_neg notBefore, if_neg notX, if_neg notX]
      refine ⟨?_, sides.2⟩
      cases k with
      | nil => simp
      | cons z k =>
        have notFirst : z ≠ y := fun e => notAbove (by simp [e])
        simpa [notFirst] using sides.1
  · rw [if_neg e] at there
    have hy : y ∈ rows q := by simp [there]
    have notX : y ≠ x := fun e => hx q (e ▸ hy)
    have elsewhere : y ∉ rows p := fun hp => e (h.row_unique hy hp)
    obtain ⟨notBefore, notAfter⟩ := ends_ne_of_not_mem (row ▸ elsewhere)
    rw [if_neg notBefore, if_neg notAfter, if_neg notX, if_neg notX]
    exact h.sides there hm

theorem Linked.path_attached (h : Linked f rows)
    (apart : ∀ path, Path f p path → x ∉ path)
    (up : ∀ y, g.parent? y = if y = x then some p else f.parent? y) (y : NodeId) :
    ∃ path, Path g y path := by
  obtain ⟨above, hp⟩ := h.path p
  have hp' : Path g p above := hp.congr fun z hz => by
    have : z ≠ x := fun e => apart above hp (e ▸ hz)
    rw [up, if_neg this]
  obtain ⟨path, hy⟩ := h.path y
  induction hy with
  | @root y top =>
    by_cases e : y = x
    · exact ⟨_, .step (by rw [up, if_pos e]) hp'⟩
    · exact ⟨_, .root (by rw [up, if_neg e, top])⟩
  | @step y q path hq _ ih =>
    by_cases e : y = x
    · exact ⟨_, .step (by rw [up, if_pos e]) hp'⟩
    · obtain ⟨path', hq'⟩ := ih
      exact ⟨_, .step (by rw [up, if_neg e, hq]) hq'⟩

/-- Putting a root in between `before` and `after` makes it part of their row. -/
theorem Linked.attach (h : Linked f rows) (hn : f.nodes.get? x = some n) (top : n.parent = none)
    (hp : f.contains p) (row : rows p = before ++ after)
    (apart : ∀ path, Path f p path → x ∉ path)
    (r : Rewrites f g (attached p before.getLast? after.head? x)) :
    Linked g fun q => if q = p then before ++ x :: after else rows q where
  parent_iff {y m'} hm' q := by
    obtain ⟨m, hm, rfl⟩ := r.eq_some hm'
    have old := h.parent_iff hm q
    have hx := h.not_mem_of_top hn top q
    by_cases e : y = x
    · by_cases eq : q = p
      · simp [attached, e, eq]
      · simp [attached, e, eq, hx, Ne.symm eq]
    · by_cases eq : q = p
      · subst eq
        simp [attached, e, old, row]
      · simp [attached, e, eq, old]
  live {q y} hy := by
    rw [r.contains_eq, r.contains_eq]
    by_cases eq : q = p
    · subst eq
      rw [if_pos rfl] at hy
      rcases List.mem_cons.mp (List.perm_middle.mem_iff.mp hy) with rfl | hy
      · exact ⟨contains_iff.mpr ⟨n, hn⟩, hp⟩
      · exact h.live (row ▸ hy)
    · exact h.live (by rwa [if_neg eq] at hy)
  nodup q := by
    by_cases eq : q = p
    · rw [if_pos eq]
      refine List.perm_middle.nodup_iff.mpr (List.nodup_cons.mpr ⟨?_, row ▸ h.nodup p⟩)
      exact row ▸ h.not_mem_of_top hn top p
    · rw [if_neg eq]
      exact h.nodup q
  ends hm' := by
    obtain ⟨m, hm, rfl⟩ := r.eq_some hm'
    exact h.ends_attached row hm
  sides there hm' := by
    obtain ⟨m, hm, rfl⟩ := r.eq_some hm'
    exact h.sides_attached hn top row there hm
  alone {y m'} hm' none := by
    obtain ⟨m, hm, rfl⟩ := r.eq_some hm'
    have notX : y ≠ x := fun e => by simp [attached, e] at none
    have topY : m.parent = Option.none := by simpa [attached, notX] using none
    obtain ⟨notBefore, notAfter⟩ := ends_ne_of_not_mem (row ▸ h.not_mem_of_top hm topY p)
    simpa [attached, notX, notBefore, notAfter] using h.alone hm topY
  ownership {y m'} hm' := by
    obtain ⟨m, hm, rfl⟩ := r.eq_some hm'
    by_cases e : y = x
    · simp [attached, e]
    · simpa [attached, e] using h.ownership hm
  path := h.path_attached apart (parent?_attached (contains_iff.mpr ⟨n, hn⟩) r)

end Attach

end MarkdownForest.Forest
