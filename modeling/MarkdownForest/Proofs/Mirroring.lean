/-
# MarkdownForest.Proofs.Mirroring -- the same changes on both sides

What changes a forest changes one that mirrors it in the same way: the same edits
are accepted, those that fail do so for the same reasons, and one forest mirrors
the other as before (`Alike (Mirrors ρ)`).

* `Mirrors.link`: links lead to the same nodes;
* `Mirrors.checkChild`, `Mirrors.checkSibling`: the same edits are accepted;
* `Mirrors.set`, `Mirrors.unlink`, `Mirrors.appendChild` and its companions: what
  they make of the two forests.
-/
import MarkdownForest.Proofs.Renaming
import MarkdownForest.Proofs.Workspaces

namespace MarkdownForest

set_option autoImplicit false

namespace Forest

open Workspace (Link)

section Checks

variable {ρ : Equiv.Perm NodeId} {f g f' g' : Forest} {rows rows' : NodeId → List NodeId}
  {x p anchor : NodeId}

namespace Mirrors

/-- Every link is there on both sides. -/
theorem link (m : Mirrors ρ f g) (h : Linked f rows) (hx : f.contains x) (link : Link) :
    Alike (fun o o' => o' = o.map ρ ∧ ∀ y, o = some y → f.contains y)
      (link.read f x) (link.read g (ρ x)) := by
  obtain ⟨n, hn⟩ := contains_iff.mp hx
  obtain ⟨first, last⟩ := h.ends hn
  have node := node_ok.mpr hn
  have node' := node_ok.mpr (m.record hn)
  cases link <;>
    simp only [Link.read, Forest.parent, Forest.firstChild, Forest.lastChild, Forest.next,
      Forest.previous, node, node', ok_bind, pure_eq_ok] <;>
    refine .ok ⟨rfl, fun y e => ?_⟩
  · exact h.live_links hn (.inr (.inr e))
  · exact (h.live (List.mem_of_head? (first ▸ e))).1
  · exact (h.live (List.mem_of_getLast? (last ▸ e))).1
  · exact h.live_links hn (.inr (.inl e))
  · exact h.live_links hn (.inl e)

theorem checkChild (m : Mirrors ρ f g) (hf : Linked f rows) (hg : Linked g rows')
    (hp : f.contains p) (hx : f.contains x) :
    g.checkChild (ρ p) (ρ x) = f.checkChild p x := by
  simp only [Forest.checkChild, m.kind hp, m.kind hx, m.ancestors hf hg hp,
    EmbeddingLike.apply_eq_iff_eq, List.mem_map_of_injective ρ.injective]

theorem checkSibling (m : Mirrors ρ f g) (hf : Linked f rows) (hg : Linked g rows')
    (ha : f.contains anchor) (hx : f.contains x) :
    Alike (fun p p' => p' = ρ p ∧ f.contains p) (f.checkSibling anchor x)
      (g.checkSibling (ρ anchor) (ρ x)) := by
  obtain ⟨n, hn⟩ := contains_iff.mp hx
  rw [Forest.checkSibling, Forest.checkSibling, node_ok.mpr hn, node_ok.mpr (m.record hn)]
  refine (m.link hf ha .parent).bind fun o o' there => ?_
  obtain ⟨e, live⟩ := there
  subst e
  cases o with
  | none => exact .error _
  | some p =>
    by_cases same : anchor = x
    · simpa [same] using .error _
    · have hp := live p rfl
      simp only [same, EmbeddingLike.apply_eq_iff_eq, if_false, Option.map_some]
      exact (Alike.of_eq (m.checkChild hf hg hp hx)).bind fun _ _ _ => .ok ⟨rfl, hp⟩

/-! ## Edits -/

/-- Records changed alike still mirror each other. -/
theorem rewrites {c d : NodeId → Node → Node} (m : Mirrors ρ f g) (r : Rewrites f f' c)
    (s : Rewrites g g' d)
    (same : ∀ y n, d (ρ y) (n.rename ρ) = (c y n).rename ρ) : Mirrors ρ f' g' where
  record {y n} hn := by
    obtain ⟨k, hk, rfl⟩ := r.eq_some hn
    rw [s.get?, m.record hk, Option.map_some, same]

theorem update {c d : Node → Node} (m : Mirrors ρ f g) (hx : f.contains x)
    (same : ∀ n, d (n.rename ρ) = (c n).rename ρ) :
    Alike (Mirrors ρ) (f.update x c) (g.update (ρ x) d) := by
  obtain ⟨f', hf', r⟩ := update_of_live hx c
  obtain ⟨g', hg', s⟩ := update_of_live (m.contains hx) d
  rw [hf', hg']
  refine .ok (m.rewrites r s fun y n => ?_)
  by_cases e : y = x <;> simp [e, same]

theorem set (m : Mirrors ρ f g) (hx : f.contains x) (write : Content → Except FieldError Content) :
    Alike (Mirrors ρ) (f.set write x) (g.set write (ρ x)) := by
  rw [Forest.set, Forest.set, m.content hx]
  refine (Alike.refl _).bind fun c c' e => ?_
  subst e
  refine (Alike.refl _).bind fun d d' e => ?_
  subst e
  exact m.update hx fun n => rfl

/-- What is left when a node has been taken out on both sides. -/
structure Detached (ρ : Equiv.Perm NodeId) (f f' g' : Forest) : Prop where
  mirrors : Mirrors ρ f' g'
  linked : Linked f' f'.children
  contains_eq : ∀ y, f'.contains y = f.contains y

theorem detach (m : Mirrors ρ f g) (hf : Linked f rows) (hg : Linked g rows')
    (hx : f.contains x) : Alike (Detached ρ f) (f.detach x) (g.detach (ρ x)) := by
  obtain ⟨n, hn⟩ := contains_iff.mp hx
  obtain ⟨f', hf', r⟩ := detach_rewrites hf hn
  obtain ⟨g', hg', s⟩ := detach_rewrites hg (m.record hn)
  rw [hf', hg']
  refine .ok ⟨m.rewrites r s fun y k => ?_, (hf.detach hn r).of_rows, r.contains_eq⟩
  have link : ∀ {o : Option NodeId} {z : NodeId}, o.map ρ = some (ρ z) ↔ o = some z :=
    Option.map_perm_eq_some ρ
  simp only [detached, Node.rename, EmbeddingLike.apply_eq_iff_eq, link, Node.mk.injEq, true_and]
  simp only [apply_ite (Option.map ρ), Option.map_none, and_self]

theorem attach (m : Mirrors ρ f g) {previous next : Option NodeId} (hx : f.contains x)
    (hp : f.contains p) (hprev : ∀ y, previous = some y → f.contains y)
    (hnext : ∀ y, next = some y → f.contains y) :
    Alike (Mirrors ρ) (f.attach p previous next x)
      (g.attach (ρ p) (previous.map ρ) (next.map ρ) (ρ x)) := by
  have copied : ∀ {o : Option NodeId}, (∀ y, o = some y → f.contains y) →
      ∀ y, o.map ρ = some y → g.contains y := fun live y e => by
    obtain ⟨z, hz, rfl⟩ := Option.map_eq_some_iff.mp e
    exact m.contains (live z hz)
  obtain ⟨f', hf', r⟩ := attach_rewrites previous next hx hp hprev hnext
  obtain ⟨g', hg', s⟩ := attach_rewrites (previous.map ρ) (next.map ρ) (m.contains hx)
    (m.contains hp) (copied hprev) (copied hnext)
  rw [hf', hg']
  refine .ok (m.rewrites r s fun y k => ?_)
  have link : ∀ {o : Option NodeId} {z : NodeId}, o.map ρ = some (ρ z) ↔ o = some z :=
    Option.map_perm_eq_some ρ
  simp only [attached, Node.rename, EmbeddingLike.apply_eq_iff_eq, link, Node.mk.injEq, true_and,
    Option.map_eq_none_iff]
  simp only [apply_ite (Option.map ρ), Option.map_some, and_self]

section Attaching

variable (m : Mirrors ρ f g) (hf : Linked f rows) (hg : Linked g rows')
include m hf hg

theorem unlink (hx : f.contains x) : Alike (Mirrors ρ) (f.unlink x) (g.unlink (ρ x)) :=
  (m.detach hf hg hx).mono fun _ _ _ _ d => d.mirrors

theorem appendChild (hp : f.contains p) (hx : f.contains x) :
    Alike (Mirrors ρ) (f.appendChild p x) (g.appendChild (ρ p) (ρ x)) := by
  refine (Alike.of_eq (m.checkChild hf hg hp hx)).bind fun _ _ _ => ?_
  refine (m.detach hf hg hx).bind fun f' g' d => ?_
  have hp' := (d.contains_eq p).trans hp
  refine (d.mirrors.link d.linked hp' .lastChild).bind fun o o' there => ?_
  obtain ⟨e, live⟩ := there
  exact e ▸ d.mirrors.attach ((d.contains_eq x).trans hx) hp' live nofun

theorem prependChild (hp : f.contains p) (hx : f.contains x) :
    Alike (Mirrors ρ) (f.prependChild p x) (g.prependChild (ρ p) (ρ x)) := by
  refine (Alike.of_eq (m.checkChild hf hg hp hx)).bind fun _ _ _ => ?_
  refine (m.detach hf hg hx).bind fun f' g' d => ?_
  have hp' := (d.contains_eq p).trans hp
  refine (d.mirrors.link d.linked hp' .firstChild).bind fun o o' there => ?_
  obtain ⟨e, live⟩ := there
  exact e ▸ d.mirrors.attach ((d.contains_eq x).trans hx) hp' nofun live

theorem insertBefore (ha : f.contains anchor) (hx : f.contains x) :
    Alike (Mirrors ρ) (f.insertBefore anchor x) (g.insertBefore (ρ anchor) (ρ x)) := by
  refine (m.checkSibling hf hg ha hx).bind fun p p' there => ?_
  obtain ⟨e, hp⟩ := there
  subst e
  refine (m.detach hf hg hx).bind fun f' g' d => ?_
  have ha' := (d.contains_eq anchor).trans ha
  refine (d.mirrors.link d.linked ha' .previous).bind fun o o' there => ?_
  obtain ⟨e, live⟩ := there
  exact e ▸ d.mirrors.attach ((d.contains_eq x).trans hx) ((d.contains_eq p).trans hp) live
    fun y e => Option.some.inj e ▸ ha'

theorem insertAfter (ha : f.contains anchor) (hx : f.contains x) :
    Alike (Mirrors ρ) (f.insertAfter anchor x) (g.insertAfter (ρ anchor) (ρ x)) := by
  refine (m.checkSibling hf hg ha hx).bind fun p p' there => ?_
  obtain ⟨e, hp⟩ := there
  subst e
  refine (m.detach hf hg hx).bind fun f' g' d => ?_
  have ha' := (d.contains_eq anchor).trans ha
  refine (d.mirrors.link d.linked ha' .next).bind fun o o' there => ?_
  obtain ⟨e, live⟩ := there
  exact e ▸ d.mirrors.attach ((d.contains_eq x).trans hx) ((d.contains_eq p).trans hp)
    (fun y e => Option.some.inj e ▸ ha') live

end Attaching

end Mirrors

end Checks

end Forest

end MarkdownForest
