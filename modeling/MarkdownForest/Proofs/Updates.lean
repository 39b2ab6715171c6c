/-
# MarkdownForest.Proofs.Updates -- edits are made of updates

What an edit does it does by changing records one after another, so that
whatever every change of a record keeps is kept by all edits (`Updated`).
-/
import MarkdownForest.Forest.Edit
import MarkdownForest.Proofs.Outcome

namespace MarkdownForest.Forest

set_option autoImplicit false

/-- `g` is `f` after changes of records. -/
inductive Updated (f : Forest) : Forest → Prop where
  | refl : Updated f f
  | step {g h : Forest} {x : NodeId} {change : Node → Node} (before : Updated f g)
    (last : g.update x change = .ok h) : Updated f h

variable {f g h : Forest} {x p : NodeId} {change : Node → Node}

theorem Updated.trans (u : Updated f g) (v : Updated g h) : Updated f h := by
  induction v with
  | refl => exact u
  | step _ last ih => exact .step ih last

theorem updated_update (e : f.update x change = .ok g) : Updated f g :=
  .step .refl e

theorem updated_updateAt {link : Option NodeId} (e : f.updateAt link change = .ok g) :
    Updated f g := by
  cases link with
  | none =>
    cases e
    exact .refl
  | some x => exact updated_update e

theorem updated_detach (e : f.detach x = .ok g) : Updated f g := by
  obtain ⟨n, -, e⟩ := bind_eq_ok.mp e
  obtain ⟨_, h₁, e⟩ := bind_eq_ok.mp e
  obtain ⟨_, h₂, e⟩ := bind_eq_ok.mp e
  obtain ⟨_, h₃, h₄⟩ := bind_eq_ok.mp e
  exact (((updated_updateAt h₁).trans (updated_updateAt h₂)).trans (updated_updateAt h₃)).step h₄

theorem updated_attach {previous next : Option NodeId} (e : f.attach p previous next x = .ok g) :
    Updated f g := by
  obtain ⟨_, h₁, e⟩ := bind_eq_ok.mp e
  cases previous <;> cases next <;>
  · obtain ⟨_, h₂, h₃⟩ := bind_eq_ok.mp e
    exact ((updated_update h₁).step h₂).step h₃

/-- An edit that takes a node out after a check, looks up where it goes, and puts it there. -/
theorem updated_move {α β : Type} {check : Except ForestError α}
    {look : α → Forest → Except ForestError β} {p : α → β → NodeId}
    {previous next : α → β → Option NodeId}
    (e : (check >>= fun a => f.detach x >>= fun f' => look a f' >>= fun b =>
      f'.attach (p a b) (previous a b) (next a b) x) = .ok g) : Updated f g := by
  obtain ⟨a, -, e⟩ := bind_eq_ok.mp e
  obtain ⟨f', hf', e⟩ := bind_eq_ok.mp e
  obtain ⟨b, -, e⟩ := bind_eq_ok.mp e
  exact (updated_detach hf').trans (updated_attach e)

theorem updated_appendChild (e : f.appendChild p x = .ok g) : Updated f g :=
  updated_move e

theorem updated_set {write : Content → Except FieldError Content} (e : f.set write x = .ok g) :
    Updated f g := by
  obtain ⟨_, -, e⟩ := bind_eq_ok.mp e
  obtain ⟨_, -, e⟩ := bind_eq_ok.mp e
  exact updated_update e

/-- Changing records neither makes nor frees nodes. -/
theorem Updated.counters (u : Updated f g) :
    g.live = f.live ∧ g.allocated = f.allocated ∧ g.freed = f.freed := by
  induction u with
  | refl => exact ⟨rfl, rfl, rfl⟩
  | step _ last ih =>
    obtain ⟨live, allocated, freed⟩ := ih
    unfold update at last
    split at last
    · cases last
      exact ⟨(Arena.size_set ..).trans live, allocated, freed⟩
    · cases last

end MarkdownForest.Forest
