/-
# MarkdownForest.Proofs.Shadowing -- making nodes on both sides

A new node has names of its own in either of two forests, so the renaming between
them has to be changed.  `Shadows ρ known f g` says what the change must leave as
it is: all names that have been known so far, whether or not their nodes are
still in `f`.  They stand for nodes that are still in `g`.

So nodes can be made on both sides if their names in `f` are new; `g`, where no
known node was ever freed, gives them new names anyway.

* `Shadows.newNode`, `Shadows.plant`: making nodes and trees;
* `Shadows.read`: reading a source, also one that fails.
-/
import MarkdownForest.Proofs.Mirroring
import MarkdownForest.Proofs.Slots

namespace MarkdownForest

set_option autoImplicit false

/-- A renaming can be changed to give a name that is not known yet one that is not taken. -/
theorem exists_renaming {α : Type} [DecidableEq α] {known : α → Prop} (ρ : Equiv.Perm α) {x y : α}
    (new : ¬ known x) (free : ∀ z, known z → ρ z ≠ y) :
    ∃ τ : Equiv.Perm α, (∀ z, known z → τ z = ρ z) ∧ τ x = y := by
  refine ⟨ρ.trans (Equiv.swap (ρ x) y), fun z hz => ?_, by simp⟩
  have ne : ρ z ≠ ρ x := fun e => new (ρ.injective e ▸ hz)
  rw [Equiv.trans_apply, Equiv.swap_apply_of_ne_of_ne ne (free z hz)]

/-- The names known before, and those in use now. -/
def Known {α : Type} (known : α → Prop) (used : α → Bool) (x : α) : Prop :=
  known x ∨ used x

namespace Forest

/-- `g` mirrors `f`, and still has all nodes that have been known. -/
structure Shadows (ρ : Equiv.Perm NodeId) (known : NodeId → Prop) (f g : Forest) : Prop where
  mirrors : Mirrors ρ f g
  linked : Linked f f.children
  linked' : Linked g g.children
  seen : ∀ {x}, f.contains x → known x
  kept : ∀ {x}, known x → g.contains (ρ x)

section Shadows

variable {ρ : Equiv.Perm NodeId} {known : NodeId → Prop} {f g : Forest} {x p : NodeId}

/-- A node is made on both sides. -/
theorem Mirrors.newNode {τ : Equiv.Perm NodeId} (m : Mirrors τ f g) (c : Content)
    (new : τ (f.newNode c).1 = (g.newNode c).1) :
    Mirrors τ (f.newNode c).2 (g.newNode c).2 where
  record {x n} hn := by
    rcases get?_newNode_iff.mp hn with ⟨rfl, rfl⟩ | hn
    · exact get?_newNode_iff.mpr (.inl ⟨new, rfl⟩)
    · exact get?_newNode_iff.mpr (.inr (m.record hn))

theorem Shadows.newNode (s : Shadows ρ known f g) (c : Content)
    (new : ¬ known (f.newNode c).1) :
    ∃ τ : Equiv.Perm NodeId, (∀ z, known z → τ z = ρ z) ∧ τ (f.newNode c).1 = (g.newNode c).1 ∧
      Shadows τ (Known known (f.newNode c).2.contains) (f.newNode c).2 (g.newNode c).2 := by
  obtain ⟨τ, same, moved⟩ := exists_renaming ρ new (y := (g.newNode c).1) fun z hz e => by
    have live := s.kept hz
    simp [Forest.contains, Arena.contains, e, newNode_fresh] at live
  have mirrors := (s.mirrors.congr s.linked fun hz => same _ (s.seen hz)).newNode c moved
  refine ⟨τ, same, moved, mirrors, (s.linked.newNode c).of_rows, (s.linked'.newNode c).of_rows,
    .inr, ?_⟩
  rintro z (hz | hz)
  · rw [same z hz]
    exact contains_newNode (s.kept hz)
  · exact mirrors.contains hz

/-- A child is appended on both sides, or on neither. -/
theorem Shadows.place (s : Shadows ρ known f g) (hp : f.contains p) (hx : f.contains x) :
    Shadows ρ known (f.place p x) (g.place (ρ p) (ρ x)) := by
  have alike := s.mirrors.appendChild s.linked s.linked' hp hx
  rw [Forest.place, Forest.place]
  cases hf : f.appendChild p x <;> cases hg : g.appendChild (ρ p) (ρ x) <;>
    rw [hf, hg] at alike <;> cases alike
  · exact s
  · rename_i f' g' mirrors
    have put := s.linked.of_appendChild hf
    have put' := s.linked'.of_appendChild hg
    exact ⟨mirrors, put.linked, put'.linked, fun hz => s.seen ((put.moved.contains_eq _).symm.trans hz),
      fun hz => (put'.moved.contains_eq _).trans (s.kept hz)⟩

/-- Names known besides may be those of any live nodes. -/
theorem Shadows.know (s : Shadows ρ known f g) : Shadows ρ (Known known f.contains) f g :=
  ⟨s.mirrors, s.linked, s.linked', .inr, fun hz => hz.elim s.kept s.mirrors.contains⟩

/-- Names may be forgotten unless they are those of live nodes. -/
theorem Shadows.forget {known' : NodeId → Prop} (s : Shadows ρ known f g)
    (fewer : ∀ z, known' z → known z) (seen : ∀ {z}, f.contains z → known' z) :
    Shadows ρ known' f g :=
  ⟨s.mirrors, s.linked, s.linked', seen, fun hz => s.kept (fewer _ hz)⟩

theorem contains_plant (f : Forest) (t : Tree) : (f.plant t).2.contains (f.plant t).1 := by
  cases t with
  | node c ts =>
    exact (filled_plantBelow (f.newNode c).2 (f.newNode c).1 ts).contains
      (contains_iff.mpr ⟨_, get?_newNode_iff.mpr (.inl ⟨rfl, rfl⟩)⟩)

mutual
/-- A tree is planted on both sides. -/
theorem Shadows.plant {ρ : Equiv.Perm NodeId} {known : NodeId → Prop} {f g : Forest}
    (s : Shadows ρ known f g) :
    ∀ t : Tree, (∀ z, known z → (f.plant t).2.contains z → f.contains z) →
      ∃ τ : Equiv.Perm NodeId, (∀ z, known z → τ z = ρ z) ∧ τ (f.plant t).1 = (g.plant t).1 ∧
        Shadows τ (Known known (f.plant t).2.contains) (f.plant t).2 (g.plant t).2
  | .node c ts, new => by
    have made : (f.newNode c).2.contains (f.newNode c).1 :=
      contains_iff.mpr ⟨_, get?_newNode_iff.mpr (.inl ⟨rfl, rfl⟩)⟩
    have rest := fun z => (filled_plantBelow (f.newNode c).2 (f.newNode c).1 ts).contains (k := z)
    obtain ⟨τ, same, moved, s'⟩ := s.newNode c fun hz => by
      have live := new _ hz (rest _ made)
      simp [Forest.contains, Arena.contains, newNode_fresh] at live
    obtain ⟨υ, same', below⟩ := s'.plantBelow made ts fun z hz live => by
      rcases hz with hz | hz
      · exact contains_newNode (new z hz live)
      · exact hz
    have moved' := (same' _ (.inr made)).trans moved
    rw [moved] at below
    exact ⟨υ, fun z hz => (same' z (.inl hz)).trans (same z hz), moved',
      below.forget (fun z hz => hz.imp_left .inl) .inr⟩

theorem Shadows.plantBelow {ρ : Equiv.Perm NodeId} {known : NodeId → Prop} {f g : Forest}
    {x : NodeId} (s : Shadows ρ known f g) (hx : f.contains x) :
    ∀ ts : List Tree, (∀ z, known z → (f.plantBelow x ts).contains z → f.contains z) →
      ∃ τ : Equiv.Perm NodeId, (∀ z, known z → τ z = ρ z) ∧
        Shadows τ (Known known (f.plantBelow x ts).contains) (f.plantBelow x ts) (g.plantBelow (ρ x) ts)
  | [], _ => ⟨ρ, fun _ _ => rfl, s.know⟩
  | t :: ts, new => by
    have planted := fun z => (filled_plant f t).contains (k := z)
    have placed := fun z => (filled_place (f.plant t).2 x (f.plant t).1).contains (k := z)
    have rest := fun z =>
      (filled_plantBelow ((f.plant t).2.place x (f.plant t).1) x ts).contains (k := z)
    obtain ⟨τ, same, moved, s'⟩ := s.plant t fun z hz live => new z hz (rest z (placed z live))
    have fixed := same x (s.seen hx)
    have appended := s'.place (planted x hx) (contains_plant f t)
    rw [fixed, moved] at appended
    obtain ⟨υ, same', below⟩ := appended.plantBelow (placed x (planted x hx)) ts
      fun z hz live => by
        rcases hz with hz | hz
        · exact placed z (planted z (new z hz live))
        · exact placed z hz
    rw [fixed] at below
    exact ⟨υ, fun z hz => (same' z (.inl hz)).trans (same z hz),
      below.forget (fun z hz => hz.imp_left .inl) .inr⟩
end

/-- A source is read on both sides, or on neither. -/
theorem Shadows.read (s : Shadows ρ known f g) (hf : Sound f) (hg : Sound g) (o : ParseOptions)
    (source : String) (new : ∀ z, known z → (f.read o source).2.contains z → f.contains z) :
    ∃ τ : Equiv.Perm NodeId, (∀ z, known z → τ z = ρ z) ∧
      (g.read o source).1 = (f.read o source).1.map τ ∧
      Shadows τ (Known known (f.read o source).2.contains) (f.read o source).2 (g.read o source).2 := by
  cases outcome : (readSource o source.toList).error? with
  | none =>
    have read : ∀ h : Forest, h.read o source =
        (.ok (h.plant (readSource o source.toList).documentMade).1,
          (h.plant (readSource o source.toList).documentMade).2) := fun h => by
      simp [Forest.read, outcome]
    rw [read f] at new ⊢
    rw [read g]
    obtain ⟨τ, same, moved, s'⟩ := s.plant _ new
    exact ⟨τ, same, by rw [← moved]; rfl, s'⟩
  | some e =>
    have read : ∀ h : Forest, h.read o source = (.error e, (h.read o source).2) := fun h => by
      simp [Forest.read, outcome]
    obtain ⟨sound, contains, same⟩ := hf.read_error (read f)
    obtain ⟨sound', contains', same'⟩ := hg.read_error (read g)
    refine ⟨ρ, fun _ _ => rfl, by rw [read f, read g]; rfl, ⟨fun {x n} hn => ?_⟩, sound.linked,
      sound'.linked, .inr, fun hz => ?_⟩
    · have hx : f.contains x := contains x ▸ contains_iff.mpr ⟨n, hn⟩
      rw [hf.linked.kept_record sound.linked same hx] at hn
      rw [hg.linked.kept_record sound'.linked same' (s.mirrors.contains hx)]
      exact s.mirrors.record hn
    · rcases hz with hz | hz
      · exact (contains' _).trans (s.kept hz)
      · exact (contains' _).trans (s.mirrors.contains ((contains _).symm.trans hz))

end Shadows

end Forest

end MarkdownForest
