/-
# MarkdownForest.Proofs.Sound -- what every forest keeps to

`Sound f` bundles what holds of a forest at all times: its links fit together,
no child stands under a kind that may not contain it, what its nodes hold is in
range, and the nodes made are those live and those freed.

Every operation keeps it.  What an operation does to links and contents is said
elsewhere (`Moved`, `Dropped`, `Grown`); soundness follows from that alone
(`Sound.moved`, `Sound.dropped`, `Sound.grow`, `Sound.set`).
-/
import MarkdownForest.Proofs.Freeing

namespace MarkdownForest.Forest

set_option autoImplicit false

structure Sound (f : Forest) : Prop where
  linked : Linked f f.children
  placed : ∀ {x p c d}, f.parent? x = some p → f.content? x = some c → f.content? p = some d →
    d.kind.canContain c.kind
  inRange : ∀ {x c}, f.content? x = some c → c.InRange
  counted : f.allocated = f.live + f.freed

section Changes

variable {f g : Forest} {rows : NodeId → List NodeId} {x p anchor : NodeId}

/-- A move keeps a forest sound if the node may stand where it goes. -/
theorem Sound.moved {above : Option NodeId} (s : Sound f) (m : Moved f g x above)
    (h : Linked g rows)
    (fits : ∀ {p c d}, above = some p → f.content? p = some c → f.content? x = some d →
      c.kind.canContain d.kind) : Sound g where
  linked := h.of_rows
  placed {y p c d} up hc hd := by
    rw [m.content?] at hc hd
    rw [m.parent?] at up
    by_cases e : y = x
    · rw [if_pos e] at up
      exact fits up hd (e ▸ hc)
    · rw [if_neg e] at up
      exact s.placed up hc hd
  inRange hc := s.inRange ((m.content? _).symm.trans hc)
  counted := by rw [m.allocated, m.live, m.freed, s.counted]

theorem Sound.unlink (s : Sound f) (e : f.unlink x = .ok g) : Sound g := by
  obtain ⟨-, moved, linked⟩ := s.linked.of_unlink e
  exact s.moved moved linked nofun

/-- Moving a node below another keeps a forest sound. -/
theorem Sound.putBelow (s : Sound f) (put : PutBelow f g p x) : Sound g :=
  s.moved put.moved put.linked fun e hc hd => by
    obtain rfl := Option.some.inj e
    exact put.may.fits hc hd

theorem Sound.appendChild (s : Sound f) (e : f.appendChild p x = .ok g) : Sound g :=
  s.putBelow (s.linked.of_appendChild e)

theorem Sound.prependChild (s : Sound f) (e : f.prependChild p x = .ok g) : Sound g :=
  s.putBelow (s.linked.of_prependChild e)

theorem Sound.insertBefore (s : Sound f) (e : f.insertBefore anchor x = .ok g) : Sound g := by
  obtain ⟨p, -, put⟩ := s.linked.of_insertBefore e
  exact s.putBelow put

theorem Sound.insertAfter (s : Sound f) (e : f.insertAfter anchor x = .ok g) : Sound g := by
  obtain ⟨p, -, put⟩ := s.linked.of_insertAfter e
  exact s.putBelow put

theorem Sound.dropped {count : Nat} (s : Sound f) (d : Dropped f g x count)
    (top : f.parent? x = none) : Sound g where
  linked := (d.linked s.linked top).of_rows
  placed {y p c c'} up hc hc' := by
    have content : ∀ {z b}, g.content? z = some b → f.content? z = some b := fun {z b} hz => by
      obtain ⟨n, hn, rfl⟩ := Option.map_eq_some_iff.mp hz
      simp [content?, d.sub hn]
    obtain ⟨n, hn, hp⟩ := Option.bind_eq_some_iff.mp up
    exact s.placed (by rw [parent?_of_get? (d.sub hn), hp]) (content hc) (content hc')
  inRange {y c} hc := by
    obtain ⟨n, hn, rfl⟩ := Option.map_eq_some_iff.mp hc
    exact s.inRange (x := y) (by simp [content?, d.sub hn])
  counted := by
    have := s.counted
    have := d.live
    rw [d.allocated, d.freed]
    omega

theorem Sound.freeSubtree {count : Nat} (s : Sound f) (e : f.freeSubtree x = .ok (count, g)) :
    Sound g := by
  have hx : f.contains x := by
    obtain ⟨f', hf', -⟩ := bind_eq_ok.mp e
    obtain ⟨n, hn, -⟩ := bind_eq_ok.mp hf'
    exact contains_iff.mpr ⟨n, node_ok.mp hn⟩
  obtain ⟨f', count', g', hg', hf', moved, -, d⟩ := s.linked.freeSubtree hx
  obtain ⟨rfl, rfl⟩ := Prod.mk.inj (Except.ok.inj (hg'.symm.trans e))
  exact (s.unlink hf').dropped d (by simp [moved.parent?])

theorem Sound.erase (s : Sound f) (x : NodeId) : Sound (f.erase x).2 := by
  unfold Forest.erase
  split
  · rename_i freed h
    exact s.freeSubtree h
  · exact s

/-! ## Contents -/

/-- What writing a field does: one content changes, to what was written. -/
theorem set_ok {write : Content → Except FieldError Content} (e : f.set write x = .ok g) :
    ∃ c d, f.content? x = some c ∧ write c = .ok d ∧
      Rewrites f g fun y n => { n with content := if y = x then d else n.content } := by
  simp only [set, bind_eq_ok, content, node_ok, mapError_eq_ok, pure_eq_ok, Except.ok.injEq] at e
  obtain ⟨_, ⟨n, hn, rfl⟩, d, hd, e⟩ := e
  obtain ⟨g', hg', r⟩ := update_of_live (contains_iff.mpr ⟨n, hn⟩) ({ · with content := d })
  obtain rfl := Except.ok.inj (hg'.symm.trans e)
  refine ⟨n.content, d, by simp [content?, hn], hd, r.congr fun y m _ => ?_⟩
  by_cases h : y = x <;> simp [h]

/-- Changing contents changes no link. -/
theorem Linked.recontent {become : NodeId → Node → Content} (h : Linked f rows)
    (r : Rewrites f g fun y n => { n with content := become y n }) : Linked g rows where
  parent_iff hx p := by
    obtain ⟨m, hm, rfl⟩ := r.eq_some hx
    exact h.parent_iff hm p
  live hx := by
    rw [r.contains_eq, r.contains_eq]
    exact h.live hx
  nodup := h.nodup
  ends hx := by
    obtain ⟨m, hm, rfl⟩ := r.eq_some hx
    exact (h.ends hm :)
  sides row hx := by
    obtain ⟨m, hm, rfl⟩ := r.eq_some hx
    exact (h.sides row hm :)
  alone hx top := by
    obtain ⟨m, hm, rfl⟩ := r.eq_some hx
    exact (h.alone hm :) top
  ownership hx := by
    obtain ⟨m, hm, rfl⟩ := r.eq_some hx
    exact (h.ownership hm :)
  path y := by
    obtain ⟨path, hp⟩ := h.path y
    exact ⟨path, hp.congr fun z _ => by rw [r.parent?]; rfl⟩

/-- Writing a field keeps a forest sound if the write keeps the kind, and the range. -/
theorem Sound.set {write : Content → Except FieldError Content} (s : Sound f)
    (keeps : ∀ {c d}, write c = .ok d → d.kind = c.kind ∧ (c.InRange → d.InRange))
    (e : f.set write x = .ok g) : Sound g := by
  obtain ⟨c, d, hc, hd, r⟩ := set_ok e
  obtain ⟨kind, range⟩ := keeps hd
  have content : ∀ {y b}, g.content? y = some b →
      ∃ a, f.content? y = some a ∧ b.kind = a.kind ∧ (a.InRange → b.InRange) := fun {y b} hb => by
    obtain ⟨m, hm, rfl⟩ := Option.map_eq_some_iff.mp hb
    obtain ⟨n, hn, rfl⟩ := r.eq_some hm
    refine ⟨n.content, by simp [content?, hn], ?_⟩
    by_cases h : y = x
    · subst h
      simp only [content?, hn, Option.map_some, Option.some.injEq] at hc
      subst hc
      simpa using ⟨kind, range⟩
    · simp [h]
  refine ⟨(s.linked.recontent r).of_rows, ?_, ?_, ?_⟩
  · intro y p b b' up hb hb'
    rw [r.parent?] at up
    obtain ⟨a, ha, e, -⟩ := content hb
    obtain ⟨a', ha', e', -⟩ := content hb'
    rw [e, e']
    exact s.placed up ha ha'
  · intro y b hb
    obtain ⟨a, ha, -, range⟩ := content hb
    exact range (s.inRange ha)
  · rw [r.allocated, r.live, r.freed, s.counted]

end Changes

end MarkdownForest.Forest
