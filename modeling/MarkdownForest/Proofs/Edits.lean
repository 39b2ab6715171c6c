/-
# MarkdownForest.Proofs.Edits -- what each edit does

An edit fails exactly when its checks fail.  If they pass, the node moved stands
where it should (`Linked.appendChild` and its three companions, `Linked.unlink`),
and all else is as before (`Moved`).

* `checkChild_ok`, `checkSibling_ok`: what the checks find out;
* `checkChild_stale`, `checkSibling_stale`: a node found stale was given to the
  edit; no link led to it;
* `Linked.appendChild_error` and its companions: an edit fails as its checks do.
-/
import MarkdownForest.Proofs.Moves

namespace MarkdownForest.Forest

set_option autoImplicit false

/-! ## Checks -/

/-- The content of a live node. -/
def content? (f : Forest) (x : NodeId) : Option Content :=
  (f.nodes.get? x).map (·.content)

section Checks

variable {f : Forest} {rows : NodeId → List NodeId} {x p anchor : NodeId}

theorem contains_of_content? {c : Content} (h : f.content? x = some c) : f.contains x := by
  obtain ⟨n, hn, -⟩ := Option.map_eq_some_iff.mp h
  exact contains_iff.mpr ⟨n, hn⟩

theorem content?_of_contains (h : f.contains x) : ∃ c, f.content? x = some c := by
  obtain ⟨n, hn⟩ := contains_iff.mp h
  exact ⟨n.content, by simp [content?, hn]⟩

theorem node_ok {n : Node} : f.node x = .ok n ↔ f.nodes.get? x = some n := by
  unfold node; split <;> simp [*]

theorem node_error {e : ForestError} :
    f.node x = .error e ↔ f.contains x = false ∧ e = .stale x := by
  unfold node
  split
  · rename_i n hn
    have : f.contains x := contains_iff.mpr ⟨n, hn⟩
    simp [this]
  · rename_i hn
    simp [contains, Arena.contains, hn, eq_comm]

theorem kind_ok {k : Kind} : f.kind x = .ok k ↔ ∃ c, f.content? x = some c ∧ c.kind = k := by
  simp only [kind, content, bind_eq_ok, node_ok, pure_eq_ok, Except.ok.injEq, content?,
    Option.map_eq_some_iff]

theorem kind_error {e : ForestError} :
    f.kind x = .error e ↔ f.contains x = false ∧ e = .stale x := by
  simp [kind, content, bind_eq_error, node_error]

/-- When a node may become a child. -/
structure MayHold (f : Forest) (p x : NodeId) : Prop where
  parent : f.contains p
  child : f.contains x
  ne : p ≠ x
  apart : x ∉ f.ancestors p
  fits : ∀ {c d}, f.content? p = some c → f.content? x = some d → c.kind.canContain d.kind

theorem checkChild_ok : f.checkChild p x = .ok () ↔ MayHold f p x := by
  simp only [checkChild, bind_eq_ok, kind_ok]
  constructor
  · rintro ⟨_, ⟨c, hc, rfl⟩, _, ⟨d, hd, rfl⟩, h⟩
    by_cases ne : p = x
    · simp [ne] at h
    by_cases above : x ∈ f.ancestors p
    · simp [ne, above] at h
    by_cases fits : c.kind.canContain d.kind
    · refine ⟨contains_of_content? hc, contains_of_content? hd, ne, above, fun hc' hd' => ?_⟩
      rw [hc] at hc'
      rw [hd] at hd'
      obtain rfl := Option.some.inj hc'
      obtain rfl := Option.some.inj hd'
      exact fits
    · simp [ne, above, fits] at h
  · intro h
    obtain ⟨c, hc⟩ := content?_of_contains h.parent
    obtain ⟨d, hd⟩ := content?_of_contains h.child
    exact ⟨_, ⟨c, hc, rfl⟩, _, ⟨d, hd, rfl⟩, by simp [h.ne, h.apart, h.fits hc hd]⟩

theorem checkChild_stale {y : NodeId} (h : f.checkChild p x = .error (.stale y)) :
    (y = p ∨ y = x) ∧ f.contains y = false := by
  simp only [checkChild, bind_eq_error, kind_error, ForestError.stale.injEq] at h
  rcases h with ⟨stale, rfl⟩ | ⟨k, -, ⟨stale, rfl⟩ | ⟨l, -, h⟩⟩
  · exact ⟨.inl rfl, stale⟩
  · exact ⟨.inr rfl, stale⟩
  · by_cases ne : p = x
    · simp [ne] at h
    by_cases above : x ∈ f.ancestors p
    · simp [ne, above] at h
    by_cases fits : k.canContain l <;> simp [ne, above, fits] at h

theorem checkSibling_ok :
    f.checkSibling anchor x = .ok p ↔
      f.parent? anchor = some p ∧ anchor ≠ x ∧ MayHold f p x := by
  simp only [checkSibling, bind_eq_ok, node_ok, Forest.parent, pure_eq_ok, Except.ok.injEq]
  constructor
  · rintro ⟨n, -, _, ⟨a, ha, rfl⟩, h⟩
    cases hq : a.parent with
    | none => simp [hq] at h
    | some q =>
      by_cases ne : anchor = x
      · simp [hq, ne] at h
      simp only [hq, ne, if_false, bind_eq_ok, Except.ok.injEq] at h
      obtain ⟨⟨⟩, check, rfl⟩ := h
      exact ⟨by simp [parent?_of_get? ha, hq], ne, checkChild_ok.mp check⟩
  · rintro ⟨up, ne, h⟩
    obtain ⟨n, hn⟩ := contains_iff.mp h.child
    obtain ⟨a, ha, hq⟩ := Option.bind_eq_some_iff.mp up
    exact ⟨n, hn, _, ⟨a, ha, rfl⟩, by simp [hq, ne, checkChild_ok.mpr h]⟩

theorem checkSibling_stale {rows : NodeId → List NodeId} {y : NodeId} (s : Linked f rows)
    (h : f.checkSibling anchor x = .error (.stale y)) :
    (y = anchor ∨ y = x) ∧ f.contains y = false := by
  simp only [checkSibling, bind_eq_error, node_error, ForestError.stale.injEq, Forest.parent,
    bind_eq_ok, node_ok, pure_eq_ok, Except.ok.injEq, reduceCtorEq, and_false, exists_false,
    or_false] at h
  rcases h with ⟨stale, rfl⟩ | ⟨_, -, ⟨stale, rfl⟩ | ⟨_, ⟨a, ha, rfl⟩, h⟩⟩
  · exact ⟨.inr rfl, stale⟩
  · exact ⟨.inl rfl, stale⟩
  · cases hq : a.parent with
    | none => simp [hq] at h
    | some q =>
      by_cases ne : anchor = x
      · simp [hq, ne] at h
      have live : f.contains q := s.live_links ha (.inr (.inr hq))
      simp only [hq, ne, if_false, bind_eq_error, reduceCtorEq, and_false, exists_false,
        or_false] at h
      -- the parent of the anchor is live, so only the node moved can be stale
      obtain ⟨rfl | rfl, stale⟩ := checkChild_stale h
      · simp [live] at stale
      · exact ⟨.inr rfl, stale⟩

end Checks

/-! ## Moves -/

/-- `g` is `f` with `x` moved below a node, or made a root; the order of siblings is left open. -/
structure Moved (f g : Forest) (x : NodeId) (above : Option NodeId) : Prop where
  content? : ∀ y, g.content? y = f.content? y
  parent? : ∀ y, g.parent? y = if y = x then above else f.parent? y
  live : g.live = f.live
  allocated : g.allocated = f.allocated
  freed : g.freed = f.freed

theorem Moved.contains_eq {f g : Forest} {x : NodeId} {above : Option NodeId} (m : Moved f g x above)
    (y : NodeId) : g.contains y = f.contains y := by
  have := congrArg Option.isSome (m.content? y)
  simpa [Forest.content?, Forest.contains, Arena.contains] using this

theorem Rewrites.content? {f g : Forest} {c : NodeId → Node → Node} (r : Rewrites f g c)
    (same : ∀ y m, (c y m).content = m.content) (y : NodeId) : g.content? y = f.content? y := by
  rw [Forest.content?, r.get?, Option.map_map]
  congr 1
  exact funext fun m => same y m

section Edits

variable {f : Forest} {rows : NodeId → List NodeId} {x p anchor : NodeId}

/-- A node is unlinked if it is live. -/
theorem Linked.unlink (h : Linked f rows) (hx : f.contains x) :
    ∃ g, f.unlink x = .ok g ∧ Moved f g x none ∧ Linked g fun q => (rows q).erase x := by
  obtain ⟨n, hn⟩ := contains_iff.mp hx
  obtain ⟨g, hg, r⟩ := detach_rewrites h hn
  refine ⟨g, hg, ?_, h.detach hn r⟩
  exact ⟨r.content? fun _ _ => rfl, parent?_detached r, r.live, r.allocated, r.freed⟩

/-- A node that may become a child can be put anywhere in the row it goes to. -/
theorem Linked.move (h : Linked f rows) (may : MayHold f p x) (before after : List NodeId)
    (row : (rows p).erase x = before ++ after) :
    ∃ f' g, f.detach x = .ok f' ∧ (Linked f' fun q => (rows q).erase x) ∧ f'.contains p ∧
      f'.attach p before.getLast? after.head? x = .ok g ∧ Moved f g x (some p) ∧
      Linked g fun q => if q = p then before ++ x :: after else (rows q).erase x := by
  obtain ⟨n, hn⟩ := contains_iff.mp may.child
  obtain ⟨f', hf', r⟩ := detach_rewrites h hn
  have h' := h.detach hn r
  have hp' : f'.contains p := r.contains_eq p ▸ may.parent
  have hx' : f'.nodes.get? x = some (detached x n x n) := by rw [r.get?, hn]; rfl
  have there : ∀ y ∈ before ++ after, f'.contains y := fun y hy => (h'.live (row ▸ hy)).1
  obtain ⟨g, hg, s⟩ := attach_rewrites (f := f') (p := p) (x := x) before.getLast? after.head?
    (contains_iff.mpr ⟨_, hx'⟩) hp'
    (fun y hy => there y (by simp [List.mem_of_getLast? hy]))
    (fun y hy => there y (by simp [List.mem_of_head? hy]))
  -- taking `x` out leaves the path of `p` as it is, for `x` is not on it
  have apart : ∀ path, Path f' p path → x ∉ path := fun path hpath => by
    have same : Path f' p (f.ancestors p) :=
      (h.path_ancestors may.parent).congr fun y hy => by
        have : y ≠ x := fun e => may.apart (e ▸ hy)
        rw [parent?_detached r, if_neg this]
    rw [hpath.unique same]
    exact may.apart
  refine ⟨f', g, hf', h', hp', hg, ?_, h'.attach hx' (by simp [detached]) hp' row apart s⟩
  refine ⟨fun y => ?_, fun y => ?_, s.live.trans r.live, s.allocated.trans r.allocated,
    s.freed.trans r.freed⟩
  · rw [s.content? fun _ _ => rfl, r.content? fun _ _ => rfl]
  · rw [parent?_attached (contains_iff.mpr ⟨_, hx'⟩) s, parent?_detached r]
    by_cases e : y = x <;> simp [e]

theorem Linked.appendChild (h : Linked f rows) (may : MayHold f p x) :
    ∃ g, f.appendChild p x = .ok g ∧ Moved f g x (some p) ∧
      Linked g fun q => if q = p then (rows p).erase x ++ [x] else (rows q).erase x := by
  obtain ⟨f', g, hf', h', hp', hg, moved, linked⟩ := h.move may _ []
    (List.append_nil _).symm
  obtain ⟨m, hm⟩ := contains_iff.mp hp'
  refine ⟨g, ?_, moved, linked⟩
  simpa [Forest.appendChild, checkChild_ok.mpr may, hf', Forest.lastChild, node_ok.mpr hm,
    (h'.ends hm).2] using hg

theorem Linked.prependChild (h : Linked f rows) (may : MayHold f p x) :
    ∃ g, f.prependChild p x = .ok g ∧ Moved f g x (some p) ∧
      Linked g fun q => if q = p then x :: (rows p).erase x else (rows q).erase x := by
  obtain ⟨f', g, hf', h', hp', hg, moved, linked⟩ := h.move may [] _
    (List.nil_append _).symm
  obtain ⟨m, hm⟩ := contains_iff.mp hp'
  refine ⟨g, ?_, moved, linked⟩
  simpa [Forest.prependChild, checkChild_ok.mpr may, hf', Forest.firstChild, node_ok.mpr hm,
    (h'.ends hm).1] using hg

/-- Where the anchor of a move stands once the node that moves is taken out. -/
theorem Linked.place_anchor (h : Linked f rows) (up : f.parent? anchor = some p)
    (ne : anchor ≠ x) : ∃ before after, (rows p).erase x = before ++ anchor :: after :=
  List.append_of_mem ((List.mem_erase_of_ne ne).mpr (h.parent?_iff.mp up))

theorem Linked.insertBefore (h : Linked f rows) (check : f.checkSibling anchor x = .ok p) :
    ∃ g before after, f.insertBefore anchor x = .ok g ∧ Moved f g x (some p) ∧
      (rows p).erase x = before ++ anchor :: after ∧
      Linked g fun q => if q = p then before ++ x :: anchor :: after else (rows q).erase x := by
  obtain ⟨up, ne, may⟩ := checkSibling_ok.mp check
  obtain ⟨before, after, row⟩ := h.place_anchor up ne
  obtain ⟨f', g, hf', h', -, hg, moved, linked⟩ := h.move may _ _ row
  obtain ⟨m, hm⟩ := contains_iff.mp (h'.live (p := p) (x := anchor) (by simp [row])).1
  refine ⟨g, before, after, ?_, moved, row, linked⟩
  simpa [Forest.insertBefore, check, hf', Forest.previous, node_ok.mpr hm,
    (h'.sides row hm).1] using hg

theorem Linked.insertAfter (h : Linked f rows) (check : f.checkSibling anchor x = .ok p) :
    ∃ g before after, f.insertAfter anchor x = .ok g ∧ Moved f g x (some p) ∧
      (rows p).erase x = before ++ anchor :: after ∧
      Linked g fun q => if q = p then before ++ anchor :: x :: after else (rows q).erase x := by
  obtain ⟨up, ne, may⟩ := checkSibling_ok.mp check
  obtain ⟨before, after, row⟩ := h.place_anchor up ne
  obtain ⟨f', g, hf', h', -, hg, moved, linked⟩ := h.move may (before ++ [anchor])
    after (by simp [row])
  obtain ⟨m, hm⟩ := contains_iff.mp (h'.live (p := p) (x := anchor) (by simp [row])).1
  refine ⟨g, before, after, ?_, moved, row, by simpa using linked⟩
  simpa [Forest.insertAfter, check, hf', Forest.next, node_ok.mpr hm,
    (h'.sides row hm).2] using hg

/-! ## Successes -/

/-- The edit that led from `f` to `g` put `x` below `p`, where it may stand. -/
structure PutBelow (f g : Forest) (p x : NodeId) : Prop where
  may : MayHold f p x
  moved : Moved f g x (some p)
  linked : Linked g g.children

section Successes

variable {g : Forest}

theorem Linked.of_unlink (h : Linked f rows) (e : f.unlink x = .ok g) :
    f.contains x ∧ Moved f g x none ∧ Linked g fun q => (rows q).erase x := by
  have hx : f.contains x := by
    obtain ⟨n, hn, -⟩ := bind_eq_ok.mp (e : f.detach x = .ok g)
    exact contains_iff.mpr ⟨n, node_ok.mp hn⟩
  obtain ⟨_, hg, moved, linked⟩ := h.unlink hx
  obtain rfl := Except.ok.inj (hg.symm.trans e)
  exact ⟨hx, moved, linked⟩

theorem Linked.of_appendChild (h : Linked f rows) (e : f.appendChild p x = .ok g) :
    PutBelow f g p x := by
  obtain ⟨_, check, -⟩ := bind_eq_ok.mp e
  have may := checkChild_ok.mp check
  obtain ⟨_, hg, moved, linked⟩ := h.appendChild may
  obtain rfl := Except.ok.inj (hg.symm.trans e)
  exact ⟨may, moved, linked.of_rows⟩

theorem Linked.of_prependChild (h : Linked f rows) (e : f.prependChild p x = .ok g) :
    PutBelow f g p x := by
  obtain ⟨_, check, -⟩ := bind_eq_ok.mp e
  have may := checkChild_ok.mp check
  obtain ⟨_, hg, moved, linked⟩ := h.prependChild may
  obtain rfl := Except.ok.inj (hg.symm.trans e)
  exact ⟨may, moved, linked.of_rows⟩

theorem Linked.of_insertBefore (h : Linked f rows) (e : f.insertBefore anchor x = .ok g) :
    ∃ p, f.parent? anchor = some p ∧ PutBelow f g p x := by
  obtain ⟨p, check, -⟩ := bind_eq_ok.mp e
  obtain ⟨up, -, may⟩ := checkSibling_ok.mp check
  obtain ⟨_, _, _, hg, moved, -, linked⟩ := h.insertBefore check
  obtain rfl := Except.ok.inj (hg.symm.trans e)
  exact ⟨p, up, may, moved, linked.of_rows⟩

theorem Linked.of_insertAfter (h : Linked f rows) (e : f.insertAfter anchor x = .ok g) :
    ∃ p, f.parent? anchor = some p ∧ PutBelow f g p x := by
  obtain ⟨p, check, -⟩ := bind_eq_ok.mp e
  obtain ⟨up, -, may⟩ := checkSibling_ok.mp check
  obtain ⟨_, _, _, hg, moved, -, linked⟩ := h.insertAfter check
  obtain rfl := Except.ok.inj (hg.symm.trans e)
  exact ⟨p, up, may, moved, linked.of_rows⟩

end Successes

/-! ## Failures -/

section Failures

variable {e : ForestError}

/-- An edit that goes on after a check fails exactly when the check does, if it succeeds whenever
the check passes. -/
theorem bind_error_iff {α β : Type} {check : Except ForestError α}
    {k : α → Except ForestError β} (succeeds : ∀ a, check = .ok a → ∃ b, k a = .ok b) :
    (check >>= k) = .error e ↔ check = .error e := by
  cases check with
  | error _ => simp
  | ok a =>
    obtain ⟨b, hb⟩ := succeeds a rfl
    simp [hb]

theorem Linked.appendChild_error (h : Linked f rows) :
    f.appendChild p x = .error e ↔ f.checkChild p x = .error e :=
  bind_error_iff fun _ check => by
    obtain ⟨g, hg, -⟩ := h.appendChild (checkChild_ok.mp check)
    exact ⟨g, by simpa [Forest.appendChild, check] using hg⟩

theorem Linked.prependChild_error (h : Linked f rows) :
    f.prependChild p x = .error e ↔ f.checkChild p x = .error e :=
  bind_error_iff fun _ check => by
    obtain ⟨g, hg, -⟩ := h.prependChild (checkChild_ok.mp check)
    exact ⟨g, by simpa [Forest.prependChild, check] using hg⟩

theorem Linked.insertBefore_error (h : Linked f rows) :
    f.insertBefore anchor x = .error e ↔ f.checkSibling anchor x = .error e :=
  bind_error_iff fun _ check => by
    obtain ⟨g, _, _, hg, -⟩ := h.insertBefore check
    exact ⟨g, by simpa [Forest.insertBefore, check] using hg⟩

theorem Linked.insertAfter_error (h : Linked f rows) :
    f.insertAfter anchor x = .error e ↔ f.checkSibling anchor x = .error e :=
  bind_error_iff fun _ check => by
    obtain ⟨g, _, _, hg, -⟩ := h.insertAfter check
    exact ⟨g, by simpa [Forest.insertAfter, check] using hg⟩

theorem Linked.unlink_error (h : Linked f rows) :
    f.unlink x = .error e ↔ f.contains x = false ∧ e = .stale x := by
  by_cases hx : f.contains x
  · obtain ⟨g, hg, -⟩ := h.unlink hx
    simp [hg, hx]
  · have stale : f.node x = .error (.stale x) := node_error.mpr ⟨by simpa using hx, rfl⟩
    have failed : f.unlink x = .error (.stale x) := by
      rw [Forest.unlink, Forest.detach, stale, error_bind]
    simp [failed, hx, @eq_comm _ e]

end Failures

end Edits

end MarkdownForest.Forest
