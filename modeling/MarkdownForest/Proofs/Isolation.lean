/-
# MarkdownForest.Proofs.Isolation -- a reading touches nothing but its own document

Reading a source makes a document of its own.  No record of another node is
changed by it, whether it succeeds or fails (`Sound.read_record`), and what was in
the forest before makes no difference to what is read:

* the document shows the tree that the source is (`Sound.read_snapshot`), and as many
  more nodes are live as it has;
* a reading that fails has freed all the nodes it made (`Sound.read_counters`).
-/
import MarkdownForest.Proofs.Branches
import MarkdownForest.Proofs.Planting
import MarkdownForest.Proofs.ReadingAlong
import MarkdownForest.Proofs.Requests
import MarkdownForest.Proofs.Updates

namespace MarkdownForest

set_option autoImplicit false

/-! ## Trees that hide nothing -/

namespace Tree

mutual
/-- No content has a part that observers do not see. -/
def Visible : Tree → Prop
  | node c ts => c.visible = c ∧ VisibleList ts

def VisibleList : List Tree → Prop
  | [] => True
  | t :: ts => t.Visible ∧ VisibleList ts
end

end Tree

namespace Inline

mutual
theorem visible_toTree (smart : Bool) : ∀ i : Inline, (i.toTree smart).Visible
  | text _ | code _ | html _ | softBreak | lineBreak => ⟨rfl, trivial⟩
  | emph is | strong is | link _ _ is | image _ _ is => ⟨rfl, visible_toTrees smart is⟩

theorem visible_toTrees (smart : Bool) : ∀ is : List Inline, Tree.VisibleList (toTrees smart is)
  | [] => trivial
  | i :: is => ⟨visible_toTree smart i, visible_toTrees smart is⟩
end

end Inline

theorem Layout.visible_leafTree (smart : Bool) : ∀ b : Layout, (b.leafTree smart).Visible
  | .header _ _ | .paragraph _ => ⟨rfl, Inline.visible_toTrees smart _⟩
  | .code _ _ | .html _ | .rule | .quote _ _ | .list _ _ _ _ => ⟨rfl, trivial⟩

/-- A bullet list starts at one. -/
theorem Marker.visible_read? {l : Line} {m : Marker} (h : Marker.read? l = some m) (tight : Bool) :
    (Content.list m.type m.start tight).visible = .list m.type m.start tight := by
  have head : ∀ {s type d start length}, head? s = some (type, d, start, length) →
      type = .bullet → start = 1 := by
    intro s type d start length h bullet
    unfold head? at h
    grind
  unfold read? at h
  split at h
  · cases h
  split at h
  · cases h
  rename_i type d start length hd
  dsimp only at h
  split at h
  · cases h
    cases type with
    | bullet => rw [head hd rfl, Content.visible]
    | ordered => rfl
  · cases h

theorem documentMade_visible (o : ParseOptions) (source : List Char) :
    (readSource o source).documentMade.Visible := by
  have kept : TreeInduction o Tree.VisibleList Tree.VisibleList :=
    { noBlocks := trivial
      noItems := trivial
      leaf := fun more => ⟨Layout.visible_leafTree _ _, more⟩
      quote := fun inside more => ⟨⟨rfl, inside⟩, more⟩
      list := fun read _ inside more => ⟨⟨Marker.visible_read? read _, inside⟩, more⟩
      item := fun inside more => ⟨⟨rfl, inside⟩, more⟩ }
  exact ⟨rfl, kept.blocks 0 false false (Line.ofSource source)⟩

namespace Forest

/-! ## Trees that are shown -/

mutual
/-- A node that holds a tree that hides nothing shows it. -/
theorem Shows.treeAt {f : Forest} (h : Linked f f.children) {x : NodeId} (hx : f.contains x) :
    ∀ t : Tree, f.Shows x t → t.Visible → f.treeAt x = t
  | .node c ts, shown, visible => by
    rw [Shows] at shown
    obtain ⟨n, hn, content⟩ := Option.map_eq_some_iff.mp shown.1
    rw [h.treeAt_eq hx, contentAt_eq hn, content, visible.1,
      ShowsRow.treesAt h (fun y hy => (h.live hy).1) ts shown.2 visible.2]

theorem ShowsRow.treesAt {f : Forest} (h : Linked f f.children) {ys : List NodeId}
    (live : ∀ y ∈ ys, f.contains y) :
    ∀ ts : List Tree, f.ShowsRow ys ts → Tree.VisibleList ts → ys.map f.treeAt = ts
  | [], shown, _ => by
    cases ys with
    | nil => rfl
    | cons y ys => simp [ShowsRow] at shown
  | t :: ts, shown, visible => by
    cases ys with
    | nil => simp [ShowsRow] at shown
    | cons y ys =>
      simp only [ShowsRow] at shown
      rw [List.map_cons, shown.1.treeAt h (live y (by simp)) t visible.1,
        ShowsRow.treesAt h (fun z hz => live z (by simp [hz])) ts shown.2 visible.2]
end

/-! ## Counters -/

theorem place_counters (f : Forest) (p x : NodeId) :
    (f.place p x).live = f.live ∧ (f.place p x).allocated = f.allocated := by
  unfold place
  split
  · rename_i h
    obtain ⟨live, allocated, -⟩ := (updated_appendChild h).counters
    exact ⟨live, allocated⟩
  · exact ⟨rfl, rfl⟩

mutual
/-- Planting makes the nodes of a tree. -/
theorem plant_counters (f : Forest) : ∀ t : Tree,
    (f.plant t).2.live = f.live + t.size ∧ (f.plant t).2.allocated = f.allocated + t.size
  | .node c ts => by
    obtain ⟨live, allocated⟩ := plantBelow_counters (f.newNode c).2 (f.newNode c).1 ts
    have one : (f.newNode c).2.live = f.live + 1 := Arena.size_alloc f.nodes { content := c }
    have one' : (f.newNode c).2.allocated = f.allocated + 1 := rfl
    change ((f.newNode c).2.plantBelow (f.newNode c).1 ts).live = _ ∧
      ((f.newNode c).2.plantBelow (f.newNode c).1 ts).allocated = _
    rw [live, allocated, one, one', Tree.size]
    constructor <;> omega

theorem plantBelow_counters (f : Forest) (x : NodeId) : ∀ ts : List Tree,
    (f.plantBelow x ts).live = f.live + Tree.sizeList ts ∧
      (f.plantBelow x ts).allocated = f.allocated + Tree.sizeList ts
  | [] => ⟨rfl, rfl⟩
  | t :: ts => by
    obtain ⟨live, allocated⟩ := plant_counters f t
    obtain ⟨live', allocated'⟩ := place_counters (f.plant t).2 x (f.plant t).1
    obtain ⟨live'', allocated''⟩ :=
      plantBelow_counters ((f.plant t).2.place x (f.plant t).1) x ts
    change (((f.plant t).2.place x (f.plant t).1).plantBelow x ts).live = _ ∧
      (((f.plant t).2.place x (f.plant t).1).plantBelow x ts).allocated = _
    rw [live'', allocated'', live', allocated', live, allocated, Tree.sizeList]
    constructor <;> omega
end

/-- As many nodes are live as there are live names. -/
theorem live_congr {f g : Forest} (same : ∀ y, g.contains y = f.contains y) : g.live = f.live := by
  have perm : g.nodes.keys.Perm f.nodes.keys :=
    (List.perm_ext_iff_of_nodup g.nodes.nodup_keys f.nodes.nodup_keys).mpr fun y => by
      rw [Arena.mem_keys, Arena.mem_keys]
      exact iff_of_eq (congrArg (· = true) (same y))
  have length := perm.length_eq
  rwa [Arena.length_keys, Arena.length_keys] at length

/-! ## Readings -/

section Read

variable {f g : Forest} {x y : NodeId} {o : ParseOptions} {source : String} {e : ParseError}

/-- No record of a node there was is changed by a reading, whatever comes of it. -/
theorem Sound.read_record (s : Sound f) (o : ParseOptions) (source : String) (hy : f.contains y) :
    (f.read o source).2.nodes.get? y = f.nodes.get? y := by
  cases h : f.read o source with
  | mk result g =>
    cases result with
    | ok x =>
      obtain ⟨sound, grown⟩ := s.read_ok h
      exact s.linked.kept_record sound.linked grown.kept hy
    | error e =>
      obtain ⟨sound, -, same⟩ := s.read_error h
      exact s.linked.kept_record sound.linked same hy

/-- Whether a reading succeeds does not depend on the forest. -/
theorem read_result (f : Forest) (o : ParseOptions) (source : String) :
    (f.read o source).1 =
      (parse o source).map fun _ => (f.plant (readSource o source.toList).documentMade).1 := by
  unfold Forest.read parse Parsed.document
  dsimp only
  split <;> rename_i outcome <;> rw [outcome] <;> rfl

/-- A document that was read shows what the source is. -/
theorem Sound.read_snapshot (s : Sound f) (h : f.read o source = (.ok x, g)) :
    parse o source = .ok (g.treeAt x) ∧ g.snapshot x = .ok (g.treeAt x) := by
  obtain ⟨sound, grown⟩ := s.read_ok h
  have shown := plant_shows s _ (documentMade_wellFormed o source.toList)
  unfold Forest.read at h
  dsimp only at h
  split at h
  · rename_i none
    cases h
    have tree := shown.treeAt sound.linked grown.contains_self _ (documentMade_visible o _)
    refine ⟨?_, snapshot_ok.mpr ⟨grown.contains_self, rfl⟩⟩
    rw [tree, parse, Parsed.document, none]
  · cases h

/-- What a source is can be read into any forest. -/
theorem Sound.read_of_parse {t : Tree} (s : Sound f) (h : parse o source = .ok t) :
    ∃ x g, f.read o source = (.ok x, g) ∧ g.snapshot x = .ok t := by
  obtain ⟨g, read⟩ : ∃ g, f.read o source =
      (.ok (f.plant (readSource o source.toList).documentMade).1, g) := by
    have result := read_result f o source
    rw [h] at result
    exact ⟨_, Prod.ext result rfl⟩
  obtain ⟨made, shown⟩ := s.read_snapshot read
  rw [h] at made
  exact ⟨_, g, read, Except.ok.inj made ▸ shown⟩

/-- As many more nodes are live as are in the document. -/
theorem Sound.read_live (s : Sound f) (h : f.read o source = (.ok x, g)) :
    ∃ n, g.subtreeSize x = .ok n ∧ g.live = f.live + n := by
  obtain ⟨-, grown⟩ := s.read_ok h
  obtain ⟨made, -⟩ := s.read_snapshot h
  obtain ⟨n, hn⟩ := contains_iff.mp grown.contains_self
  refine ⟨(g.treeAt x).size, ?_, ?_⟩
  · rw [subtreeSize, node_ok.mpr hn, branch?_eq grown.contains_self, treeAt, size_treeOf]
    rfl
  · obtain ⟨live, -⟩ := plant_counters f (readSource o source.toList).documentMade
    unfold Forest.read at h
    unfold parse Parsed.document at made
    dsimp only at h
    split at h
    · rename_i none
      cases h
      rw [none] at made
      exact live.trans (by rw [← Except.ok.inj made])
    · cases h

/-- A reading that fails has freed as many nodes as it made. -/
theorem Sound.read_counters (s : Sound f) (h : f.read o source = (.error e, g)) :
    ∃ n, g.allocated = f.allocated + n ∧ g.freed = f.freed + n := by
  obtain ⟨sound, contains, -⟩ := s.read_error h
  obtain ⟨-, planted, grown⟩ := plant_spec s _ (documentMade_wellFormed o source.toList)
  obtain ⟨-, made⟩ := plant_counters f (readSource o source.toList).documentMade
  have allocated : g.allocated = f.allocated + (readSource o source.toList).documentMade.size := by
    unfold Forest.read at h
    dsimp only at h
    split at h
    · cases h
    · cases h
      rw [(planted.linked.erase grown.contains_self grown.top).allocated, made]
  have live := live_congr contains
  have before := s.counted
  have after := sound.counted
  exact ⟨_, allocated, by omega⟩

/-- After any requests, a reading changes no record of a node there was.  It makes a document that
has no parent and shows what the source is, as in a forest that held nothing, or it fails as it
would there, and leaves neither a node behind nor one uncounted.  It is all one whether the forest
is edited block by block, as the source is read, or all trees are planted in the end. -/
theorem run_read_isolated (rs : List Request) (o : ParseOptions) (source : String) :
    (run rs).readAlong o source =
      (((run rs).read o source).1.mapError .parse, ((run rs).read o source).2) ∧
    (∀ y, (run rs).contains y →
      ((run rs).read o source).2.nodes.get? y = (run rs).nodes.get? y) ∧
    match (run rs).read o source with
    | (.ok x, g) =>
      (run rs).contains x = false ∧ g.parent x = .ok none ∧
        (∃ t x' g', g.snapshot x = .ok t ∧ parse o source = .ok t ∧
          ({} : Forest).read o source = (.ok x', g') ∧ g'.snapshot x' = .ok t) ∧
        ∃ n, g.subtreeSize x = .ok n ∧ g.live = (run rs).live + n
    | (.error e, g) =>
      (∀ y, g.contains y = (run rs).contains y) ∧
        (∃ n, g.allocated = (run rs).allocated + n ∧ g.freed = (run rs).freed + n) ∧
        parse o source = .error e ∧ (({} : Forest).read o source).1 = .error e := by
  have s := sound_run rs
  have empty : Sound {} := sound_run []
  refine ⟨s.readAlong_eq o source, fun y hy => s.read_record o source hy, ?_⟩
  split
  · rename_i x g h
    obtain ⟨sound, grown⟩ := s.read_ok h
    obtain ⟨made, shown⟩ := s.read_snapshot h
    refine ⟨grown.fresh, ?_, ?_, s.read_live h⟩
    · rw [parent_eq grown.contains_self, grown.top]
    · obtain ⟨x', g', read', shown'⟩ := empty.read_of_parse made
      exact ⟨_, x', g', shown, made, read', shown'⟩
  · rename_i e g h
    obtain ⟨-, contains, -⟩ := s.read_error h
    have result := read_result (run rs) o source
    rw [h] at result
    have failed : parse o source = .error e := by
      cases outcome : parse o source with
      | error e' => rw [outcome] at result; cases result; rfl
      | ok t => rw [outcome] at result; cases result
    refine ⟨contains, s.read_counters h, failed, ?_⟩
    rw [read_result, failed]
    rfl

end Read

end Forest

end MarkdownForest
