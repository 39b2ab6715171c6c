/-
# MarkdownForest.Proofs.NormalDocuments -- documents that were read

Whatever a forest holds, reading a source into it makes a new document in normal
form, or fails because containers are nested too deep (`run_read_normal`).  On the
way no text is cut inside a character or past its end, and every node that is
made is accepted where it is appended.

The nodes of the document show the tree that was read (`plant_shows`), so what
holds of the tree holds of them (`Shows.normal`).

A text may go on over the end of a line, though it should end there: where a `<`
begins what looks like a tag and is none, all that was looked at becomes text,
line feeds included (`text_over_lines`).  Without a `<` no text holds a line feed
(`Content.Normal.opens`).
-/
import MarkdownForest.Proofs.LineSlices
import MarkdownForest.Proofs.NormalTrees
import MarkdownForest.Proofs.Planting
import MarkdownForest.Proofs.PlantingOrder
import MarkdownForest.Proofs.Requests
import MarkdownForest.Proofs.ScanSlices

namespace MarkdownForest

set_option autoImplicit false

open Text

/-! ## Line feeds -/

theorem Lexeme.IsUnfinished.head? {u : List Char} (h : IsUnfinished u) : u.head? = some '<' := by
  obtain ⟨s, h⟩ := h
  have whole := angleRun_append 0 ['<'] s
  have filled := angleRun_ne_nil 0 ['<'] s (by decide)
  have e : (angleRun 0 ['<'] s).2.1.reverse = u := by
    unfold ofAngle angleToken at h
    dsimp only at h
    split at h <;> simp_all
  rw [e] at whole
  cases u with
  | nil => exact absurd (List.reverse_eq_nil_iff.mp e) filled
  | cons c u => simpa using (List.cons.inj whole).1

/-- What holds a line feed holds a bracket that might have begun a tag. -/
theorem Unbroken.opens {s : List Char} (h : Unbroken s) (feed : '\n' ∈ s) : '<' ∈ s := by
  obtain ⟨parts, rfl, hparts⟩ := h
  obtain ⟨u, hu, feed⟩ := List.mem_flatten.mp feed
  have unfinished := (hparts u hu).resolve_left (not_not_intro feed)
  exact List.mem_flatten.mpr ⟨u, hu, List.mem_of_head? unfinished.head?⟩

/-- Typographic punctuation adds no line feeds and removes none, and so for brackets. -/
theorem mem_smartenAfter {c : Char} (other : c = '\n' ∨ c = '<') (before : Option Char)
    (s : List Char) : c ∈ smartenAfter before s ↔ c ∈ s := by
  fun_induction smartenAfter before s with
  | case1 => simp
  | case2 | case3 | case4 => rcases other with rfl | rfl <;> simp_all [ellipsis, emDash, enDash]
  | case5 before d s _ _ _ ih =>
    have quotes : (c = if d = '\x22' then (if opensQuote before then leftDoubleQuote
        else rightDoubleQuote) else if d = '\x27' then (if opensQuote before then leftSingleQuote
        else rightSingleQuote) else d) ↔ c = d := by
      rcases other with rfl | rfl <;> split_ifs <;>
        simp_all [leftDoubleQuote, rightDoubleQuote, leftSingleQuote, rightSingleQuote]
    rw [List.mem_cons, List.mem_cons, ih, quotes]

theorem Content.Normal.opens {smart : Bool} {literal : String} (h : (text literal).Normal smart)
    (feed : '\n' ∈ literal.toList) : '<' ∈ literal.toList := by
  obtain ⟨-, s, line, e⟩ := h
  rw [e] at feed ⊢
  cases smart with
  | false => exact line.opens feed
  | true =>
    rw [if_pos rfl, smarten, mem_smartenAfter] at feed ⊢
    · exact line.opens feed
    · exact .inr rfl
    · exact .inl rfl

namespace Forest

/-! ## Nodes -/

/-- What a node of a document that was read is like, and the kinds of its children. -/
structure NormalNode (smart : Bool) (g : Forest) (y : NodeId) (c : Content) (below : List Kind) :
    Prop where
  content : g.content? y = some c
  children : (g.children y).map (fun z => (g.content? z).map Content.kind) = below.map some
  normal : c.Normal smart
  row : NormalRow c.kind below

mutual
/-- What shows a tree in normal form has nodes in normal form. -/
theorem Shows.normal {smart : Bool} {g : Forest} (linked : Linked g g.children) {x y : NodeId}
    (below : Below g x y) : ∀ t : Tree, g.Shows x t → t.Normal smart →
      ∃ c kinds, NormalNode smart g y c kinds
  | .node c ts, shown, normal => by
    simp only [Tree.Normal] at normal
    rw [Shows] at shown
    obtain ⟨content, row⟩ := shown
    rcases linked.below_iff.mp below with rfl | ⟨z, hz, below⟩
    · refine ⟨c, ts.map Tree.kind, content, ?_, normal.1, normal.2.1⟩
      have contents := congrArg (List.map (Option.map Content.kind)) row.contents
      simpa [List.map_map, Function.comp_def, Tree.kind] using contents
    · exact ShowsRow.normal linked hz below ts row normal.2.2

theorem ShowsRow.normal {smart : Bool} {g : Forest} (linked : Linked g g.children)
    {zs : List NodeId} {z y : NodeId} (hz : z ∈ zs) (below : Below g z y) :
    ∀ ts : List Tree, g.ShowsRow zs ts → Tree.NormalList smart ts →
      ∃ c kinds, NormalNode smart g y c kinds
  | [], shown, _ => by
    cases zs with
    | nil => simp at hz
    | cons w zs => simp [ShowsRow] at shown
  | t :: ts, shown, normal => by
    cases zs with
    | nil => simp at hz
    | cons w zs =>
      simp only [ShowsRow] at shown
      simp only [Tree.NormalList] at normal
      rcases List.mem_cons.mp hz with rfl | hz
      · exact Shows.normal linked below t shown.1 normal.1
      · exact ShowsRow.normal linked hz below ts shown.2 normal.2
end

/-- A source that is read becomes a document with all its nodes in normal form. -/
theorem Sound.read_normal {f g : Forest} {o : ParseOptions} {source : String} {x : NodeId}
    (s : Sound f) (h : f.read o source = (.ok x, g)) :
    Grown f g x .document ∧ ∀ y, Below g x y → ∃ c kinds, NormalNode o.smart g y c kinds := by
  obtain ⟨sound, grown⟩ := s.read_ok h
  refine ⟨grown, fun y below => ?_⟩
  have shown := plant_shows s _ (documentMade_wellFormed o source.toList)
  unfold Forest.read at h
  dsimp only at h
  split at h
  · cases h
    exact shown.normal sound.linked below _ (documentMade_normal o source.toList)
  · cases h

/-- After any requests, reading a source cuts no line and no text where it may not, is accepted
wherever it appends, can free again what it made, and makes a document in normal form with no other
node beside it, unless containers are nested deeper than the limit. -/
theorem run_read_normal (rs : List Request) (o : ParseOptions) (source : String) :
    (∀ l : Line, l.SlicesWhole) ∧
      (∀ s : List Char, ByteScan.parse? s = some (parseInlines s)) ∧
      (∃ x g freed, (run rs).growDocument (readSource o source.toList).trees = .ok (x, g) ∧
        (run rs).plant (readSource o source.toList).documentMade = (x, g) ∧
        g.freeSubtree x = .ok freed) ∧
      match (run rs).read o source with
      | (.ok x, g) => Grown (run rs) g x .document ∧
        ∀ y, Below g x y → ∃ c kinds, NormalNode o.smart g y c kinds
      | (.error e, _) => ∃ position, e = .nestingTooDeep position o.maxNesting := by
  have s := sound_run rs
  obtain ⟨-, sound, grown⟩ := plant_spec s _ (documentMade_wellFormed o source.toList)
  obtain ⟨_, count, g, freeing, -⟩ := sound.linked.freeSubtree grown.contains_self
  refine ⟨Line.slicesWhole, ByteScan.parse?_eq,
    ⟨_, _, (count, g), growDocument_eq s o source.toList, rfl, freeing⟩, ?_⟩
  split
  · rename_i h
    exact s.read_normal h
  · rename_i e g h
    unfold Forest.read at h
    dsimp only at h
    split at h
    · cases h
    · rename_i failed
      cases h
      exact error?_readSource o source.toList e failed

end Forest

/-- The line feed after what looks like a tag is part of the text, and no soft break. -/
theorem text_over_lines :
    parse {} "if a <b\nthen c" =
      .ok (.node .document [.node .paragraph [.leaf (.text "if a <b\nthen c")]]) := by
  decide +kernel

end MarkdownForest
