/-
# MarkdownForest.Proofs.NormalTrees -- what is read is in normal form

`Tree.Normal` says what holds of every tree that is read, beyond being well
formed: lists have items and emphasis has contents, texts are not empty and not
neighbours, and the contents of blocks are as `Content.Normal` says.

Smart punctuation changes texts one by one and empties none, so it keeps the
form of the inlines (`normal_inlines`).  That it holds of all trees follows block
by block (`treeInduction_normal`, `documentMade_normal`).
-/
import MarkdownForest.Proofs.NormalInlines
import MarkdownForest.Proofs.Placement

namespace MarkdownForest

set_option autoImplicit false

open Text

/-! ## Normal form -/

/-- What the content of a node that was read is like. -/
def Content.Normal (smart : Bool) : Content → Prop
  | text literal => literal ≠ "" ∧
    ∃ s, Unbroken s ∧ literal.toList = if smart then smarten s else s
  | header level => 1 ≤ level ∧ level ≤ 6
  | list _ start _ => start ≤ 999999999
  | codeBlock _ literal => literal = "" ∨ literal.toList.getLast? = some '\n'
  | html literal => literal.toList.getLast? = some '\n'
  | _ => True

/-- The kinds of the children of a node that was read. -/
structure NormalRow (k : Kind) (below : List Kind) : Prop where
  item : k = .list → .item ∈ below
  filled : k = .emph ∨ k = .strong → below ≠ []
  apart : below.IsChain fun a b => ¬ (a = .text ∧ b = .text)

namespace Tree

mutual
def Normal (smart : Bool) : Tree → Prop
  | node c ts => c.Normal smart ∧ NormalRow c.kind (ts.map kind) ∧ NormalList smart ts

def NormalList (smart : Bool) : List Tree → Prop
  | [] => True
  | t :: ts => t.Normal smart ∧ NormalList smart ts
end

end Tree

/-- Kinds other than text are always apart. -/
theorem apart_of_no_text {below : List Kind} (other : ∀ k ∈ below, k ≠ .text) :
    below.IsChain fun a b => ¬ (a = .text ∧ b = .text) := by
  induction below with
  | nil => exact .nil
  | cons k below ih =>
    obtain ⟨hk, hbelow⟩ := List.forall_mem_cons.mp other
    exact List.isChain_cons.mpr ⟨fun _ _ both => hk both.1, ih hbelow⟩

/-- A node that is no list and no emphasis has no more to keep to. -/
theorem NormalRow.of_apart {k : Kind} {below : List Kind}
    (plain : k ≠ .list ∧ k ≠ .emph ∧ k ≠ .strong)
    (apart : below.IsChain fun a b => ¬ (a = .text ∧ b = .text)) : NormalRow k below where
  item e := absurd e plain.1
  filled e := absurd e (not_or.mpr plain.2)
  apart := apart

/-! ## Inlines -/

theorem smartenAfter_ne_nil {s : List Char} (h : s ≠ []) (before : Option Char) :
    smartenAfter before s ≠ [] := by
  unfold smartenAfter
  split <;> simp_all

theorem literal_normal (smart : Bool) {s : List Char} (filled : s ≠ []) (line : Unbroken s) :
    (Content.text (String.ofList (if smart then smarten s else s))).Normal smart := by
  refine ⟨fun e => ?_, s, line, String.toList_ofList⟩
  have := congrArg String.toList e
  rw [String.toList_ofList] at this
  cases smart
  · exact filled this
  · exact smartenAfter_ne_nil filled none this

namespace Inline

theorem kind_toTree_eq_text (smart : Bool) (i : Inline) :
    (i.toTree smart).kind = .text ↔ i.isText := by
  cases i <;> simp [toTree, Tree.leaf, Tree.kind, Tree.content, Content.kind, isText]

/-- Inlines that are apart become trees that are apart. -/
theorem apart_toTrees (smart : Bool) {is : List Inline} (h : Apart is) :
    ((toTrees smart is).map Tree.kind).IsChain fun a b => ¬ (a = .text ∧ b = .text) := by
  rw [toTrees_eq_map, List.map_map, List.isChain_map]
  exact h.imp fun i j apart both => apart
    ⟨(kind_toTree_eq_text smart i).mp both.1, (kind_toTree_eq_text smart j).mp both.2⟩

theorem row_toTrees (smart : Bool) {is : List Inline} {k : Kind} (other : k ≠ .list)
    (filled : is ≠ []) (h : Apart is) : NormalRow k ((toTrees smart is).map Tree.kind) where
  item e := absurd e other
  filled _ := by simpa [toTrees_eq_map] using filled
  apart := apart_toTrees smart h

mutual
/-- An inline in normal form becomes a tree in normal form. -/
theorem normal_toTree (smart : Bool) : (i : Inline) → i.Normal → (i.toTree smart).Normal smart
  | text s, h => ⟨literal_normal smart h.1 h.2, .of_apart (by simp [Content.kind]) .nil, trivial⟩
  | code _, _ | html _, _ | softBreak, _ | lineBreak, _ =>
    ⟨trivial, .of_apart (by simp [Content.kind]) .nil, trivial⟩
  | emph is, h | strong is, h =>
    ⟨trivial, row_toTrees smart (by decide) h.1 h.2.1, normal_toTrees smart is h.2.2⟩
  | link _ _ is, h | image _ _ is, h =>
    ⟨trivial, .of_apart (by simp [Content.kind]) (apart_toTrees smart h.1),
      normal_toTrees smart is h.2⟩

theorem normal_toTrees (smart : Bool) : (is : List Inline) → NormalList is →
    Tree.NormalList smart (toTrees smart is)
  | [], _ => trivial
  | i :: is, h => ⟨normal_toTree smart i h.1, normal_toTrees smart is h.2⟩
end

end Inline

/-- A block of inline text is in normal form if its content is. -/
theorem normal_inlines (smart : Bool) {c : Content} (content : c.Normal smart)
    (plain : c.kind ≠ .list ∧ c.kind ≠ .emph ∧ c.kind ≠ .strong) (s : List Char) :
    (Tree.node c (inlineTrees smart s)).Normal smart := by
  obtain ⟨apart, each⟩ := parseInlines_normal s
  exact ⟨content, .of_apart plain (Inline.apart_toTrees smart apart),
    Inline.normal_toTrees smart _ each⟩

/-! ## Blocks -/

namespace Layout

/-- What the layout of a block that was taken is like. -/
def Normal : Layout → Prop
  | code _ literal => literal = [] ∨ literal.getLast? = some '\n'
  | html literal => literal.getLast? = some '\n'
  | header level _ => 1 ≤ level ∧ level ≤ 6
  | _ => True

theorem normal_take (l : Line) (ls : List Line) : (take l ls).layout.Normal := by
  have ended : ∀ lines, endedLines lines = [] ∨ (endedLines lines).getLast? = some '\n' :=
    fun lines => (getLast?_endedLines lines).imp_left fun e => by rw [e]; rfl
  unfold take
  split
  · exact ended _
  split
  · exact ended _
  split
  · rename_i h
    exact level_header? h
  split
  · trivial
  split
  · trivial
  split
  · trivial
  split
  · exact (getLast?_endedLines _).resolve_left (by simp)
  · unfold takeText
    dsimp only
    split
    · rename_i h
      exact level_takeParagraph h
    · trivial

theorem normal_leafTree (smart : Bool) {x : Layout} (h : x.Normal) :
    (x.leafTree smart).Normal smart := by
  cases x with
  | header level text =>
    exact normal_inlines (c := .header level) smart h (by simp [Content.kind]) text
  | paragraph text =>
    exact normal_inlines (c := .paragraph) smart trivial (by simp [Content.kind]) text
  | code info literal =>
    refine ⟨?_, .of_apart (by simp [Content.kind]) .nil, trivial⟩
    refine h.imp (fun e => by rw [e]) fun e => ?_
    rwa [String.toList_ofList]
  | html literal =>
    refine ⟨?_, .of_apart (by simp [Content.kind]) .nil, trivial⟩
    simpa [Content.Normal] using show literal.getLast? = some '\n' from h
  | rule | quote _ _ | list _ _ _ _ =>
    exact ⟨trivial, .of_apart (by decide) .nil, trivial⟩

end Layout

/-- Blocks in normal form. -/
def NormalBlocks (smart : Bool) (ts : List Tree) : Prop :=
  Tree.NormalList smart ts ∧ Blocks ts

/-- Items in normal form. -/
def NormalItems (smart : Bool) (ts : List Tree) : Prop :=
  Tree.NormalList smart ts ∧ Items ts

theorem NormalBlocks.apart {smart : Bool} {ts : List Tree} (h : NormalBlocks smart ts) :
    (ts.map Tree.kind).IsChain fun a b => ¬ (a = .text ∧ b = .text) := by
  refine apart_of_no_text fun k hk e => ?_
  obtain ⟨t, ht, rfl⟩ := List.mem_map.mp hk
  have fits := h.2.2 t ht
  rw [e] at fits
  exact absurd fits (by decide)

theorem NormalItems.row {smart : Bool} {ts : List Tree} (h : NormalItems smart ts)
    (filled : ts ≠ []) : NormalRow .list (ts.map Tree.kind) where
  item _ := by
    obtain ⟨t, ht⟩ := List.exists_mem_of_ne_nil ts filled
    exact List.mem_map.mpr ⟨t, ht, h.2.2 t ht⟩
  filled := by simp
  apart := apart_of_no_text fun k hk e => by
    obtain ⟨t, ht, rfl⟩ := List.mem_map.mp hk
    simp [h.2.2 t ht] at e

theorem treeInduction_normal (o : ParseOptions) :
    TreeInduction o (NormalBlocks o.smart) (NormalItems o.smart) where
  noBlocks := ⟨trivial, (treeInduction_blocks o).noBlocks⟩
  noItems := ⟨trivial, (treeInduction_blocks o).noItems⟩
  leaf {l ls ts} more :=
    ⟨⟨Layout.normal_leafTree o.smart (Layout.normal_take l ls), more.1⟩,
      (treeInduction_blocks o).leaf more.2⟩
  quote inside more :=
    ⟨⟨⟨trivial, .of_apart (by decide) inside.apart, inside.1⟩, more.1⟩,
      (treeInduction_blocks o).quote inside.2 more.2⟩
  list read filled inside more :=
    ⟨⟨⟨Marker.start_read? read, inside.row filled, inside.1⟩, more.1⟩,
      (treeInduction_blocks o).list read filled inside.2 more.2⟩
  item inside more :=
    ⟨⟨⟨trivial, .of_apart (by decide) inside.apart, inside.1⟩, more.1⟩,
      (treeInduction_blocks o).item inside.2 more.2⟩

/-- The document as far as it was made is in normal form. -/
theorem documentMade_normal (o : ParseOptions) (source : List Char) :
    (readSource o source).documentMade.Normal o.smart :=
  have blocks := (treeInduction_normal o).blocks 0 false false (Line.ofSource source)
  ⟨trivial, .of_apart (by decide) blocks.apart, blocks.1⟩

end MarkdownForest
