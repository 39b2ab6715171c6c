/-
# MarkdownForest.Block.Build -- the trees of a run of lines

Blocks are cut off one after another (`Layout.take`).  The contents of quotes
and items are lines again and are read in the same way, one level deeper.  A
quote or list that would be nested deeper than the limit stops the reading; the
trees made by then are kept beside the failure, since they have been made.

Blank lines between two blocks of a run make it loose.  A list is tight when
none of its items is loose and no blank line stands between two of them.
-/
import MarkdownForest.Block.Layout
import MarkdownForest.Inline.Build

namespace MarkdownForest

set_option autoImplicit false

/-- How deep containers may nest unless stated otherwise. -/
def defaultMaxNesting : Nat := 128

/-- How a source is read. -/
structure ParseOptions where
  smart : Bool := false
  maxNesting : Nat := defaultMaxNesting
  deriving DecidableEq, Repr, Inhabited

/-- A container at the byte `position` that is nested more than `limit` deep. -/
structure NestingTooDeep where
  position : Nat
  limit : Nat
  deriving DecidableEq, Repr

/-- The trees made from lines, whether blank lines stand between them, and what stopped the
reading. -/
structure Parsed where
  trees : List Tree := []
  loose : Bool := false
  failure : Option NestingTooDeep := none
  deriving Repr

namespace Parsed

/-- Nothing but a failure. -/
def fail (e : NestingTooDeep) : Parsed :=
  { failure := some e }

/-- The tree `t` before what more was made; `separated` tells of blank lines before `t`. -/
def cons (t : Tree) (separated : Bool) (more : Parsed) : Parsed :=
  { more with trees := t :: more.trees, loose := separated || more.loose }

/-- A container around what was made inside, and the blocks after it if nothing failed inside. -/
def within (content : Content) (separated : Bool) (inside more : Parsed) : Parsed :=
  let t := Tree.node content inside.trees
  match inside.failure with
  | some e => cons t separated (fail e)
  | none => cons t separated more

end Parsed

/-- The tree of a block without blocks inside. -/
def Layout.leafTree (smart : Bool) : Layout → Tree
  | .code info literal => .leaf (.codeBlock (String.ofList info) (String.ofList literal))
  | .header level text => .node (.header level) (inlineTrees smart text)
  | .html literal => .leaf (.html (String.ofList literal))
  | .paragraph text => .node .paragraph (inlineTrees smart text)
  | _ => .leaf .hrule

mutual
/-- The blocks of lines at the given depth.  `any` tells whether blocks stand before, `blank`
whether blank lines do after the last of them. -/
def parseBlocks (o : ParseOptions) (depth : Nat) (any blank : Bool) (lines : List Line) :
    Parsed :=
  match lines with
  | [] => {}
  | l :: ls =>
    if l.isBlank then parseBlocks o depth any true ls
    else
      let taken := Layout.take l ls
      have : Line.weight (Layout.take l ls).rest < Line.weight (l :: ls) :=
        Layout.weight_rest_lt l ls
      let separated := any && blank
      let more := parseBlocks o depth true taken.trailingBlank taken.rest
      match h : taken.layout with
      | .quote offset inner =>
        if o.maxNesting ≤ depth then .fail ⟨offset, o.maxNesting⟩
        else
          have := Layout.weight_quote_lt h
          .within .blockQuote separated (parseBlocks o (depth + 1) false false inner) more
      | .list offset marker items spaced =>
        if o.maxNesting ≤ depth then .fail ⟨offset, o.maxNesting⟩
        else
          have := Layout.weight_list_le h
          let inside := parseItems o (depth + 1) items
          .within (.list marker.type marker.start (!spaced && !inside.loose)) separated inside
            more
      | leaf => .cons (leaf.leafTree o.smart) separated more
termination_by 2 * Line.weight lines + 1
decreasing_by
  all_goals simp only [Line.weight_cons] at *
  all_goals omega

/-- The items of a list, of which the lines inside are given. -/
def parseItems (o : ParseOptions) (depth : Nat) (items : List (List Line)) : Parsed :=
  match items with
  | [] => {}
  | item :: items =>
    let inside := parseBlocks o depth false false item
    .within .item inside.loose inside (parseItems o depth items)
termination_by 2 * itemsWeight items
decreasing_by
  all_goals simp only [itemsWeight]
  all_goals omega
end

/-! ## One block at a time -/

section Equations

variable {o : ParseOptions} {depth : Nat} {any blank : Bool} {l : Line} {ls : List Line}

theorem parseBlocks_blank (hl : l.isBlank) :
    parseBlocks o depth any blank (l :: ls) = parseBlocks o depth any true ls := by
  rw [parseBlocks, if_pos hl]

theorem parseBlocks_quote {offset : Nat} {inner : List Line} (hl : ¬ l.isBlank)
    (h : (Layout.take l ls).layout = .quote offset inner) :
    parseBlocks o depth any blank (l :: ls) =
      if o.maxNesting ≤ depth then .fail ⟨offset, o.maxNesting⟩
      else .within .blockQuote (any && blank) (parseBlocks o (depth + 1) false false inner)
        (parseBlocks o depth true (Layout.take l ls).trailingBlank (Layout.take l ls).rest) := by
  rw [parseBlocks, if_neg hl]
  dsimp only
  split
  · rename_i h'
    cases h.symm.trans h'
    rfl
  · rename_i h'
    cases h.symm.trans h'
  · rename_i notQuote _
    exact absurd h (notQuote offset inner)

theorem parseBlocks_list {offset : Nat} {marker : Marker} {items : List (List Line)}
    {spaced : Bool} (hl : ¬ l.isBlank)
    (h : (Layout.take l ls).layout = .list offset marker items spaced) :
    parseBlocks o depth any blank (l :: ls) =
      if o.maxNesting ≤ depth then .fail ⟨offset, o.maxNesting⟩
      else
        let inside := parseItems o (depth + 1) items
        .within (.list marker.type marker.start (!spaced && !inside.loose)) (any && blank) inside
          (parseBlocks o depth true (Layout.take l ls).trailingBlank (Layout.take l ls).rest) := by
  rw [parseBlocks, if_neg hl]
  dsimp only
  split
  · rename_i h'
    cases h.symm.trans h'
  · rename_i h'
    cases h.symm.trans h'
    rfl
  · rename_i notList
    exact absurd h (notList offset marker items spaced)

theorem parseBlocks_leaf (hl : ¬ l.isBlank)
    (notQuote : ∀ offset inner, (Layout.take l ls).layout ≠ .quote offset inner)
    (notList : ∀ offset m items spaced, (Layout.take l ls).layout ≠ .list offset m items spaced) :
    parseBlocks o depth any blank (l :: ls) =
      .cons ((Layout.take l ls).layout.leafTree o.smart) (any && blank)
        (parseBlocks o depth true (Layout.take l ls).trailingBlank (Layout.take l ls).rest) := by
  rw [parseBlocks, if_neg hl]
  dsimp only
  split
  · rename_i h
    exact absurd h (notQuote _ _)
  · rename_i h
    exact absurd h (notList _ _ _ _)
  · rfl

end Equations

end MarkdownForest
