/-
# MarkdownForest.Proofs.Placement -- what is read is well formed

Reading a source gives trees in which every child stands where it may and every
content is in range, whatever the source is: the level of a header counts one to
six number signs, or is one or two; the start of a list has at most nine digits.

* `ReadInduction`, `TreeInduction`: what is kept from block to block and from item
  to item holds of all that is read, also when the reading failed;
* `error?_readSource`: a reading only fails for containers nested too deep;
* `blocks_parseBlocks`: the blocks of lines may stand under a document, a quote or an
  item, and what a list is made of are items;
* `documentMade_wellFormed`: the document as far as it was made, also when the
  reading failed.
-/
import MarkdownForest.Proofs.BlocksInside
import Mathlib.Algebra.Ring.Nat

namespace MarkdownForest

set_option autoImplicit false

/-! ## Inlines -/

namespace Inline

mutual
theorem wellFormed_toTree (smart : Bool) : (i : Inline) → (i.toTree smart).WellFormed
  | text _ | code _ | html _ | softBreak | lineBreak => Tree.wellFormed_leaf trivial
  | emph children | strong children | link _ _ children | image _ _ children =>
    ⟨trivial, isInline_toTrees smart children, wellFormed_toTrees smart children⟩

theorem wellFormed_toTrees (smart : Bool) : (is : List Inline) →
    Tree.WellFormedList (toTrees smart is)
  | [] => trivial
  | i :: is => ⟨wellFormed_toTree smart i, wellFormed_toTrees smart is⟩

theorem isInline_toTrees (smart : Bool) : (is : List Inline) →
    ∀ t ∈ toTrees smart is, t.kind.isInline
  | [] => nofun
  | i :: is => fun t ht => by
    rcases List.mem_cons.mp ht with rfl | ht
    · exact kind_toTree_isInline smart i
    · exact isInline_toTrees smart is t ht
end

end Inline

theorem wellFormed_inlines {c : Content} (inRange : c.InRange)
    (holds : ∀ k : Kind, k.isInline → c.kind.canContain k) (smart : Bool) (s : List Char) :
    (Tree.node c (inlineTrees smart s)).WellFormed :=
  ⟨inRange, fun t ht => holds _ (Inline.isInline_toTrees smart _ t ht),
    Inline.wellFormed_toTrees smart _⟩

/-! ## Levels and starts -/

theorem level_header? {s text : List Char} {level : Nat} (h : header? s = some (level, text)) :
    1 ≤ level ∧ level ≤ Content.maxLevel := by
  unfold header? at h
  dsimp only at h
  split at h
  · simp at h
  · rename_i range
    split at h
    · simp only [Option.some.injEq, Prod.mk.injEq] at h
      simp only [Bool.or_eq_true, decide_eq_true_eq, not_or] at range
      simp only [Content.maxLevel]
      omega
    · simp at h

theorem level_underline? {l : Line} {level : Nat} (h : underline? l = some level) :
    1 ≤ level ∧ level ≤ Content.maxLevel := by
  unfold underline? at h
  dsimp only at h
  simp only [Content.maxLevel]
  split at h
  · simp at h
  · split at h
    · cases h; omega
    · split at h
      · cases h; omega
      · simp at h

theorem level_takeParagraph {ls : List Line} {level : Nat}
    (h : (takeParagraph ls).2.1 = some level) : 1 ≤ level ∧ level ≤ Content.maxLevel := by
  induction ls with
  | nil => simp [takeParagraph] at h
  | cons l ls ih =>
    simp only [takeParagraph] at h
    split at h
    · simp at h
    · split at h
      · rename_i hu
        exact level_underline? (hu.trans h)
      · split at h
        · simp at h
        · exact ih h

theorem Layout.level_take {l : Line} {ls : List Line} {level : Nat} {text : List Char}
    (h : (take l ls).layout = .header level text) : 1 ≤ level ∧ level ≤ Content.maxLevel := by
  unfold take at h
  split at h
  · simp [takeIndented] at h
  split at h
  · simp [takeFenced] at h
  split at h
  · rename_i hh
    cases h
    exact level_header? hh
  split at h
  · simp [takeQuote] at h
  split at h
  · simp at h
  split at h
  · simp [takeList] at h
  split at h
  · simp [takeHtml] at h
  · unfold takeText at h
    dsimp only at h
    split at h
    · rename_i hl
      cases h
      exact level_takeParagraph hl
    · simp at h

namespace Marker

theorem ofDigits_lt {s : List Char} (digits : ∀ c ∈ s, c.isDigit) : ofDigits s < 10 ^ s.length := by
  suffices h : ∀ n, s.foldl (fun n c => n * 10 + (c.toNat - '0'.toNat)) n < (n + 1) * 10 ^ s.length by
    simpa [ofDigits] using h 0
  induction s with
  | nil => simp
  | cons c s ih =>
    intro n
    have digit : c.toNat - '0'.toNat ≤ 9 := by
      have := digits c (by simp)
      simp only [Char.isDigit, Bool.and_eq_true, decide_eq_true_eq] at this
      have : c.toNat ≤ 57 := this.2
      have : '0'.toNat = 48 := rfl
      omega
    have := ih (fun d hd => digits d (by simp [hd])) (n * 10 + (c.toNat - '0'.toNat))
    calc s.foldl _ (n * 10 + (c.toNat - '0'.toNat))
        < (n * 10 + (c.toNat - '0'.toNat) + 1) * 10 ^ s.length := this
      _ ≤ ((n + 1) * 10) * 10 ^ s.length := Nat.mul_le_mul_right _ (by omega)
      _ = (n + 1) * 10 ^ (c :: s).length := by
        rw [List.length_cons, Nat.pow_succ, Nat.mul_assoc, Nat.mul_comm 10]

theorem ofDigits_takeWhile_lt (s : List Char) :
    ofDigits (s.takeWhile Char.isDigit) < 10 ^ (s.takeWhile Char.isDigit).length :=
  ofDigits_lt (List.all_eq_true.mp List.all_takeWhile)

/-- The greatest number that nine digits write. -/
def maxStart : Nat := 999999999

theorem start_head? {s : List Char} {type : ListType} {d : Char} {start length : Nat}
    (h : head? s = some (type, d, start, length)) : start ≤ maxStart := by
  unfold head? at h
  split at h
  · simp at h
  · split at h
    · cases h; decide
    · dsimp only at h
      split at h
      · split at h
        · simp at h
        · rename_i short
          split at h
          · cases h
            simp only [Bool.or_eq_true, decide_eq_true_eq, not_or] at short
            have room := Nat.pow_le_pow_right (show 0 < 10 by decide) (Nat.le_of_not_lt short.2)
            exact Nat.le_of_lt_succ (Nat.lt_of_lt_of_le (ofDigits_takeWhile_lt _) room)
          · simp at h
      · simp at h

theorem start_read? {l : Line} {m : Marker} (h : read? l = some m) : m.start ≤ maxStart := by
  unfold read? at h
  split at h
  · simp at h
  · split at h
    · simp at h
    · rename_i hd
      dsimp only at h
      split at h
      · cases h
        exact start_head? hd
      · simp at h

end Marker

/-! ## Blocks -/

/-- Well-formed trees that may stand under a document, a quote or an item. -/
def Blocks (ts : List Tree) : Prop :=
  Tree.WellFormedList ts ∧ ∀ t ∈ ts, Kind.document.canContain t.kind

/-- Well-formed items. -/
def Items (ts : List Tree) : Prop :=
  Tree.WellFormedList ts ∧ ∀ t ∈ ts, t.kind = .item

theorem Blocks.cons {t : Tree} {ts : List Tree} (w : t.WellFormed)
    (fits : Kind.document.canContain t.kind) (h : Blocks ts) : Blocks (t :: ts) :=
  ⟨⟨w, h.1⟩, List.forall_mem_cons.mpr ⟨fits, h.2⟩⟩

theorem Items.cons {t : Tree} {ts : List Tree} (w : t.WellFormed) (item : t.kind = .item)
    (h : Items ts) : Items (t :: ts) :=
  ⟨⟨w, h.1⟩, List.forall_mem_cons.mpr ⟨item, h.2⟩⟩

theorem Layout.leafTree_block {l : Line} {ls : List Line} (smart : Bool) :
    ((take l ls).layout.leafTree smart).WellFormed ∧
      Kind.document.canContain ((take l ls).layout.leafTree smart).kind := by
  cases h : (take l ls).layout with
  | header level text =>
    exact ⟨wellFormed_inlines (c := .header level) (level_take h) (fun k hk => hk) smart text, rfl⟩
  | paragraph text =>
    exact ⟨wellFormed_inlines (c := .paragraph) trivial (fun k hk => hk) smart text, rfl⟩
  | code _ _ => exact ⟨Tree.wellFormed_leaf trivial, rfl⟩
  | html _ => exact ⟨Tree.wellFormed_leaf trivial, rfl⟩
  | rule => exact ⟨Tree.wellFormed_leaf trivial, rfl⟩
  | quote _ _ => exact ⟨Tree.wellFormed_leaf trivial, rfl⟩
  | list _ _ _ _ => exact ⟨Tree.wellFormed_leaf trivial, rfl⟩

/-- `P` holds of blocks that are read, and `Q` of items, whether or not the reading fails. -/
structure ReadInduction (o : ParseOptions) (P Q : Parsed → Prop) : Prop where
  noBlocks : P {}
  noItems : Q {}
  tooDeep : ∀ {position}, P (.fail ⟨position, o.maxNesting⟩)
  leaf : ∀ {l ls separated more}, P more →
    P (.cons ((Layout.take l ls).layout.leafTree o.smart) separated more)
  quote : ∀ {separated inside more}, P inside → P more →
    P (.within .blockQuote separated inside more)
  list : ∀ {l m tight separated inside more}, Marker.read? l = some m → inside.trees ≠ [] →
    Q inside → P more → P (.within (.list m.type m.start tight) separated inside more)
  item : ∀ {inside more}, P inside → Q more → Q (.within .item inside.loose inside more)

namespace ReadInduction

variable {o : ParseOptions} {P Q : Parsed → Prop}

theorem lines (r : ReadInduction o P Q) : LineInduction o (fun _ _ p => P p) fun _ _ p => Q p where
  noBlocks := r.noBlocks
  noItems := r.noItems
  blank _ more := more
  tooDeep _ _ _ := r.tooDeep
  leaf _ more := r.leaf more
  quote _ _ _ inside more := r.quote inside more
  list _ opens _ filled inside more := r.list (Layout.take_eq_list opens).1 filled inside more
  item inside more := r.item inside more

theorem blocks (r : ReadInduction o P Q) (depth : Nat) (any blank : Bool) (lines : List Line) :
    P (parseBlocks o depth any blank lines) :=
  r.lines.blocks depth any blank lines

theorem items (r : ReadInduction o P Q) (depth : Nat) (items : List (List Line)) :
    Q (parseItems o depth items) :=
  r.lines.items depth items

end ReadInduction

/-! ## Failures -/

/-- Reading fails for no other reason than the limit that it was given. -/
theorem readInduction_limit (o : ParseOptions) :
    ReadInduction o (fun p => ∀ e ∈ p.failure, e.limit = o.maxNesting)
      fun p => ∀ e ∈ p.failure, e.limit = o.maxNesting :=
  have within : ∀ {c separated} {inside more : Parsed},
      (∀ e ∈ inside.failure, e.limit = o.maxNesting) →
      (∀ e ∈ more.failure, e.limit = o.maxNesting) →
      ∀ e ∈ (Parsed.within c separated inside more).failure, e.limit = o.maxNesting := by
    intro c separated inside more hi hm
    unfold Parsed.within
    dsimp only
    split
    · rename_i e he
      simpa [Parsed.cons, Parsed.fail] using hi e he
    · exact hm
  { noBlocks := nofun
    noItems := nofun
    tooDeep := by simp [Parsed.fail]
    leaf := fun more => more
    quote := within
    list := fun _ _ => within
    item := within }

theorem error?_readSource (o : ParseOptions) (source : List Char) :
    ∀ e ∈ (readSource o source).error?, ∃ position, e = .nestingTooDeep position o.maxNesting := by
  intro e he
  obtain ⟨failure, hf, rfl⟩ := Option.map_eq_some_iff.mp he
  have limit := (readInduction_limit o).blocks 0 false false (Line.ofSource source) failure hf
  exact ⟨failure.position, by rw [limit]⟩

/-! ## Trees -/

/-- `P` is kept by every block that may be read in front of others, and `Q` by every item. -/
structure TreeInduction (o : ParseOptions) (P Q : List Tree → Prop) : Prop where
  noBlocks : P []
  noItems : Q []
  leaf : ∀ {l ls ts}, P ts → P ((Layout.take l ls).layout.leafTree o.smart :: ts)
  quote : ∀ {inside ts}, P inside → P ts → P (.node .blockQuote inside :: ts)
  list : ∀ {l m tight inside ts}, Marker.read? l = some m → inside ≠ [] → Q inside → P ts →
    P (.node (.list m.type m.start tight) inside :: ts)
  item : ∀ {inside ts}, P inside → Q ts → Q (.node .item inside :: ts)

/-- After a container come the blocks that follow it, or none if the reading failed inside. -/
theorem Parsed.within_of {P : List Tree → Prop} {c : Content} {separated : Bool}
    {inside more : Parsed} (empty : P []) (after : P more.trees)
    (keeps : ∀ ts, P ts → P (.node c inside.trees :: ts)) :
    P (Parsed.within c separated inside more).trees := by
  obtain ⟨rest, hrest, e⟩ := Parsed.trees_within c separated inside more
  rw [e]
  refine keeps rest ?_
  rcases hrest with rfl | rfl
  · exact empty
  · exact after

namespace TreeInduction

variable {o : ParseOptions} {P Q : List Tree → Prop}

theorem read (r : TreeInduction o P Q) :
    ReadInduction o (fun p => P p.trees) fun p => Q p.trees where
  noBlocks := r.noBlocks
  noItems := r.noItems
  tooDeep := r.noBlocks
  leaf := r.leaf
  quote inside more := Parsed.within_of r.noBlocks more fun _ => r.quote inside
  list read filled inside more :=
    Parsed.within_of r.noBlocks more fun _ => r.list read filled inside
  item inside more := Parsed.within_of r.noItems more fun _ => r.item inside

/-- What is kept holds of the trees that are read. -/
theorem blocks (r : TreeInduction o P Q) (depth : Nat) (any blank : Bool) (lines : List Line) :
    P (parseBlocks o depth any blank lines).trees :=
  r.read.blocks depth any blank lines

end TreeInduction

/-! ## What is read -/

theorem treeInduction_blocks (o : ParseOptions) : TreeInduction o Blocks Items where
  noBlocks := ⟨trivial, nofun⟩
  noItems := ⟨trivial, nofun⟩
  leaf more :=
    have block := Layout.leafTree_block o.smart
    .cons block.1 block.2 more
  quote inside more := .cons ⟨trivial, inside.2, inside.1⟩ rfl more
  list read _ inside more := by
    have start := Nat.lt_of_le_of_lt (Marker.start_read? read)
      (show Marker.maxStart < UInt32.size by decide)
    refine .cons ⟨start, fun t ht => ?_, inside.1⟩ rfl more
    rw [inside.2 t ht]
    rfl
  item inside more := .cons ⟨trivial, inside.2, inside.1⟩ rfl more

/-- The blocks of lines may stand under a document, a quote or an item. -/
theorem blocks_parseBlocks (o : ParseOptions) (depth : Nat) (any blank : Bool)
    (lines : List Line) : Blocks (parseBlocks o depth any blank lines).trees :=
  (treeInduction_blocks o).blocks depth any blank lines

/-- The document as far as it was made is well formed. -/
theorem documentMade_wellFormed (o : ParseOptions) (source : List Char) :
    (readSource o source).documentMade.WellFormed :=
  let blocks := blocks_parseBlocks o 0 false false (Line.ofSource source)
  ⟨trivial, blocks.2, blocks.1⟩

end MarkdownForest
