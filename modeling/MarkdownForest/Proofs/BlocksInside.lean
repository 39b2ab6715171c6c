/-
# MarkdownForest.Proofs.BlocksInside -- the blocks inside lines

Reading goes from block to block, and into the contents of quotes and items,
which are lines again.

* `LineInduction`: what is kept from block to block and from item to item, beside
  the lines they are read from, holds of all that is read;
* `Meets lines n l ls`: inside `n` quotes and lists the reading comes upon the
  block that begins with `l` in front of `ls`;
* `Line.Keeps`: what containers do to the lines of their contents.  They cut off a
  beginning, or put an empty line in place of a blank one, and what survives that
  holds of every line that is met (`Meets.keeps`).
-/
import MarkdownForest.Proofs.BlockRuns

namespace MarkdownForest

set_option autoImplicit false

open Text

/-! ## Reading block by block -/

/-- `P` holds of lines and the blocks that are read from them at a depth, and `Q` of the lines of
items and the items, whether or not the reading fails. -/
structure LineInduction (o : ParseOptions) (P : Nat → List Line → Parsed → Prop)
    (Q : Nat → List (List Line) → Parsed → Prop) : Prop where
  noBlocks : ∀ {depth}, P depth [] {}
  noItems : ∀ {depth}, Q depth [] {}
  blank : ∀ {depth l ls p}, l.isBlank → P depth ls p → P depth (l :: ls) p
  tooDeep : ∀ {depth l ls}, ¬ l.isBlank →
    (Layout.take l ls).layout.kind = .blockQuote ∨ (Layout.take l ls).layout.kind = .list →
    o.maxNesting ≤ depth → P depth (l :: ls) (.fail ⟨l.offset, o.maxNesting⟩)
  leaf : ∀ {depth l ls separated more}, ¬ l.isBlank → P depth (Layout.take l ls).rest more →
    P depth (l :: ls) (.cons ((Layout.take l ls).layout.leafTree o.smart) separated more)
  quote : ∀ {depth l ls offset inner separated inside more}, ¬ l.isBlank →
    (Layout.take l ls).layout = .quote offset inner → depth < o.maxNesting →
    P (depth + 1) inner inside → P depth (Layout.take l ls).rest more →
    P depth (l :: ls) (.within .blockQuote separated inside more)
  list : ∀ {depth l ls offset m items spaced tight separated inside more}, ¬ l.isBlank →
    (Layout.take l ls).layout = .list offset m items spaced → depth < o.maxNesting →
    inside.trees ≠ [] → Q (depth + 1) items inside → P depth (Layout.take l ls).rest more →
    P depth (l :: ls) (.within (.list m.type m.start tight) separated inside more)
  item : ∀ {depth item items inside more}, P depth item inside → Q depth items more →
    Q depth (item :: items) (.within .item inside.loose inside more)

/-- The trees of a container and what follows it are those inside and those after, if the reading
got so far. -/
theorem Parsed.trees_within (c : Content) (separated : Bool) (inside more : Parsed) :
    ∃ after, (after = [] ∨ after = more.trees) ∧
      (Parsed.within c separated inside more).trees = .node c inside.trees :: after := by
  unfold within
  dsimp only
  split
  · exact ⟨[], .inl rfl, rfl⟩
  · exact ⟨more.trees, .inr rfl, rfl⟩

theorem takeItems_ne_nil (m : Marker) (l : Line) (ls : List Line) :
    (takeItems m l ls).items ≠ [] := by
  unfold takeItems
  dsimp only
  split <;> simp

theorem trees_parseItems_ne_nil (o : ParseOptions) (depth : Nat) {items : List (List Line)}
    (h : items ≠ []) : (parseItems o depth items).trees ≠ [] := by
  cases items with
  | nil => exact absurd rfl h
  | cons item items =>
    rw [parseItems]
    obtain ⟨rest, -, e⟩ := Parsed.trees_within .item (parseBlocks o depth false false item).loose
      (parseBlocks o depth false false item) (parseItems o depth items)
    simp [e]

namespace LineInduction

variable {o : ParseOptions} {P : Nat → List Line → Parsed → Prop}
  {Q : Nat → List (List Line) → Parsed → Prop}

mutual
theorem blocks (r : LineInduction o P Q) (depth : Nat) (any blank : Bool) (lines : List Line) :
    P depth lines (parseBlocks o depth any blank lines) := by
  cases lines with
  | nil =>
    rw [parseBlocks_nil]
    exact r.noBlocks
  | cons l ls =>
    by_cases hl : l.isBlank
    · rw [parseBlocks_blank hl]
      exact r.blank hl (r.blocks depth any true ls)
    · have more := r.blocks depth true (Layout.take l ls).trailingBlank (Layout.take l ls).rest
      rw [parseBlocks_cons ls hl]
      cases h : (Layout.take l ls).layout with
      | quote offset inner =>
        obtain ⟨-, rfl, -⟩ := Layout.take_eq_quote h
        rw [blockThen]
        split
        · rename_i full
          exact r.tooDeep hl (.inl (by rw [h]; rfl)) full
        · rename_i room
          exact r.quote hl h (Nat.lt_of_not_le room) (r.blocks (depth + 1) false false inner) more
      | list offset m items spaced =>
        obtain ⟨-, rfl, listed, -⟩ := Layout.take_eq_list h
        rw [blockThen]
        split
        · rename_i full
          exact r.tooDeep hl (.inr (by rw [h]; rfl)) full
        · rename_i room
          have filled : items ≠ [] := listed ▸ takeItems_ne_nil m l ls
          exact r.list hl h (Nat.lt_of_not_le room) (trees_parseItems_ne_nil o (depth + 1) filled)
            (r.items (depth + 1) items) more
      | _ =>
        rw [← h, blockThen_leaf (by simp [h, Layout.kind])]
        exact r.leaf hl more
termination_by 2 * Line.weight lines + 1
decreasing_by
  · simp only [Line.weight_cons]
    omega
  · have := Layout.weight_rest_lt l ls
    omega
  · have := Layout.weight_quote_lt h
    omega
  · have := Layout.weight_list_le h
    omega

theorem items (r : LineInduction o P Q) (depth : Nat) (items : List (List Line)) :
    Q depth items (parseItems o depth items) := by
  cases items with
  | nil =>
    rw [parseItems]
    exact r.noItems
  | cons item items =>
    rw [parseItems]
    exact r.item (r.blocks depth false false item) (r.items depth items)
termination_by 2 * itemsWeight items
decreasing_by
  all_goals
    simp only [itemsWeight]
    omega
end

end LineInduction

/-! ## Blocks inside containers -/

/-- Reading `lines` comes, inside `n` quotes and lists, upon the block that begins with the line `l`
in front of the lines `ls`. -/
inductive Meets : List Line → Nat → Line → List Line → Prop
  | here {l : Line} {ls : List Line} (filled : ¬ l.isBlank) : Meets (l :: ls) 0 l ls
  | blank {l k : Line} {ls ks : List Line} {n : Nat} (blank : l.isBlank) (more : Meets ls n k ks) :
    Meets (l :: ls) n k ks
  | after {l k : Line} {ls ks : List Line} {n : Nat} (filled : ¬ l.isBlank)
      (more : Meets (Layout.take l ls).rest n k ks) : Meets (l :: ls) n k ks
  | quote {l k : Line} {ls ks inner : List Line} {n offset : Nat} (filled : ¬ l.isBlank)
      (opens : (Layout.take l ls).layout = .quote offset inner) (inside : Meets inner n k ks) :
    Meets (l :: ls) (n + 1) k ks
  | list {l k : Line} {ls ks item : List Line} {n offset : Nat} {m : Marker}
      {items : List (List Line)} {spaced : Bool} (filled : ¬ l.isBlank)
      (opens : (Layout.take l ls).layout = .list offset m items spaced) (mem : item ∈ items)
      (inside : Meets item n k ks) : Meets (l :: ls) (n + 1) k ks

theorem Meets.filled {lines ks : List Line} {n : Nat} {k : Line} (h : Meets lines n k ks) :
    ¬ k.isBlank := by
  induction h with
  | here filled => exact filled
  | blank _ _ ih | after _ _ ih | quote _ _ _ ih | list _ _ _ _ ih => exact ih

/-! ## Lines of contents -/

/-- What holds of all lines holds of those that a block leaves. -/
theorem Layout.forall_rest_take {P : Line → Prop} {l : Line} {ls : List Line}
    (h : ∀ k ∈ l :: ls, P k) : ∀ k ∈ (take l ls).rest, P k :=
  fun k hk => h k (List.mem_cons_of_mem l ((rest_take_suffix l ls).subset hk))

/-- What containers keep of the lines that become their contents. -/
structure Line.Keeps (P : Line → Prop) : Prop where
  strip : ∀ {l : Line} (n : Nat), P l → P (l.strip n)
  unquoted : ∀ {l : Line}, l.isQuoted → P l → P l.unquoted
  item : ∀ {l : Line} {m : Marker}, Marker.read? l = some m → P l → P (l.tail m.width)
  emptied : ∀ {l : Line}, P l → P l.emptied

namespace Line.Keeps

variable {P : Line → Prop} {l : Line} {ls : List Line}

theorem acceptQuoted (h : Keeps P) {e : OpenEnd} {k : Line} (hl : P l)
    (taken : acceptQuoted e l = some k) : P k := by
  unfold MarkdownForest.acceptQuoted at taken
  split at taken
  · rename_i quoted
    cases taken
    exact h.unquoted quoted hl
  · split at taken
    · cases taken
      exact h.strip _ hl
    · cases taken

theorem acceptItem (h : Keeps P) {m : Marker} {e : OpenEnd} {k : Line} (hl : P l)
    (taken : acceptItem m e l = some k) : P k := by
  unfold MarkdownForest.acceptItem at taken
  split at taken
  · split at taken
    · cases taken
    · cases taken
      exact h.emptied hl
  · split at taken
    · cases taken
      exact h.strip _ hl
    · split at taken
      · cases taken
      · split at taken
        · cases taken
          exact h.strip _ hl
        · cases taken

theorem collect {accept : OpenEnd → Line → Option Line}
    (each : ∀ {e l k}, P l → accept e l = some k → P k) (e : OpenEnd) (hls : ∀ k ∈ ls, P k) :
    ∀ k ∈ (collect accept e ls).1, P k := by
  induction ls generalizing e with
  | nil => simp [MarkdownForest.collect]
  | cons l ls ih =>
    obtain ⟨hl, hls⟩ := List.forall_mem_cons.mp hls
    simp only [MarkdownForest.collect]
    split
    · simp
    · rename_i inside taken
      exact List.forall_mem_cons.mpr ⟨each hl taken, ih _ hls⟩

theorem takeItem (h : Keeps P) {m : Marker} (read : Marker.read? l = some m) (hl : P l)
    (hls : ∀ k ∈ ls, P k) : ∀ k ∈ (takeItem m l ls).lines, P k := by
  let taken := (MarkdownForest.collect (MarkdownForest.acceptItem m)
    (({} : OpenEnd).push (l.tail m.width)) ls).1
  have found : ∀ k ∈ taken, P k := collect h.acceptItem _ hls
  have kept := (prefix_dropEndWhile Line.isBlank taken).subset
  exact List.forall_mem_cons.mpr ⟨h.item read hl, fun k hk => found k (kept hk)⟩

theorem takeItems (h : Keeps P) {m : Marker} (read : Marker.read? l = some m) (hl : P l)
    (hls : ∀ k ∈ ls, P k) : ∀ item ∈ (takeItems m l ls).items, ∀ k ∈ item, P k := by
  fun_induction MarkdownForest.takeItems m l ls with
  | case1 m l ls item hn => exact List.forall_mem_singleton.mpr (h.takeItem read hl hls)
  | case2 m l ls item n k ks hn _ more ih =>
    obtain ⟨rest, read'⟩ := nextItem?_eq_some hn
    have left : ∀ j ∈ k :: ks, P j := fun j hj =>
      hls j ((rest_takeItem_suffix m l ls).subset (rest ▸ hj))
    obtain ⟨hk, hks⟩ := List.forall_mem_cons.mp left
    exact List.forall_mem_cons.mpr ⟨h.takeItem read hl hls, ih read' hk hks⟩

theorem quote (h : Keeps P) {offset : Nat} {inner : List Line} (hl : P l) (hls : ∀ k ∈ ls, P k)
    (opens : (Layout.take l ls).layout = .quote offset inner) : ∀ k ∈ inner, P k := by
  obtain ⟨quoted, -, rfl⟩ := Layout.take_eq_quote opens
  exact List.forall_mem_cons.mpr ⟨h.unquoted quoted hl, collect h.acceptQuoted _ hls⟩

theorem list (h : Keeps P) {offset : Nat} {m : Marker} {items : List (List Line)} {spaced : Bool}
    (hl : P l) (hls : ∀ k ∈ ls, P k)
    (opens : (Layout.take l ls).layout = .list offset m items spaced) :
    ∀ item ∈ items, ∀ k ∈ item, P k := by
  obtain ⟨read, -, rfl, -⟩ := Layout.take_eq_list opens
  exact h.takeItems read hl hls

end Line.Keeps

/-- What holds of all lines and is kept inside containers holds of the lines of every block that is
met. -/
theorem Meets.keeps {P : Line → Prop} (h : Line.Keeps P) {lines ks : List Line} {n : Nat} {k : Line}
    (met : Meets lines n k ks) (hlines : ∀ l ∈ lines, P l) : ∀ l ∈ k :: ks, P l := by
  induction met with
  | here _ => exact hlines
  | blank _ _ ih => exact ih (List.forall_mem_cons.mp hlines).2
  | after _ _ ih => exact ih (Layout.forall_rest_take hlines)
  | quote _ opens _ ih =>
    obtain ⟨hl, hls⟩ := List.forall_mem_cons.mp hlines
    exact ih (h.quote hl hls opens)
  | list _ opens mem _ ih =>
    obtain ⟨hl, hls⟩ := List.forall_mem_cons.mp hlines
    exact ih (h.list hl hls opens _ mem)

end MarkdownForest
