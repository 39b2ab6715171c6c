/-
# MarkdownForest.Proofs.OpenParagraphs -- the paragraph that lines leave open

Lines leave a paragraph open when it is the last thing in the last container of
the last container, and so on, and nothing stands behind it (`LeavesOpen`).  A
lazy line becomes its last line if every container around it takes the line as
contents and the line is no underline (`OpenParagraph.Takes`).

* `LeavesOpen.grows`: under these conditions the blocks stay the same but for the
  lines of that paragraph;
* `LeavesOpen.of_amends`: and under no others.  The line becomes a block of its
  own, or an item, or the underline of a header, or goes into code or raw HTML.
-/
import MarkdownForest.Proofs.BlocksInside
import MarkdownForest.Proofs.LazyLines

namespace MarkdownForest

set_option autoImplicit false

open Text

/-! ## Rows of trees that differ in their last paragraph -/

/-- Two rows of trees are the same but for the paragraph at their end, which holds `js` in the
second in place of `is`. -/
inductive Amends (is js : List Tree) : List Tree → List Tree → Prop
  | paragraph (front : List Tree) :
    Amends is js (front ++ [.node .paragraph is]) (front ++ [.node .paragraph js])
  | inside (front : List Tree) (c : Content) {ts ts' : List Tree} (below : Amends is js ts ts') :
    Amends is js (front ++ [.node c ts]) (front ++ [.node c ts'])

namespace Amends

variable {is js ts ts' : List Tree} {t t' : Tree}

theorem cons (t : Tree) (h : Amends is js ts ts') : Amends is js (t :: ts) (t :: ts') := by
  cases h with
  | paragraph front => exact .paragraph (t :: front)
  | inside front c below => exact .inside (t :: front) c below

theorem length_eq (h : Amends is js ts ts') : ts'.length = ts.length := by
  cases h <;> simp

theorem ne_nil (h : Amends is js ts ts') : ts ≠ [] := by
  cases h <;> simp

/-- Behind the same tree the rows differ as they did. -/
theorem of_cons (h : Amends is js (t :: ts) (t' :: ts')) (more : ts ≠ []) :
    Amends is js ts ts' := by
  generalize before : t :: ts = us at h
  generalize after : t' :: ts' = us' at h
  cases h with
  | paragraph front =>
    cases front with
    | nil => exact absurd (List.cons.inj before).2 more
    | cons u front =>
      rw [(List.cons.inj before).2, (List.cons.inj after).2]
      exact .paragraph front
  | inside front c below =>
    cases front with
    | nil => exact absurd (List.cons.inj before).2 more
    | cons u front =>
      rw [(List.cons.inj before).2, (List.cons.inj after).2]
      exact .inside front c below

theorem of_append {front : List Tree} (h : Amends is js (front ++ ts) (front ++ ts'))
    (more : ts ≠ []) : Amends is js ts ts' := by
  induction front with
  | nil => exact h
  | cons t front ih => exact ih (h.of_cons (by simp [more]))

/-- A single tree that differs from another is a paragraph, or a container of such trees. -/
theorem single (h : Amends is js [t] [t']) :
    (t = .node .paragraph is ∧ t' = .node .paragraph js) ∨
      ∃ c us us', t = .node c us ∧ t' = .node c us' ∧ Amends is js us us' := by
  generalize before : [t] = us at h
  generalize after : [t'] = us' at h
  cases h with
  | paragraph front =>
    cases front with
    | nil => exact .inl ⟨(List.cons.inj before).1, (List.cons.inj after).1⟩
    | cons u front => simp at before
  | inside front c below =>
    cases front with
    | nil => exact .inr ⟨c, _, _, (List.cons.inj before).1, (List.cons.inj after).1, below⟩
    | cons u front => simp at before

theorem same_content {c c' : Content} (h : Amends is js [.node c ts] [.node c' ts']) :
    c' = c := by
  rcases h.single with ⟨before, after⟩ | ⟨_, _, _, before, after, -⟩
  all_goals
    cases before
    cases after
    rfl

theorem children {c c' : Content} (h : Amends is js [.node c ts] [.node c' ts'])
    (other : c ≠ .paragraph) : Amends is js ts ts' := by
  rcases h.single with ⟨before, -⟩ | ⟨_, _, _, before, after, below⟩
  · cases before
    exact absurd rfl other
  · cases before
    cases after
    exact below

/-- A leaf does not change, whatever stands behind it. -/
theorem not_leaf {c : Content} (other : c ≠ .paragraph) : ¬ Amends is js [.leaf c] ts' := by
  intro h
  obtain ⟨t', rfl⟩ := List.length_eq_one_iff.mp h.length_eq
  obtain ⟨c', us⟩ := t'
  exact (h.children other).ne_nil rfl

end Amends

/-! ## Open paragraphs -/

/-- A container around a paragraph: the marker of the list, if it is an item, and the lines of its
contents. -/
structure Container where
  marker? : Option Marker
  lines : List Line

/-- A paragraph that is open: the texts of its lines, and the containers around it from the
outermost on. -/
structure OpenParagraph where
  texts : List (List Char)
  around : List Container

/-- The paragraph inside one more container. -/
def OpenParagraph.within (p : OpenParagraph) (c : Container) : OpenParagraph :=
  { p with around := c :: p.around }

/-- The last thing that is read from lines is a paragraph, and they end with it. -/
inductive LeavesOpen : List Line → OpenParagraph → Prop
  | blank {l : Line} {ls : List Line} {p : OpenParagraph} (blank : l.isBlank)
      (more : LeavesOpen ls p) : LeavesOpen (l :: ls) p
  | after {l : Line} {ls : List Line} {p : OpenParagraph} (filled : ¬ l.isBlank)
      (more : LeavesOpen (Layout.take l ls).rest p) : LeavesOpen (l :: ls) p
  | paragraph {l : Line} {ls : List Line} (filled : ¬ l.isBlank)
      (opens : (Layout.take l ls).layout.kind = .paragraph) (all : (Layout.take l ls).rest = []) :
    LeavesOpen (l :: ls) ⟨l.rest :: (takeParagraph ls).1, []⟩
  | quote {l : Line} {ls inner : List Line} {offset : Nat} {p : OpenParagraph}
      (filled : ¬ l.isBlank) (opens : (Layout.take l ls).layout = .quote offset inner)
      (all : (Layout.take l ls).rest = []) (inside : LeavesOpen inner p) :
    LeavesOpen (l :: ls) (p.within ⟨none, inner⟩)
  | item {l : Line} {ls item : List Line} {offset : Nat} {m : Marker} {front : List (List Line)}
      {spaced : Bool} {p : OpenParagraph} (filled : ¬ l.isBlank)
      (opens : (Layout.take l ls).layout = .list offset m (front ++ [item]) spaced)
      (all : (Layout.take l ls).rest = []) (ends : (Layout.take l ls).trailingBlank = false)
      (inside : LeavesOpen item p) :
    LeavesOpen (l :: ls) (p.within ⟨some m, item⟩)

theorem LeavesOpen.ne_nil {lines : List Line} {p : OpenParagraph} (h : LeavesOpen lines p) :
    lines ≠ [] := by
  cases h <;> exact List.cons_ne_nil _ _

/-- A container takes a line as one more of its contents: they seem to end in a paragraph, and the
line is not the next item. -/
def Container.Takes (c : Container) (b : Line) : Prop :=
  endsInParagraph c.lines ∧ ∀ m ∈ c.marker?, ¬ (Marker.read? b).any (m.sameList ·)

/-- All containers around a paragraph take a line, and it is not the underline of the paragraph. -/
structure OpenParagraph.Takes (p : OpenParagraph) (b : Line) : Prop where
  plain : underline? b = none
  around : ∀ c ∈ p.around, c.Takes b

theorem OpenParagraph.takes_within {p : OpenParagraph} {c : Container} {b : Line} :
    (p.within c).Takes b ↔ c.Takes b ∧ p.Takes b := by
  constructor
  · rintro ⟨plain, around⟩
    obtain ⟨here, more⟩ := List.forall_mem_cons.mp around
    exact ⟨here, plain, more⟩
  · rintro ⟨here, plain, more⟩
    exact ⟨plain, List.forall_mem_cons.mpr ⟨here, more⟩⟩

/-! ## Readings that differ in a paragraph -/

/-- Two readings get through, and make the same trees but for the paragraph at their end. -/
structure Parsed.Amends (is js : List Tree) (p q : Parsed) : Prop where
  before : p.failure = none
  after : q.failure = none
  trees : MarkdownForest.Amends is js p.trees q.trees

namespace Parsed

variable {is js : List Tree} {p q more : Parsed} {t : Tree} {c c' : Content} {s s' : Bool}
  {full : Prop} [Decidable full] {e e' : NestingTooDeep}

theorem failure_of_within (whole : (within c s p more).failure = none) : p.failure = none := by
  unfold within at whole
  split at whole
  · cases whole
  · assumption

/-- A container with room for it, the contents of which are read. -/
theorem whole_container
    (whole : (if full then fail e else within c s p more).failure = none) :
    ¬ full ∧ p.failure = none := by
  split at whole
  · cases whole
  · rename_i room
    exact ⟨room, failure_of_within whole⟩

theorem failure_container {e₀ : NestingTooDeep}
    (failed : (if full then fail e else within c s p {}).failure = some e₀)
    (inside : p.failure = some e₀ → q.failure = some e₀) :
    (if full then fail e else within c' s' q more).failure = some e₀ := by
  split at failed
  · rename_i deep
    rw [if_pos deep]
    exact failed
  · rename_i room
    rw [if_neg room]
    unfold within at failed ⊢
    split at failed
    · rename_i stopped
      rw [inside (stopped.trans failed)]
      rfl
    · cases failed

namespace Amends

theorem cons (h : Amends is js p q) : Amends is js (.cons t s p) (.cons t s' q) :=
  ⟨h.before, h.after, h.trees.cons t⟩

theorem of_cons (h : Amends is js (.cons t s p) (.cons t s' q)) (more : p.trees ≠ []) :
    Amends is js p q :=
  ⟨h.before, h.after, h.trees.of_cons more⟩

theorem container (h : Amends is js p q) (room : ¬ full) :
    Amends is js (if full then .fail e else .within c s p {})
      (if full then .fail e' else .within c s' q {}) := by
  rw [if_neg room, if_neg room]
  unfold Parsed.within
  rw [h.before, h.after]
  exact ⟨rfl, rfl, .inside [] c h.trees⟩

theorem of_container
    (h : Amends is js (if full then .fail e else .within c s p {})
      (if full then .fail e' else .within c' s' q {})) (other : c ≠ .paragraph) :
    Amends is js p q := by
  obtain ⟨room, before⟩ := whole_container h.before
  have after := (whole_container h.after).2
  rw [if_neg room, if_neg room] at h
  unfold Parsed.within at h
  rw [before, after] at h
  exact ⟨before, after, h.trees.children other⟩

end Amends

end Parsed

section Items

variable {o : ParseOptions} {depth : Nat} {is js : List Tree} {item item' : List Line}
  {items front : List (List Line)}

theorem failure_parseItems_append (front items : List (List Line)) :
    (parseItems o depth (front ++ items)).failure =
      (parseItems o depth front).failure.or (parseItems o depth items).failure := by
  induction front with
  | nil => simp [parseItems]
  | cons item front ih =>
    simp only [List.cons_append, parseItems, Parsed.within]
    cases (parseBlocks o depth false false item).failure with
    | none => exact ih
    | some e => rfl

theorem failure_parseItems_singleton :
    (parseItems o depth [item]).failure = (parseBlocks o depth false false item).failure := by
  simp only [parseItems, Parsed.within]
  cases h : (parseBlocks o depth false false item).failure <;> rfl

theorem weight_item_lt (mem : item ∈ items) : Line.weight item < itemsWeight items := by
  induction items with
  | nil => cases mem
  | cons first items ih =>
    rw [itemsWeight]
    rcases List.mem_cons.mp mem with rfl | mem
    · omega
    · have := ih mem
      omega

/-- What items become when the reading gets through all of them. -/
theorem parseItems_whole (whole : (parseItems o depth items).failure = none) :
    (parseItems o depth items).trees =
        items.map (fun item => .node .item (parseBlocks o depth false false item).trees) ∧
      (parseItems o depth items).loose =
        items.any fun item => (parseBlocks o depth false false item).loose := by
  induction items with
  | nil => simp [parseItems]
  | cons item items ih =>
    rw [parseItems] at whole ⊢
    have inside := Parsed.failure_of_within whole
    unfold Parsed.within at whole ⊢
    rw [inside] at whole ⊢
    obtain ⟨trees, loose⟩ := ih whole
    exact ⟨congrArg (_ :: ·) trees, congrArg (_ || ·) loose⟩

theorem whole_parseItems_append :
    (parseItems o depth (front ++ [item])).failure = none ↔
      (parseItems o depth front).failure = none ∧
        (parseBlocks o depth false false item).failure = none := by
  rw [failure_parseItems_append, Option.or_eq_none_iff, failure_parseItems_singleton]

/-- The last item changes in a paragraph, and is as loose as before. -/
theorem parseItems_last (whole : (parseItems o depth (front ++ [item])).failure = none)
    (last : Parsed.Amends is js (parseBlocks o depth false false item)
      (parseBlocks o depth false false item'))
    (loose : (parseBlocks o depth false false item').loose =
      (parseBlocks o depth false false item).loose) :
    Parsed.Amends is js (parseItems o depth (front ++ [item]))
        (parseItems o depth (front ++ [item'])) ∧
      (parseItems o depth (front ++ [item'])).loose =
        (parseItems o depth (front ++ [item])).loose := by
  have whole' : (parseItems o depth (front ++ [item'])).failure = none :=
    whole_parseItems_append.mpr ⟨(whole_parseItems_append.mp whole).1, last.after⟩
  obtain ⟨trees, before⟩ := parseItems_whole whole
  obtain ⟨trees', after⟩ := parseItems_whole whole'
  refine ⟨⟨whole, whole', ?_⟩, ?_⟩
  · rw [trees, trees', List.map_append, List.map_append]
    exact .inside _ _ last.trees
  · rw [before, after, List.any_append, List.any_append, List.any_cons, List.any_cons, loose]

theorem amends_last
    (h : Parsed.Amends is js (parseItems o depth (front ++ [item]))
      (parseItems o depth (front ++ [item']))) :
    Parsed.Amends is js (parseBlocks o depth false false item)
      (parseBlocks o depth false false item') := by
  have trees := h.trees
  rw [(parseItems_whole h.before).1, (parseItems_whole h.after).1, List.map_append,
    List.map_append] at trees
  exact ⟨(whole_parseItems_append.mp h.before).2, (whole_parseItems_append.mp h.after).2,
    (trees.of_append nofun).children nofun⟩

theorem length_items_of_amends {items' : List (List Line)}
    (h : Parsed.Amends is js (parseItems o depth items) (parseItems o depth items')) :
    items'.length = items.length := by
  have length := h.trees.length_eq
  rwa [(parseItems_whole h.before).1, (parseItems_whole h.after).1, List.length_map,
    List.length_map] at length

end Items

/-! ## The paragraph grows -/

section Growing

variable {o : ParseOptions} {depth : Nat} {any blank : Bool} {b l : Line} {ls : List Line}

/-- A block that leaves lines is not changed by a lazy one behind them. -/
theorem Line.Lazy.take_left (hb : b.Lazy) (left : (Layout.take l ls).rest ≠ []) :
    Layout.take l (ls ++ [b]) =
      { Layout.take l ls with rest := (Layout.take l ls).rest ++ [b] } :=
  Layout.take_stops (.inl ⟨left, .inr fun _ hk => Option.some.inj hk ▸ hb.not_deep⟩)

/-- A lazy line goes on with an open paragraph that takes it, and changes nothing else. -/
theorem LeavesOpen.grows (hb : b.Lazy) {lines : List Line} {p : OpenParagraph}
    (h : LeavesOpen lines p) (takes : p.Takes b)
    (whole : (parseBlocks o depth any blank lines).failure = none) :
    Parsed.Amends (inlineTrees o.smart (paragraphText p.texts))
        (inlineTrees o.smart (paragraphText (p.texts ++ [trimStart b.text])))
        (parseBlocks o depth any blank lines) (parseBlocks o depth any blank (lines ++ [b])) ∧
      (parseBlocks o depth any blank (lines ++ [b])).loose =
        (parseBlocks o depth any blank lines).loose := by
  induction h generalizing depth any blank with
  | blank empty _ ih =>
    rw [parseBlocks_blank empty] at whole ⊢
    rw [List.cons_append, parseBlocks_blank empty]
    exact ih takes whole
  | @after l ls p filled more ih =>
    rw [parseBlocks_cons ls filled] at whole ⊢
    rw [List.cons_append, parseBlocks_cons _ filled, hb.take_left more.ne_nil]
    cases makesOne_blockThen o depth (Layout.take l ls).layout with
    | stop _ e _ failed =>
      rw [failed] at whole
      cases whole
    | tree t _ eq =>
      rw [eq] at whole ⊢
      rw [eq]
      obtain ⟨grows, loose⟩ := ih takes whole
      exact ⟨grows.cons, congrArg (_ || ·) loose⟩
  | @paragraph l ls filled opens all =>
    obtain ⟨here, longer⟩ := Layout.take_paragraph_lazy hb opens all
    rw [takes.plain] at longer
    have goesOn : l :: ls ++ [b] = l :: (ls ++ [b]) := rfl
    rw [goesOn, parseBlocks_cons _ filled, parseBlocks_cons _ filled, longer, here, all,
      parseBlocks_nil, parseBlocks_nil]
    exact ⟨⟨rfl, rfl, .paragraph []⟩, rfl⟩
  | @quote l ls inner offset p filled opens all _ ih =>
    obtain ⟨here, inside⟩ := OpenParagraph.takes_within.mp takes
    have longer := Layout.take_quote_lazy hb opens all
    rw [if_pos here.1] at longer
    rw [parseBlocks_cons ls filled, opens, all, parseBlocks_nil, blockThen] at whole ⊢
    rw [List.cons_append, parseBlocks_cons _ filled, longer, parseBlocks_nil, blockThen]
    obtain ⟨room, ok⟩ := Parsed.whole_container whole
    obtain ⟨grows, -⟩ := ih inside ok
    refine ⟨grows.container room, ?_⟩
    rw [if_neg room, if_neg room, Parsed.within, Parsed.within, grows.before, grows.after]
    rfl
  | @item l ls item offset m front spaced p filled opens all ends _ ih =>
    obtain ⟨here, inside⟩ := OpenParagraph.takes_within.mp takes
    obtain ⟨front', item', items, longer⟩ := Layout.take_list_lazy hb opens all
    obtain ⟨rfl, last⟩ := List.append_inj' items rfl
    obtain rfl := (List.cons.inj last).1
    rw [if_pos ⟨ends, here.1, here.2 m rfl⟩] at longer
    rw [parseBlocks_cons ls filled, opens, all, parseBlocks_nil, blockThen] at whole ⊢
    rw [List.cons_append, parseBlocks_cons _ filled, longer, parseBlocks_nil, blockThen]
    obtain ⟨room, ok⟩ := Parsed.whole_container whole
    obtain ⟨grows, loose⟩ := ih inside (whole_parseItems_append.mp ok).2
    obtain ⟨grows, loose⟩ := parseItems_last ok grows loose
    dsimp only
    rw [loose]
    refine ⟨grows.container room, ?_⟩
    rw [if_neg room, if_neg room, Parsed.within, Parsed.within, grows.before, grows.after]
    rfl

/-! ## Nothing else grows -/

/-- Lines behind which something stands become at least one tree. -/
theorem trees_parseBlocks_ne_nil {lines : List Line}
    (whole : (parseBlocks o depth any blank lines).failure = none) {k : Line} (mem : k ∈ lines)
    (filled : ¬ k.isBlank) : (parseBlocks o depth any blank lines).trees ≠ [] := by
  have begins : blockStarts lines ≠ [] := fun none => filled (blockStarts_eq_nil.mp none k mem)
  rw [← List.length_pos_iff] at begins ⊢
  rwa [← length_blockStarts lines whole]

/-- A line that stands apart becomes a block. -/
theorem not_amends_apart (hb : b.Lazy) {is js : List Tree} (filled : ¬ l.isBlank)
    (all : (Layout.take l ls).rest = [])
    (h : Parsed.Amends is js (parseBlocks o depth any blank (l :: ls))
      (parseBlocks o depth any blank (l :: (ls ++ [b])))) :
    Layout.take l (ls ++ [b]) ≠ { Layout.take l ls with rest := [b] } := by
  intro apart
  have count := h.trees.length_eq
  rw [← length_blockStarts _ h.before, ← length_blockStarts _ h.after, blockStarts_cons filled,
    blockStarts_cons filled, all, apart, blockStarts_cons hb.filled] at count
  simp [blockStarts] at count

/-- A quote at the end changes in a paragraph only if it takes the line and its contents change so
too. -/
theorem quote_of_amends (hb : b.Lazy) {is js : List Tree} {offset : Nat} {inner : List Line}
    (filled : ¬ l.isBlank) (opens : (Layout.take l ls).layout = .quote offset inner)
    (all : (Layout.take l ls).rest = [])
    (h : Parsed.Amends is js (parseBlocks o depth any blank (l :: ls))
      (parseBlocks o depth any blank (l :: (ls ++ [b])))) :
    endsInParagraph inner ∧
      Parsed.Amends is js (parseBlocks o (depth + 1) false false inner)
        (parseBlocks o (depth + 1) false false (inner ++ [b])) := by
  have together := not_amends_apart hb filled all h
  have longer := Layout.take_quote_lazy hb opens all
  by_cases takes : endsInParagraph inner
  · rw [if_pos takes] at longer
    rw [parseBlocks_cons ls filled, parseBlocks_cons _ filled, all, opens, longer, parseBlocks_nil,
      parseBlocks_nil, blockThen, blockThen] at h
    exact ⟨takes, h.of_container nofun⟩
  · exact absurd (longer.trans (if_neg takes)) together

/-- A list at the end changes in a paragraph only if its last item takes the line and its contents
change so. -/
theorem list_of_amends (hb : b.Lazy) {is js : List Tree} {offset : Nat} {m : Marker}
    {items : List (List Line)} {spaced : Bool} (filled : ¬ l.isBlank)
    (opens : (Layout.take l ls).layout = .list offset m items spaced)
    (all : (Layout.take l ls).rest = [])
    (h : Parsed.Amends is js (parseBlocks o depth any blank (l :: ls))
      (parseBlocks o depth any blank (l :: (ls ++ [b])))) :
    (Layout.take l ls).trailingBlank = false ∧
      ∃ front item, items = front ++ [item] ∧ (⟨some m, item⟩ : Container).Takes b ∧
        Parsed.Amends is js (parseBlocks o (depth + 1) false false item)
          (parseBlocks o (depth + 1) false false (item ++ [b])) := by
  have together := not_amends_apart hb filled all h
  obtain ⟨front, item, rfl, longer⟩ := Layout.take_list_lazy hb opens all
  by_cases takes : (Layout.take l ls).trailingBlank = false ∧ endsInParagraph item ∧
      ¬ (Marker.read? b).any (m.sameList ·)
  · rw [if_pos takes] at longer
    rw [parseBlocks_cons ls filled, parseBlocks_cons _ filled, all, opens, longer, parseBlocks_nil,
      parseBlocks_nil, blockThen, blockThen] at h
    refine ⟨takes.1, front, item, rfl, ⟨takes.2.1, ?_⟩, amends_last (h.of_container nofun)⟩
    rintro n ⟨⟩
    exact takes.2.2
  · -- the line is one more item
    rw [if_neg takes] at longer
    obtain ⟨extra, spaced', blank', longer⟩ := longer.resolve_left together
    rw [parseBlocks_cons ls filled, parseBlocks_cons _ filled, all, opens, longer, parseBlocks_nil,
      parseBlocks_nil, blockThen, blockThen] at h
    have count := length_items_of_amends (h.of_container nofun)
    simp at count

/-- A leaf at the end changes in a paragraph only if it is one, and the line does not underline
it. -/
theorem leaf_of_amends (hb : b.Lazy) {is js : List Tree} (filled : ¬ l.isBlank)
    (leaf : (Layout.take l ls).layout.kind ≠ .blockQuote ∧ (Layout.take l ls).layout.kind ≠ .list)
    (all : (Layout.take l ls).rest = [])
    (h : Parsed.Amends is js (parseBlocks o depth any blank (l :: ls))
      (parseBlocks o depth any blank (l :: (ls ++ [b])))) :
    (Layout.take l ls).layout.kind = .paragraph ∧ underline? b = none := by
  have together := not_amends_apart hb filled all h
  rw [parseBlocks_cons ls filled, parseBlocks_cons _ filled, all, parseBlocks_nil] at h
  cases opens : (Layout.take l ls).layout with
  | code _ _ | html _ | rule =>
    rw [opens] at h
    exact absurd h.trees (Amends.not_leaf nofun)
  | header _ _ =>
    exact absurd (Layout.take_header_lazy hb (congrArg Layout.kind opens) all) together
  | paragraph text =>
    obtain ⟨-, longer⟩ := Layout.take_paragraph_lazy hb (congrArg Layout.kind opens) all
    cases plain : underline? b with
    | none => exact ⟨rfl, rfl⟩
    | some level =>
      rw [plain] at longer
      rw [opens, longer, parseBlocks_nil] at h
      cases h.trees.same_content
  | quote _ _ =>
    rw [opens] at leaf
    exact absurd rfl leaf.1
  | list _ _ _ _ =>
    rw [opens] at leaf
    exact absurd rfl leaf.2

/-- A block that leaves lines stays the same, and the blocks behind it change. -/
theorem after_of_amends (hb : b.Lazy) {is js : List Tree} (filled : ¬ l.isBlank)
    (left : (Layout.take l ls).rest ≠ [])
    (h : Parsed.Amends is js (parseBlocks o depth any blank (l :: ls))
      (parseBlocks o depth any blank (l :: (ls ++ [b])))) :
    Parsed.Amends is js
      (parseBlocks o depth true (Layout.take l ls).trailingBlank (Layout.take l ls).rest)
      (parseBlocks o depth true (Layout.take l ls).trailingBlank
        ((Layout.take l ls).rest ++ [b])) := by
  rw [parseBlocks_cons ls filled, parseBlocks_cons _ filled, hb.take_left left] at h
  cases makesOne_blockThen o depth (Layout.take l ls).layout with
  | stop _ e _ failed =>
    have before := h.before
    rw [failed] at before
    cases before
  | tree t _ eq =>
    rw [eq, eq] at h
    -- a block stands behind this one before the line is added, since one does afterwards
    have behind := trees_parseBlocks_ne_nil h.after (by simp) hb.filled
    refine h.of_cons fun none => ?_
    have count := h.trees.length_eq
    simp only [Parsed.cons, none, List.length_cons, List.length_nil] at count
    exact behind (List.length_eq_zero_iff.mp (Nat.succ.inj count))

/-- Only an open paragraph that takes a lazy line grows by it. -/
theorem LeavesOpen.of_amends (hb : b.Lazy) {is js : List Tree} (depth : Nat) (any blank : Bool) :
    (lines : List Line) →
      Parsed.Amends is js (parseBlocks o depth any blank lines)
        (parseBlocks o depth any blank (lines ++ [b])) →
      ∃ p, LeavesOpen lines p ∧ p.Takes b
  | [], h => by
    rw [parseBlocks_nil] at h
    exact absurd rfl h.trees.ne_nil
  | l :: ls, h => by
    rw [List.cons_append] at h
    by_cases filled : l.isBlank
    · rw [parseBlocks_blank filled, parseBlocks_blank filled] at h
      obtain ⟨p, opens, takes⟩ := of_amends hb depth any true ls h
      exact ⟨p, .blank filled opens, takes⟩
    by_cases left : (Layout.take l ls).rest ≠ []
    · have lighter := Layout.weight_rest_lt l ls
      obtain ⟨p, opens, takes⟩ := of_amends hb depth true (Layout.take l ls).trailingBlank
        (Layout.take l ls).rest (after_of_amends hb filled left h)
      exact ⟨p, .after filled opens, takes⟩
    have all : (Layout.take l ls).rest = [] := not_not.mp left
    cases opens : (Layout.take l ls).layout with
    | quote offset inner =>
      have lighter := Layout.weight_quote_lt opens
      obtain ⟨takes, below⟩ := quote_of_amends hb filled opens all h
      obtain ⟨p, inside, more⟩ := of_amends hb (depth + 1) false false inner below
      exact ⟨_, .quote filled opens all inside,
        OpenParagraph.takes_within.mpr ⟨⟨takes, nofun⟩, more⟩⟩
    | list offset m items spaced =>
      obtain ⟨ends, front, item, rfl, takes, below⟩ := list_of_amends hb filled opens all h
      have lighter : Line.weight item < Line.weight (l :: ls) :=
        Nat.lt_of_lt_of_le (weight_item_lt (by simp)) (Layout.weight_list_le opens)
      obtain ⟨p, inside, more⟩ := of_amends hb (depth + 1) false false item below
      exact ⟨_, .item filled opens all ends inside, OpenParagraph.takes_within.mpr ⟨takes, more⟩⟩
    | _ =>
      have leaf := leaf_of_amends hb filled (by simp [opens, Layout.kind]) all h
      exact ⟨_, .paragraph filled leaf.1 all, leaf.2, nofun⟩
termination_by lines => Line.weight lines
decreasing_by
  all_goals
    simp only [Line.weight_cons] at *
    omega

/-- Where the reading stops in the lines, it stops with a lazy one behind them. -/
theorem failure_lazy (hb : b.Lazy) {e : NestingTooDeep} (depth : Nat) (any blank : Bool) :
    (lines : List Line) → (parseBlocks o depth any blank lines).failure = some e →
      (parseBlocks o depth any blank (lines ++ [b])).failure = some e
  | [], failed => by
    rw [parseBlocks_nil] at failed
    cases failed
  | l :: ls, failed => by
    rw [List.cons_append]
    by_cases filled : l.isBlank
    · rw [parseBlocks_blank filled] at failed ⊢
      exact failure_lazy hb depth any true ls failed
    rw [parseBlocks_cons ls filled] at failed
    rw [parseBlocks_cons _ filled]
    by_cases all : (Layout.take l ls).rest = []
    · rw [all, parseBlocks_nil] at failed
      cases opens : (Layout.take l ls).layout with
      | quote offset inner =>
        have longer := Layout.take_quote_lazy hb opens all
        have lighter := Layout.weight_quote_lt opens
        rw [opens, blockThen] at failed
        by_cases takes : endsInParagraph inner
        · rw [longer, if_pos takes, blockThen]
          exact Parsed.failure_container failed (failure_lazy hb (depth + 1) false false inner)
        · rw [longer, if_neg takes, opens, blockThen]
          exact Parsed.failure_container failed id
      | list offset m items spaced =>
        obtain ⟨front, item, rfl, longer⟩ := Layout.take_list_lazy hb opens all
        have lighter : Line.weight item < Line.weight (l :: ls) :=
          Nat.lt_of_lt_of_le (weight_item_lt (by simp)) (Layout.weight_list_le opens)
        rw [opens, blockThen] at failed
        by_cases takes : (Layout.take l ls).trailingBlank = false ∧ endsInParagraph item ∧
            ¬ (Marker.read? b).any (m.sameList ·)
        · rw [if_pos takes] at longer
          rw [longer, blockThen]
          refine Parsed.failure_container failed fun stops => ?_
          rw [failure_parseItems_append, failure_parseItems_singleton, Option.or_eq_some_iff] at *
          refine stops.imp_right fun last => ⟨last.1, ?_⟩
          exact failure_lazy hb (depth + 1) false false item last.2
        · rw [if_neg takes] at longer
          rcases longer with apart | ⟨extra, spaced', blank', longer⟩
          · rw [apart, opens, blockThen]
            exact Parsed.failure_container failed id
          · rw [longer, blockThen]
            refine Parsed.failure_container failed fun stops => ?_
            rw [failure_parseItems_append, stops, Option.some_or]
      | _ =>
        rw [opens] at failed
        cases failed
    · have lighter := Layout.weight_rest_lt l ls
      rw [hb.take_left all]
      cases makesOne_blockThen o depth (Layout.take l ls).layout with
      | stop _ e _ stops =>
        rw [stops] at failed ⊢
        exact failed
      | tree t _ eq =>
        rw [eq] at failed ⊢
        exact failure_lazy hb depth true (Layout.take l ls).trailingBlank (Layout.take l ls).rest
          failed
termination_by lines => Line.weight lines
decreasing_by
  all_goals
    simp only [Line.weight_cons] at *
    omega

end Growing

end MarkdownForest
