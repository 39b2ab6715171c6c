/-
# MarkdownForest.Proofs.Nesting -- how deep containers may nest

A limit on nesting cuts off what is nested deeper and changes nothing else.
Depth is counted in the tree, as the quotes and lists on the way from the root to
a node (`Tree.NestsWithin`); the reader counts it as it goes into containers.  The
two agree:

* `cutBlocks`: reading with one limit against reading with another, from the same
  lines at the same depth;
* `Line.Shrinks.quoted_lt`, `Line.Shrinks.item_lt`: a container has a marker, which
  is gone from its contents;
* `failure_parseBlocks`: so lines nest no deeper than they have characters other than
  spaces;
* `parse_limit`: both for whole sources.
-/
import MarkdownForest.Proofs.Placement

namespace MarkdownForest

set_option autoImplicit false

/-! ## Depth in a tree -/

/-- The kinds that count as a level of nesting. -/
def Kind.nests : Kind → Bool
  | .blockQuote | .list => true
  | _ => false

namespace Tree

mutual
/-- The kinds on the way from the root to each of the nodes. -/
def ways : Tree → List (List Kind)
  | node c ts => [c.kind] :: (waysList ts).map (c.kind :: ·)

def waysList : List Tree → List (List Kind)
  | [] => []
  | t :: ts => t.ways ++ waysList ts
end

/-- No way from the root to a node leads through more than `m` quotes and lists. -/
def NestsWithin (m : Nat) (t : Tree) : Prop :=
  ∀ way ∈ t.ways, way.countP Kind.nests ≤ m

instance (m : Nat) (t : Tree) : Decidable (t.NestsWithin m) :=
  inferInstanceAs (Decidable (∀ way ∈ t.ways, way.countP Kind.nests ≤ m))

mutual
/-- The greatest number of quotes and lists on a way from the root to a node. -/
def nesting : Tree → Nat
  | node c ts => c.kind.nests.toNat + nestingList ts

def nestingList : List Tree → Nat
  | [] => 0
  | t :: ts => max t.nesting (nestingList ts)
end

theorem nesting_le_nestingList {t : Tree} {ts : List Tree} (h : t ∈ ts) :
    t.nesting ≤ nestingList ts := by
  induction ts with
  | nil => cases h
  | cons u ts ih =>
    rw [nestingList]
    rcases List.mem_cons.mp h with rfl | h
    · exact Nat.le_max_left _ _
    · exact Nat.le_trans (ih h) (Nat.le_max_right _ _)

mutual
theorem nesting_le_iff (m : Nat) : ∀ t : Tree, t.nesting ≤ m ↔ t.NestsWithin m
  | node c ts => by
    have below := fun k => nestingList_le_iff k ts
    simp only [NestsWithin, ways, nesting, List.forall_mem_cons, List.forall_mem_map,
      List.countP_cons, List.countP_nil]
    cases c.kind.nests with
    | false => simpa using below m
    | true =>
      constructor
      · intro h
        refine ⟨by simp at h ⊢; omega, fun way hw => ?_⟩
        have := (below (m - 1)).mp (by simp at h; omega) way hw
        simp at h ⊢
        omega
      · rintro ⟨here, further⟩
        have := (below (m - 1)).mpr fun way hw => by
          have := further way hw
          simp at this
          omega
        simp at here ⊢
        omega

theorem nestingList_le_iff (m : Nat) :
    ∀ ts : List Tree, nestingList ts ≤ m ↔ ∀ way ∈ waysList ts, way.countP Kind.nests ≤ m
  | [] => by simp [nestingList, waysList]
  | t :: ts => by
    simp only [nestingList, waysList, List.forall_mem_append, Nat.max_le]
    exact and_congr (nesting_le_iff m t) (nestingList_le_iff m ts)
end

end Tree

/-! ## Leaves -/

namespace Inline

mutual
theorem nesting_toTree (smart : Bool) : ∀ i : Inline, (i.toTree smart).nesting = 0
  | text _ | code _ | html _ | softBreak | lineBreak => rfl
  | emph children | strong children | link _ _ children | image _ _ children => by
    rw [toTree, Tree.nesting, nesting_toTrees smart children]
    rfl

theorem nesting_toTrees (smart : Bool) :
    ∀ is : List Inline, Tree.nestingList (toTrees smart is) = 0
  | [] => rfl
  | i :: is => by
    rw [toTrees, Tree.nestingList, nesting_toTree smart i, nesting_toTrees smart is]
    rfl
end

end Inline

/-- A block without blocks inside nests nothing. -/
theorem Layout.nesting_leafTree (smart : Bool) (x : Layout) : (x.leafTree smart).nesting = 0 := by
  cases x with
  | header _ text | paragraph text =>
    rw [leafTree, Tree.nesting, inlineTrees, Inline.nesting_toTrees]
    rfl
  | _ => rfl

/-! ## Two limits -/

/-- With `room` levels left, `p` is what a reading makes that `q` is without a limit: the same if
there is room for it, and else a failure. -/
def Parsed.Cut (room : Nat) (p q : Parsed) : Prop :=
  q.failure = none → if Tree.nestingList q.trees ≤ room then p = q else p.failure ≠ none

namespace Parsed.Cut

variable {room : Nat} {p q inside inside' more more' : Parsed}

theorem empty : Cut room {} {} := fun _ => by
  simp [Tree.nestingList]

theorem leaf (h : Cut room more more') {t : Tree} (flat : t.nesting = 0) (separated : Bool) :
    Cut room (cons t separated more) (cons t separated more') := by
  intro ok
  have h := h ok
  simp only [cons, Tree.nestingList, flat, Nat.zero_max]
  split at h
  · rename_i fits
    rw [if_pos fits, h]
  · rename_i deep
    rwa [if_neg deep]

/-- A container leaves a level less to its contents than to what follows it, if it counts. -/
theorem within {c c' : Content} {b b' : Bool} {k : Kind} (hk : c'.kind = k)
    (same : inside = inside' → c = c' ∧ b = b') (hi : Cut room inside inside')
    (hm : Cut (room + k.nests.toNat) more more') :
    Cut (room + k.nests.toNat) (Parsed.within c b inside more)
      (Parsed.within c' b' inside' more') := by
  intro ok
  have finished : inside'.failure = none := by
    cases h : inside'.failure with
    | none => rfl
    | some e => simp [Parsed.within, h, cons, fail] at ok
  have e' : Parsed.within c' b' inside' more' = cons (.node c' inside'.trees) b' more' := by
    simp [Parsed.within, finished]
  rw [e'] at ok ⊢
  have hi := hi finished
  have hm := hm ok
  simp only [cons, Tree.nestingList, Tree.nesting, hk, Nat.max_le]
  split at hi
  · rename_i fits
    obtain rfl := hi
    obtain ⟨rfl, rfl⟩ := same rfl
    have e : Parsed.within c b inside more = cons (.node c inside.trees) b more := by
      simp [Parsed.within, finished]
    have here : k.nests.toNat + Tree.nestingList inside.trees ≤ room + k.nests.toNat := by omega
    rw [e]
    split at hm
    · rename_i fits'
      rw [if_pos ⟨here, fits'⟩, hm]
      rfl
    · rename_i deep
      rw [if_neg fun h => deep h.2]
      exact hm
  · rename_i deep
    rw [if_neg (by omega)]
    cases failed : inside.failure with
    | none => exact absurd failed hi
    | some e => simp [Parsed.within, failed, cons, fail]

/-- Without room for it a container is too deep. -/
theorem tooDeep {c : Content} {b : Bool} (nests : c.kind.nests) (e : NestingTooDeep) :
    Cut 0 (fail e) (Parsed.within c b inside more) := by
  intro ok
  have deep : ¬ Tree.nestingList (Parsed.within c b inside more).trees ≤ 0 := by
    obtain ⟨after, -, trees⟩ := Parsed.trees_within c b inside more
    simp [trees, Tree.nestingList, Tree.nesting, nests]
  rw [if_neg deep]
  simp [fail]

/-- A quote or list at a depth, read with the limit `m` and with the limit `m'`. -/
theorem container {m m' depth : Nat} {c c' : Content} {b : Bool} {k : Kind}
    (e e' : NestingTooDeep) (hk : c'.kind = k) (nests : k.nests)
    (same : inside = inside' → c = c') (hi : Cut (m - (depth + 1)) inside inside')
    (hm : Cut (m - depth) more more') :
    Cut (m - depth)
      (if m ≤ depth then fail e else Parsed.within c b inside more)
      (if m' ≤ depth then fail e' else Parsed.within c' b inside' more') := by
  by_cases refused : m' ≤ depth
  · rw [if_pos refused]
    intro ok
    simp [fail] at ok
  rw [if_neg refused]
  by_cases full : m ≤ depth
  · rw [if_pos full, Nat.sub_eq_zero_of_le full]
    exact tooDeep (hk ▸ nests) e
  · have room : m - depth = m - (depth + 1) + k.nests.toNat := by
      rw [nests, Bool.toNat_true]
      omega
    rw [if_neg full]
    rw [room] at hm ⊢
    exact within hk (fun h => ⟨same h, rfl⟩) hi hm

end Parsed.Cut

section Cut

variable (smart : Bool) (m m' : Nat)

mutual
/-- Reading lines with one limit against reading them with another. -/
theorem cutBlocks (depth : Nat) (any blank : Bool) (lines : List Line) :
    Parsed.Cut (m - depth) (parseBlocks ⟨smart, m⟩ depth any blank lines)
      (parseBlocks ⟨smart, m'⟩ depth any blank lines) := by
  cases lines with
  | nil =>
    rw [parseBlocks, parseBlocks]
    exact .empty
  | cons l ls =>
    by_cases hl : l.isBlank
    · rw [parseBlocks_blank hl, parseBlocks_blank hl]
      exact cutBlocks depth any true ls
    · have more := cutBlocks depth true (Layout.take l ls).trailingBlank (Layout.take l ls).rest
      by_cases quote : ∃ offset inner, (Layout.take l ls).layout = .quote offset inner
      · obtain ⟨offset, inner, hq⟩ := quote
        rw [parseBlocks_quote hl hq, parseBlocks_quote hl hq]
        have inside := cutBlocks (depth + 1) false false inner
        exact .container _ _ rfl rfl (fun _ => rfl) inside more
      · by_cases list : ∃ offset m items spaced,
          (Layout.take l ls).layout = .list offset m items spaced
        · obtain ⟨offset, k, items, spaced, hm⟩ := list
          rw [parseBlocks_list hl hm, parseBlocks_list hl hm]
          have inside := cutItems (depth + 1) items
          exact .container _ _ rfl rfl (fun same => by rw [same]) inside more
        · have notQuote := fun offset inner h => quote ⟨offset, inner, h⟩
          have notList := fun offset m items spaced h => list ⟨offset, m, items, spaced, h⟩
          rw [parseBlocks_leaf hl notQuote notList, parseBlocks_leaf hl notQuote notList]
          exact more.leaf (Layout.nesting_leafTree smart _) _
termination_by 2 * Line.weight lines + 1
decreasing_by
  · simp only [Line.weight_cons]
    omega
  · have := Layout.weight_rest_lt l ls
    omega
  · have := Layout.weight_quote_lt hq
    omega
  · have := Layout.weight_list_le hm
    omega

theorem cutItems (depth : Nat) (items : List (List Line)) :
    Parsed.Cut (m - depth) (parseItems ⟨smart, m⟩ depth items)
      (parseItems ⟨smart, m'⟩ depth items) := by
  cases items with
  | nil =>
    rw [parseItems, parseItems]
    exact .empty
  | cons item items =>
    rw [parseItems, parseItems]
    have inside := cutBlocks depth false false item
    have more := cutItems depth items
    exact .within (k := .item) rfl (fun same => ⟨rfl, by rw [same]⟩) inside more
termination_by 2 * itemsWeight items
decreasing_by
  all_goals
    simp only [itemsWeight]
    omega
end

end Cut

/-! ## What contents are without -/

namespace Line

/-- The size of lines in all. -/
def total (size : Line → Nat) (ls : List Line) : Nat :=
  (ls.map size).sum

/-- A size that no cut makes larger, and every cut past the indentation smaller. -/
structure Shrinks (size : Line → Nat) : Prop where
  tail_le : ∀ l n, size (l.tail n) ≤ size l
  emptied_le : ∀ l, size l.emptied ≤ size l
  tail_lt : ∀ {l n}, l.rest ≠ [] → l.indent < n → size (l.tail n) < size l

section Total

variable {size : Line → Nat}

@[simp] theorem total_nil : total size [] = 0 := rfl

@[simp] theorem total_cons (l : Line) (ls : List Line) :
    total size (l :: ls) = size l + total size ls := by
  simp [total]

@[simp] theorem total_append (ks ls : List Line) :
    total size (ks ++ ls) = total size ks + total size ls := by
  simp [total]

theorem total_le_of_suffix {ks ls : List Line} (h : ks <:+ ls) : total size ks ≤ total size ls := by
  obtain ⟨js, rfl⟩ := h
  simp

end Total

end Line

namespace Line.Shrinks

variable {size : Line → Nat} {l : Line} {ls : List Line} {m : Marker}

/-- What is collected and what is left have no more than what was given. -/
theorem collect_le {accept : OpenEnd → Line → Option Line}
    (fades : ∀ e l k, accept e l = some k → size k ≤ size l) (e : OpenEnd) (ls : List Line) :
    total size (collect accept e ls).1 + total size (collect accept e ls).2 ≤ total size ls := by
  induction ls generalizing e with
  | nil => simp [collect]
  | cons l ls ih =>
    simp only [collect]
    split
    · simp
    · rename_i k hk
      have h₁ := fades e l k hk
      have h₂ := ih (e.push k)
      simp only [total_cons]
      omega

theorem acceptQuoted_le (s : Shrinks size) (e : OpenEnd) (l k : Line)
    (h : acceptQuoted e l = some k) : size k ≤ size l := by
  unfold acceptQuoted at h
  split at h
  · cases h
    exact s.tail_le _ _
  · split at h
    · cases h
      exact s.tail_le _ _
    · cases h

theorem acceptItem_le (s : Shrinks size) (m : Marker) (e : OpenEnd) (l k : Line)
    (h : acceptItem m e l = some k) : size k ≤ size l := by
  unfold acceptItem at h
  split at h
  · split at h
    · cases h
    · cases h
      exact s.emptied_le _
  · split at h
    · cases h
      exact s.tail_le _ _
    · split at h
      · cases h
      · split at h
        · cases h
          exact s.tail_le _ _
        · cases h

theorem unquoted_lt (s : Shrinks size) (h : l.isQuoted) : size l.unquoted < size l := by
  have filled : l.rest ≠ [] := fun e => by simp [Line.isQuoted, e] at h
  refine s.tail_lt filled ?_
  split <;> omega

theorem unmarked_lt (s : Shrinks size) (h : Marker.read? l = some m) :
    size (l.tail m.width) < size l := by
  unfold Marker.read? at h
  split at h
  · cases h
  · split at h
    · cases h
    · rename_i type delimiter start length hd
      obtain ⟨pos, filled⟩ := Marker.length_pos_of_head? hd
      dsimp only at h
      split at h
      · cases h
        refine s.tail_lt filled ?_
        dsimp only
        split <;> omega
      · cases h

/-- The lines inside a quote are without its markers. -/
theorem quoted_lt (s : Shrinks size) (h : l.isQuoted) (ls : List Line) :
    total size (l.unquoted :: (collect acceptQuoted (({} : OpenEnd).push l.unquoted) ls).1) <
      total size (l :: ls) := by
  have h₁ := s.unquoted_lt h
  have h₂ := collect_le s.acceptQuoted_le (({} : OpenEnd).push l.unquoted) ls
  simp only [total_cons]
  omega

theorem takeItem_lt (s : Shrinks size) (h : Marker.read? l = some m) (ls : List Line) :
    total size (takeItem m l ls).lines + total size (takeItem m l ls).rest <
      total size (l :: ls) := by
  have h₁ := s.unmarked_lt h
  have h₂ := collect_le (s.acceptItem_le m) (({} : OpenEnd).push (l.tail m.width)) ls
  obtain ⟨blank, kept⟩ := Text.prefix_dropEndWhile Line.isBlank
    (collect (acceptItem m) (({} : OpenEnd).push (l.tail m.width)) ls).1
  rw [← kept, total_append] at h₂
  simp only [takeItem, total_cons]
  omega

/-- The contents of an item are without its marker. -/
theorem item_lt (s : Shrinks size) (h : Marker.read? l = some m) (ls : List Line) :
    ∀ item ∈ (takeItems m l ls).items, total size item < total size (l :: ls) := by
  fun_induction takeItems m l ls with
  | case1 m l ls item hn =>
    have := s.takeItem_lt h ls
    intro lines hl
    obtain rfl := List.mem_singleton.mp hl
    change total size (takeItem m l ls).lines < _
    omega
  | case2 m l ls item n k ks hn _ more ih =>
    have h₁ := s.takeItem_lt h ls
    obtain ⟨rest, read⟩ := nextItem?_eq_some hn
    intro lines hl
    rcases List.mem_cons.mp hl with rfl | hl
    · change total size (takeItem m l ls).lines < _
      omega
    · have h₂ := ih read lines hl
      rw [← rest] at h₂
      exact Nat.lt_trans h₂ (by change total size (takeItem m l ls).rest < _; omega)

end Line.Shrinks

/-! ## How deep lines can nest -/

namespace Line

/-- The number of characters of a line that are not spaces. -/
def ink (l : Line) : Nat :=
  l.text.countP (· != ' ')

/-- The characters of lines that are not spaces. -/
def inkAll (ls : List Line) : Nat :=
  (ls.map ink).sum

@[simp] theorem inkAll_nil : inkAll [] = 0 := rfl

@[simp] theorem inkAll_cons (l : Line) (ls : List Line) : inkAll (l :: ls) = l.ink + inkAll ls := by
  simp [inkAll]

/-- Whatever is taken off past the indentation is more than that. -/
theorem text_tail_lt {l : Line} {n : Nat} (filled : l.rest ≠ []) (past : l.indent < n) :
    ∃ c s, c ≠ ' ' ∧ l.text = List.replicate l.indent ' ' ++ c :: s ∧
      (l.tail n).text = s.drop (n - l.indent - 1) := by
  obtain ⟨c, s, hs⟩ := List.exists_cons_of_ne_nil filled
  have first : c ≠ ' ' := by
    have := List.head?_dropWhile_not (· == ' ') l.text
    rw [show l.text.dropWhile (· == ' ') = c :: s from hs] at this
    simpa using this
  have text : l.text = List.replicate l.indent ' ' ++ c :: s := by
    rw [← hs, l.indent_append_rest]
  refine ⟨c, s, first, text, ?_⟩
  obtain ⟨k, rfl⟩ := Nat.exists_eq_add_of_lt past
  change l.text.drop _ = _
  conv => lhs; rw [text]
  rw [List.drop_append, List.drop_of_length_le (by simp; omega), List.length_replicate,
    show l.indent + k + 1 - l.indent = k + 1 by omega, List.drop_succ_cons, List.nil_append]
  rfl

theorem shrinks_ink : Shrinks ink where
  tail_le l n := (List.drop_sublist n l.text).countP_le
  emptied_le l := by simp [ink, emptied]
  tail_lt {l n} filled past := by
    obtain ⟨c, s, first, text, shorter⟩ := text_tail_lt filled past
    have more : l.ink = 1 + s.countP (· != ' ') := by
      rw [ink, text, List.countP_append, List.countP_cons]
      simp [first, Nat.add_comm, List.countP_replicate]
    have := (List.drop_sublist (n - l.indent - 1) s).countP_le (p := (· != ' '))
    rw [more, ink, shorter]
    omega

end Line

open Line (ink inkAll inkAll_cons shrinks_ink)

section Ink

variable {l : Line} {ls : List Line}

theorem inkAll_le_of_suffix {ks ls : List Line} (h : ks <:+ ls) : inkAll ks ≤ inkAll ls :=
  Line.total_le_of_suffix h

/-- The contents of a quote are without its markers. -/
theorem inkAll_quote_lt {offset : Nat} {inner : List Line}
    (h : (Layout.take l ls).layout = .quote offset inner) :
    inkAll inner < inkAll (l :: ls) := by
  obtain ⟨quoted, -, rfl⟩ := Layout.take_eq_quote h
  exact shrinks_ink.quoted_lt quoted ls

end Ink

theorem Parsed.failure_within {c : Content} {separated : Bool} {inside more : Parsed}
    (hi : inside.failure = none) (hm : more.failure = none) :
    (Parsed.within c separated inside more).failure = none := by
  simp [within, hi, cons, hm]

mutual
/-- Reading fails nowhere if the limit leaves a level for every character that is not a space. -/
theorem failure_parseBlocks {o : ParseOptions} (depth : Nat) (any blank : Bool) :
    ∀ lines : List Line, depth + inkAll lines ≤ o.maxNesting →
      (parseBlocks o depth any blank lines).failure = none
  | [], _ => by rw [parseBlocks]
  | l :: ls, room => by
    have fewer := inkAll_le_of_suffix (Layout.rest_take_suffix l ls)
    rw [inkAll_cons] at room
    by_cases hl : l.isBlank
    · rw [parseBlocks_blank hl]
      exact failure_parseBlocks depth any true ls (by omega)
    · have more := failure_parseBlocks (o := o) depth true (Layout.take l ls).trailingBlank
        (Layout.take l ls).rest (by omega)
      by_cases quote : ∃ offset inner, (Layout.take l ls).layout = .quote offset inner
      · obtain ⟨offset, inner, hq⟩ := quote
        have less := inkAll_quote_lt hq
        rw [inkAll_cons] at less
        have inside := failure_parseBlocks (o := o) (depth + 1) false false inner (by omega)
        rw [parseBlocks_quote hl hq, if_neg (by omega)]
        exact Parsed.failure_within inside more
      · by_cases list : ∃ offset m items spaced,
          (Layout.take l ls).layout = .list offset m items spaced
        · obtain ⟨offset, k, items, spaced, hm⟩ := list
          have less : ∀ item ∈ items, inkAll item < l.ink + inkAll ls := by
            obtain ⟨read, -, rfl, -⟩ := Layout.take_eq_list hm
            exact shrinks_ink.item_lt read ls
          have inked : 0 < l.ink + inkAll ls := by
            obtain ⟨-, -, rfl, -⟩ := Layout.take_eq_list hm
            exact Nat.zero_lt_of_lt (less _ (List.head_mem (takeItems_ne_nil k l ls)))
          have inside := failure_parseItems (o := o) (depth + 1) items fun item hi => by
            have := less item hi
            omega
          rw [parseBlocks_list hl hm, if_neg (by omega)]
          exact Parsed.failure_within inside more
        · rw [parseBlocks_leaf hl (fun offset inner h => quote ⟨offset, inner, h⟩)
            fun offset m items spaced h => list ⟨offset, m, items, spaced, h⟩]
          exact more
termination_by lines => 2 * Line.weight lines + 1
decreasing_by
  · simp only [Line.weight_cons]
    omega
  · have := Layout.weight_rest_lt l ls
    omega
  · have := Layout.weight_quote_lt hq
    omega
  · have := Layout.weight_list_le hm
    omega

theorem failure_parseItems {o : ParseOptions} (depth : Nat) :
    ∀ items : List (List Line), (∀ item ∈ items, depth + inkAll item ≤ o.maxNesting) →
      (parseItems o depth items).failure = none
  | [], _ => by rw [parseItems]
  | item :: items, room => by
    rw [parseItems]
    have inside := failure_parseBlocks depth false false item (room item (by simp))
    have more := failure_parseItems depth items fun k hk => room k (by simp [hk])
    exact Parsed.failure_within inside more
termination_by items => 2 * itemsWeight items
decreasing_by
  all_goals
    simp only [itemsWeight]
    omega
end

/-! ## Sources -/

theorem ink_expandTabs_le (column : Nat) (s : List Char) :
    (Line.expandTabs column s).countP (· != ' ') ≤ s.length := by
  fun_induction Line.expandTabs column s with
  | case1 column s ih =>
    simp only [List.countP_append, List.countP_replicate, List.length_cons]
    simp
    omega
  | case2 column s ih =>
    simp only [List.countP_cons, List.length_cons]
    simp
    omega
  | case3 column s _ _ => exact List.countP_le_length

theorem inkAll_number_le (offset : Nat) (raws : List (List Char)) :
    inkAll (Line.number offset raws) ≤ (List.intercalate ['\n'] raws).length := by
  induction raws generalizing offset with
  | nil => simp [Line.number]
  | cons raw raws ih =>
    have line : (Line.dropCarriageReturn raw).length ≤ raw.length := by
      unfold Line.dropCarriageReturn
      split <;> simp
    have first := ink_expandTabs_le 0 (Line.dropCarriageReturn raw)
    have more := ih (offset + Text.utf8Length raw + 1)
    rw [Line.number, inkAll_cons, ink]
    cases raws with
    | nil =>
      simp [Line.number] at more ⊢
      omega
    | cons next raws =>
      rw [List.intercalate_cons_cons] at *
      simp at more ⊢
      omega

theorem inkAll_ofSource_le (source : List Char) :
    inkAll (Line.ofSource source) ≤ source.length := by
  have h := inkAll_number_le 0 (source.splitOn '\n')
  rwa [List.intercalate_splitOn] at h

section Limit

variable {smart : Bool} {source : String} {D : Tree}

/-- The documents that a source is, as the trees that it makes without failure. -/
theorem parse_eq_ok {o : ParseOptions} : parse o source = .ok D ↔
    (readSource o source.toList).failure = none ∧
      D = .node .document (readSource o source.toList).trees := by
  unfold parse Parsed.document Parsed.error? Parsed.documentMade
  cases (readSource o source.toList).failure <;> simp [eq_comm]

/-- If a source can be read with some limit, it can with another one exactly when the document
nests within that, and is the same document then.  A limit of as many levels as the source has
bytes is never reached. -/
theorem parse_limit (smart : Bool) (source : String) :
    (∀ m m' D, parse ⟨smart, m'⟩ source = .ok D →
      ((∃ E, parse ⟨smart, m⟩ source = .ok E) ↔ D.NestsWithin m) ∧
        ∀ E, parse ⟨smart, m⟩ source = .ok E → E = D) ∧
      ∀ m, source.utf8ByteSize ≤ m → ∃ D, parse ⟨smart, m⟩ source = .ok D := by
  constructor
  · intro m m' D h
    obtain ⟨ok, rfl⟩ := parse_eq_ok.mp h
    have cut := cutBlocks smart m m' 0 false false (Line.ofSource source.toList) ok
    have depth : (Tree.node .document (readSource ⟨smart, m'⟩ source.toList).trees).NestsWithin m ↔
        Tree.nestingList (readSource ⟨smart, m'⟩ source.toList).trees ≤ m := by
      rw [← Tree.nesting_le_iff, Tree.nesting]
      simp [Content.kind, Kind.nests]
    rw [depth]
    change if Tree.nestingList (readSource ⟨smart, m'⟩ source.toList).trees ≤ m then
      readSource ⟨smart, m⟩ source.toList = readSource ⟨smart, m'⟩ source.toList
      else (readSource ⟨smart, m⟩ source.toList).failure ≠ none at cut
    split at cut
    · rename_i fits
      have same : ∀ E, parse ⟨smart, m⟩ source = .ok E →
          E = .node .document (readSource ⟨smart, m'⟩ source.toList).trees := by
        intro E hE
        rw [← cut]
        exact (parse_eq_ok.mp hE).2
      exact ⟨iff_of_true ⟨_, parse_eq_ok.mpr ⟨cut ▸ ok, rfl⟩⟩ fits, same⟩
    · rename_i deep
      have fails : ∀ E, parse ⟨smart, m⟩ source ≠ .ok E := fun E hE =>
        cut (parse_eq_ok.mp hE).1
      have none : ¬ ∃ E, parse ⟨smart, m⟩ source = .ok E := by
        rintro ⟨E, hE⟩
        exact fails E hE
      exact ⟨iff_of_false none deep, fun E hE => absurd hE (fails E)⟩
  · intro m enough
    have few := inkAll_ofSource_le source.toList
    have bytes := Text.length_le_utf8Length source.toList
    rw [Text.utf8Length_toList] at bytes
    have ok := failure_parseBlocks (o := ⟨smart, m⟩) 0 false false (Line.ofSource source.toList)
      (by dsimp only; omega)
    exact ⟨_, parse_eq_ok.mpr ⟨ok, rfl⟩⟩

end Limit

end MarkdownForest
