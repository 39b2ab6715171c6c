/-
# MarkdownForest.Proofs.Relocation -- the same lines elsewhere

The offset of a line says where an error points and decides nothing.  Lines with
the same texts elsewhere are cut into the same blocks (`Layout.take_elsewhere`)
and read as the same trees; where reading stops in one of them it stops in the
other, at the line that corresponds (`blocks_elsewhere`).

The depth counts only against the limit, so lines further inside are read as the
same trees with a limit that is as many levels higher.
-/
import MarkdownForest.Proofs.BlockRuns

namespace MarkdownForest

set_option autoImplicit false

open Text

variable {R : Nat → Nat → Prop}

/-! ## One line -/

/-- The relation of offsets is kept when as much is taken off both lines. -/
def Steady (R : Nat → Nat → Prop) : Prop :=
  ∀ a b n, R a b → R (a + n) (b + n)

/-- The line `k` is the line `l` elsewhere; `R` relates their offsets. -/
structure Line.Elsewhere (R : Nat → Nat → Prop) (k l : Line) : Prop where
  text : k.text = l.text
  offset : R k.offset l.offset

namespace Line.Elsewhere

variable {k l : Line}

/-- Whatever does not look at the offset is the same. -/
theorem same {α : Type} {f : Line → α} (h : k.Elsewhere R l)
    (blind : ∀ s a b, f ⟨s, a⟩ = f ⟨s, b⟩) :
    f k = f l := by
  obtain ⟨s, a⟩ := k
  obtain ⟨t, b⟩ := l
  obtain rfl : s = t := h.text
  exact blind s a b

theorem isBlank_eq (h : k.Elsewhere R l) : k.isBlank = l.isBlank :=
  h.same (f := isBlank) fun _ _ _ => rfl

theorem tail (steady : Steady R) (h : k.Elsewhere R l) (n : Nat) :
    (k.tail n).Elsewhere R (l.tail n) := by
  refine ⟨by simp [Line.tail, h.text], ?_⟩
  simp only [Line.tail, h.text]
  exact steady _ _ _ h.offset

theorem strip (steady : Steady R) (h : k.Elsewhere R l) (n : Nat) :
    (k.strip n).Elsewhere R (l.strip n) := by
  rw [Line.strip, Line.strip, h.same (f := indent) fun _ _ _ => rfl]
  exact h.tail steady _

theorem unquoted (steady : Steady R) (h : k.Elsewhere R l) :
    k.unquoted.Elsewhere R l.unquoted := by
  rw [Line.unquoted, Line.unquoted, h.text, h.same (f := indent) fun _ _ _ => rfl]
  exact h.tail steady _

/-- A line that a container takes as contents is taken elsewhere as well, as the same contents. -/
theorem acceptQuoted (steady : Steady R) (h : k.Elsewhere R l) (e : OpenEnd) :
    Option.Rel (Elsewhere R) (acceptQuoted e k) (acceptQuoted e l) := by
  have quoted : k.isQuoted = l.isQuoted := h.same fun _ _ _ => rfl
  have starts : startsBlock k = startsBlock l := h.same fun _ _ _ => rfl
  have indent : k.indent = l.indent := h.same fun _ _ _ => rfl
  unfold MarkdownForest.acceptQuoted
  rw [quoted, h.isBlank_eq, starts, indent]
  split
  · exact .some (h.unquoted steady)
  · split
    · exact .some (h.strip steady _)
    · exact .none

theorem acceptItem (steady : Steady R) (h : k.Elsewhere R l) (m : Marker) (e : OpenEnd) :
    Option.Rel (Elsewhere R) (acceptItem m e k) (acceptItem m e l) := by
  have read : Marker.read? k = Marker.read? l := h.same fun _ _ _ => rfl
  have starts : startsBlock k = startsBlock l := h.same fun _ _ _ => rfl
  have indent : k.indent = l.indent := h.same fun _ _ _ => rfl
  unfold MarkdownForest.acceptItem
  rw [h.isBlank_eq, read, starts, indent]
  split
  · split
    · exact .none
    · exact .some ⟨rfl, h.offset⟩
  · split
    · exact .some (h.strip steady _)
    · split
      · exact .none
      · split
        · exact .some (h.strip steady _)
        · exact .none

end Line.Elsewhere

/-! ## Runs of lines -/

/-- The lines are the same, one by one, elsewhere. -/
abbrev AllElsewhere (R : Nat → Nat → Prop) : List Line → List Line → Prop :=
  List.Forall₂ (Line.Elsewhere R)

section Runs

variable {ks ls : List Line}

theorem AllElsewhere.takeWhile {p : Line → Bool} (blind : ∀ s a b, p ⟨s, a⟩ = p ⟨s, b⟩)
    (h : AllElsewhere R ks ls) : AllElsewhere R (ks.takeWhile p) (ls.takeWhile p) := by
  induction h with
  | nil => exact .nil
  | cons here _ ih =>
    rw [List.takeWhile_cons, List.takeWhile_cons, here.same blind]
    split
    · exact .cons here ih
    · exact .nil

theorem AllElsewhere.dropWhile {p : Line → Bool} (blind : ∀ s a b, p ⟨s, a⟩ = p ⟨s, b⟩)
    (h : AllElsewhere R ks ls) : AllElsewhere R (ks.dropWhile p) (ls.dropWhile p) := by
  induction h with
  | nil => exact .nil
  | cons here more ih =>
    rw [List.dropWhile_cons, List.dropWhile_cons, here.same blind]
    split
    · exact ih
    · exact .cons here more

theorem AllElsewhere.dropEndWhile {p : Line → Bool} (blind : ∀ s a b, p ⟨s, a⟩ = p ⟨s, b⟩)
    (h : AllElsewhere R ks ls) : AllElsewhere R (dropEndWhile p ks) (dropEndWhile p ls) :=
  List.rel_reverse (AllElsewhere.dropWhile blind (List.rel_reverse h))

theorem AllElsewhere.map_eq {α : Type} {f : Line → α} (blind : ∀ s a b, f ⟨s, a⟩ = f ⟨s, b⟩)
    (h : AllElsewhere R ks ls) : ks.map f = ls.map f := by
  induction h with
  | nil => rfl
  | cons here _ ih => rw [List.map_cons, List.map_cons, here.same blind, ih]

theorem collect_elsewhere {accept : OpenEnd → Line → Option Line}
    (each : ∀ e k l, Line.Elsewhere R k l →
      Option.Rel (Line.Elsewhere R) (accept e k) (accept e l))
    (h : AllElsewhere R ks ls) (e : OpenEnd) :
    AllElsewhere R (collect accept e ks).1 (collect accept e ls).1 ∧
      AllElsewhere R (collect accept e ks).2 (collect accept e ls).2 := by
  induction h generalizing e with
  | nil => exact ⟨.nil, .nil⟩
  | @cons k l ks ls here more ih =>
    have taken := each e k l here
    simp only [collect]
    generalize accept e k = x, accept e l = y at taken
    cases taken with
    | none => exact ⟨.nil, .cons here more⟩
    | @some i j inside =>
      have pushed : e.push i = e.push j := inside.same fun _ _ _ => rfl
      obtain ⟨first, rest⟩ := ih (e.push j)
      dsimp only
      rw [pushed]
      exact ⟨.cons inside first, rest⟩

theorem takeItem_elsewhere (steady : Steady R) (m : Marker) {k l : Line} (h : k.Elsewhere R l)
    (hs : AllElsewhere R ks ls) :
    AllElsewhere R (takeItem m k ks).lines (takeItem m l ls).lines ∧
      AllElsewhere R (takeItem m k ks).rest (takeItem m l ls).rest ∧
      (takeItem m k ks).trailingBlank = (takeItem m l ls).trailingBlank := by
  have first := h.tail steady m.width
  have pushed : ({} : OpenEnd).push (k.tail m.width) = ({} : OpenEnd).push (l.tail m.width) :=
    first.same fun _ _ _ => rfl
  obtain ⟨found, rest⟩ := collect_elsewhere (fun e _ _ h => h.acceptItem steady m e) hs
    (({} : OpenEnd).push (l.tail m.width))
  have kept := found.dropEndWhile (p := Line.isBlank) fun _ _ _ => rfl
  unfold takeItem
  dsimp only
  rw [pushed]
  exact ⟨.cons first kept, rest, by rw [kept.length_eq, found.length_eq]⟩

/-- The marker that goes on with a list, its line and the lines after it, in both runs. -/
theorem nextItem?_elsewhere (m : Marker) (h : AllElsewhere R ks ls) :
    (nextItem? m ks = none ∧ nextItem? m ls = none) ∨
      ∃ n k l ks' ls', nextItem? m ks = some (n, k, ks') ∧ nextItem? m ls = some (n, l, ls') ∧
        k.Elsewhere R l ∧ AllElsewhere R ks' ls' := by
  cases h with
  | nil => exact .inl ⟨rfl, rfl⟩
  | @cons k l ks ls here more =>
    have read : Marker.read? k = Marker.read? l := here.same fun _ _ _ => rfl
    have rule : isRule k.rest = isRule l.rest :=
      here.same (f := fun l => isRule l.rest) fun _ _ _ => rfl
    simp only [nextItem?, read, rule]
    cases Marker.read? l with
    | none => exact .inl ⟨rfl, rfl⟩
    | some n =>
      by_cases goesOn : m.sameList n && !isRule l.rest
      · exact .inr ⟨n, k, l, ks, ls, if_pos goesOn, if_pos goesOn, here, more⟩
      · exact .inl ⟨if_neg goesOn, if_neg goesOn⟩

/-- The items of two lists, one by one. -/
structure ListLines.Elsewhere (R : Nat → Nat → Prop) (x y : ListLines) : Prop where
  items : List.Forall₂ (AllElsewhere R) x.items y.items
  rest : AllElsewhere R x.rest y.rest
  spaced : x.spaced = y.spaced
  trailingBlank : x.trailingBlank = y.trailingBlank

theorem takeItems_none {m : Marker} {l : Line} {ls : List Line}
    (h : nextItem? m (takeItem m l ls).rest = none) :
    takeItems m l ls = ⟨[(takeItem m l ls).lines], (takeItem m l ls).rest, false,
      (takeItem m l ls).trailingBlank⟩ := by
  rw [takeItems]
  dsimp only
  split
  · rfl
  · rename_i h'
    cases h.symm.trans h'

theorem takeItems_some {m n : Marker} {k l : Line} {ks ls : List Line}
    (h : nextItem? m (takeItem m l ls).rest = some (n, k, ks)) :
    takeItems m l ls = ⟨(takeItem m l ls).lines :: (takeItems n k ks).items,
      (takeItems n k ks).rest, (takeItem m l ls).trailingBlank || (takeItems n k ks).spaced,
      (takeItems n k ks).trailingBlank⟩ := by
  rw [takeItems]
  dsimp only
  split
  · rename_i h'
    cases h.symm.trans h'
  · rename_i h'
    cases h.symm.trans h'
    rfl

theorem takeItems_elsewhere (steady : Steady R) (m : Marker) (l : Line) (ls : List Line) :
    ∀ (k : Line) (ks : List Line), k.Elsewhere R l → AllElsewhere R ks ls →
      ListLines.Elsewhere R (takeItems m k ks) (takeItems m l ls) := by
  fun_induction takeItems m l ls with
  | case1 m l ls item hn =>
    intro k ks h hs
    obtain ⟨lines, rest, blank⟩ := takeItem_elsewhere steady m h hs
    rcases nextItem?_elsewhere m rest with ⟨none, -⟩ | ⟨n, k', l', ks', ls', -, next, -⟩
    · rw [takeItems_none none]
      exact ⟨.cons lines .nil, rest, rfl, blank⟩
    · cases hn.symm.trans next
  | case2 m l ls item n l' ls' hn _ more ih =>
    intro k ks h hs
    obtain ⟨lines, rest, blank⟩ := takeItem_elsewhere steady m h hs
    rcases nextItem?_elsewhere m rest with
      ⟨-, none⟩ | ⟨n, k', l', ks', ls', next, next', here, after⟩
    · cases hn.symm.trans none
    · cases hn.symm.trans next'
      obtain ⟨items, rest', spaced, trailing⟩ := ih k' ks' here after
      rw [takeItems_some next]
      exact ⟨.cons lines items, rest', by rw [blank, spaced], trailing⟩

theorem takeParagraph_elsewhere (h : AllElsewhere R ks ls) :
    (takeParagraph ks).1 = (takeParagraph ls).1 ∧
      (takeParagraph ks).2.1 = (takeParagraph ls).2.1 ∧
      AllElsewhere R (takeParagraph ks).2.2 (takeParagraph ls).2.2 := by
  induction h with
  | nil => exact ⟨rfl, rfl, .nil⟩
  | @cons k l ks ls here more ih =>
    have underline : underline? k = underline? l := here.same fun _ _ _ => rfl
    have starts : startsBlock k = startsBlock l := here.same fun _ _ _ => rfl
    obtain ⟨texts, level, rest⟩ := ih
    simp only [takeParagraph, here.isBlank_eq, underline, starts]
    split
    · exact ⟨rfl, rfl, .cons here more⟩
    · split
      · exact ⟨rfl, rfl, more⟩
      · split
        · exact ⟨rfl, rfl, .cons here more⟩
        · exact ⟨by rw [here.text, texts], level, rest⟩

end Runs

/-! ## One block -/

/-- The block is the same, with lines inside that are elsewhere. -/
inductive Layout.Elsewhere (R : Nat → Nat → Prop) : Layout → Layout → Prop
  | quote {a b : Nat} {ks ls : List Line} (offset : R a b) (inner : AllElsewhere R ks ls) :
    Elsewhere R (.quote a ks) (.quote b ls)
  | list {a b : Nat} {rows rows' : List (List Line)} (m : Marker) (spaced : Bool) (offset : R a b)
    (items : List.Forall₂ (AllElsewhere R) rows rows') :
    Elsewhere R (.list a m rows spaced) (.list b m rows' spaced)
  | leaf (x : Layout) (other : x.kind ≠ .blockQuote ∧ x.kind ≠ .list) : Elsewhere R x x

structure Taken.Elsewhere (R : Nat → Nat → Prop) (x y : Taken) : Prop where
  layout : x.layout.Elsewhere R y.layout
  rest : AllElsewhere R x.rest y.rest
  trailingBlank : x.trailingBlank = y.trailingBlank

theorem Layout.takeIndented_elsewhere {k l : Line} {ks ls : List Line}
    (h : k.Elsewhere R l) (hs : AllElsewhere R ks ls) :
    Taken.Elsewhere R (takeIndented k ks) (takeIndented l ls) := by
  have through := hs.takeWhile (p := fun k => k.isBlank || 4 ≤ k.indent) fun _ _ _ => rfl
  have more := through.dropEndWhile (p := Line.isBlank) fun _ _ _ => rfl
  have texts := AllElsewhere.map_eq (f := fun k : Line => (k.strip 4).text) (fun _ _ _ => rfl)
    (.cons h more)
  unfold takeIndented
  dsimp only
  rw [texts, more.length_eq]
  exact ⟨.leaf _ (by simp [kind]), List.forall₂_drop _ hs, rfl⟩

/-- A block is cut off the same lines elsewhere in the same way. -/
theorem Layout.take_elsewhere (steady : Steady R) {k l : Line} {ks ls : List Line}
    (h : k.Elsewhere R l) (hs : AllElsewhere R ks ls) :
    Taken.Elsewhere R (take k ks) (take l ls) := by
  have here : k = ⟨l.text, k.offset⟩ := by
    rw [← h.text]
  cases opening l with
  | indented opens =>
    rw [here, opens k.offset ks, opens l.offset ls, ← here]
    exact takeIndented_elsewhere h hs
  | fenced f fence opens =>
    rw [here, opens k.offset ks, opens l.offset ls]
    have inside := hs.takeWhile (p := fun k => !f.closedBy k) fun _ _ _ => rfl
    have rest := hs.dropWhile (p := fun k => !f.closedBy k) fun _ _ _ => rfl
    have texts := inside.map_eq (f := fun k : Line => (k.strip l.indent).text) fun _ _ _ => rfl
    unfold takeFenced
    dsimp only
    rw [texts]
    exact ⟨.leaf _ (by simp [kind]), List.forall₂_drop _ rest, rfl⟩
  | header level text opens =>
    rw [here, opens k.offset ks, opens l.offset ls]
    exact ⟨.leaf _ (by simp [kind]), hs, rfl⟩
  | quote opens =>
    rw [here, opens k.offset ks, opens l.offset ls, ← here]
    have first := h.unquoted steady
    have pushed : ({} : OpenEnd).push k.unquoted = ({} : OpenEnd).push l.unquoted :=
      first.same fun _ _ _ => rfl
    obtain ⟨inner, rest⟩ := collect_elsewhere (fun e _ _ h => h.acceptQuoted steady e) hs
      (({} : OpenEnd).push l.unquoted)
    unfold takeQuote
    dsimp only
    rw [pushed]
    exact ⟨.quote h.offset (.cons first inner), rest, rfl⟩
  | rule opens =>
    rw [here, opens k.offset ks, opens l.offset ls]
    exact ⟨.leaf _ (by simp [kind]), hs, rfl⟩
  | list m read opens =>
    rw [here, opens k.offset ks, opens l.offset ls, ← here]
    have found := takeItems_elsewhere steady m l ls k ks h hs
    unfold takeList
    dsimp only
    rw [found.spaced]
    exact ⟨.list m _ h.offset found.items, found.rest, found.trailingBlank⟩
  | html opens =>
    rw [here, opens k.offset ks, opens l.offset ls, ← here]
    have inside := hs.takeWhile (p := fun k => !k.isBlank) fun _ _ _ => rfl
    have rest := hs.dropWhile (p := fun k => !k.isBlank) fun _ _ _ => rfl
    have texts := AllElsewhere.map_eq (f := Line.text) (fun _ _ _ => rfl) (.cons h inside)
    unfold takeHtml
    dsimp only
    rw [texts]
    exact ⟨.leaf _ (by simp [kind]), rest, rfl⟩
  | text opens =>
    rw [here, opens k.offset ks, opens l.offset ls, ← here]
    obtain ⟨texts, level, rest⟩ := takeParagraph_elsewhere hs
    have first : k.rest = l.rest := h.same (f := Line.rest) fun _ _ _ => rfl
    simp only [takeText, texts, level, first]
    cases (takeParagraph ls).2.1 with
    | none => exact ⟨.leaf _ (by simp [kind]), rest, rfl⟩
    | some level => exact ⟨.leaf _ (by simp [kind]), rest, rfl⟩

/-! ## Whole readings -/

/-- The same trees are made, and the readings stop at places that `R` relates. -/
structure Parsed.Elsewhere (R : Nat → Nat → Prop) (p q : Parsed) : Prop where
  trees : p.trees = q.trees
  loose : p.loose = q.loose
  failure : Option.Rel (fun e e' => R e.position e'.position) p.failure q.failure

namespace Parsed.Elsewhere

variable {p q inside inside' more more' : Parsed}

theorem empty : Elsewhere R {} {} :=
  ⟨rfl, rfl, .none⟩

theorem fail {e e' : NestingTooDeep} (h : R e.position e'.position) :
    Elsewhere R (.fail e) (.fail e') :=
  ⟨rfl, rfl, .some h⟩

theorem cons (h : Elsewhere R more more') (t : Tree) (separated : Bool) :
    Elsewhere R (.cons t separated more) (.cons t separated more') :=
  ⟨congrArg (t :: ·) h.trees, congrArg (separated || ·) h.loose, h.failure⟩

theorem within (hi : Elsewhere R inside inside') (hm : Elsewhere R more more') (c : Content)
    (separated : Bool) :
    Elsewhere R (.within c separated inside more) (.within c separated inside' more') := by
  obtain ⟨trees, loose, failure⟩ := inside
  obtain ⟨trees', loose', failure'⟩ := inside'
  obtain ⟨rfl, rfl, failures⟩ := hi
  cases failures with
  | none => exact hm.cons _ _
  | some h => exact (fail h).cons _ _

end Parsed.Elsewhere

section Read

variable (smart : Bool) (m levels : Nat)

/-- A container that stands `levels` deeper under a limit that is as many levels higher. -/
theorem Parsed.Elsewhere.container {depth : Nat} {inside inside' more more' : Parsed}
    {position position' : Nat} (h : R position position') (hi : Elsewhere R inside inside')
    (hm : Elsewhere R more more') (c : Content) (separated : Bool) :
    Elsewhere R
      (if m ≤ depth then .fail ⟨position, m⟩ else .within c separated inside more)
      (if m + levels ≤ depth + levels then .fail ⟨position', m + levels⟩
        else .within c separated inside' more') := by
  by_cases full : m ≤ depth
  · rw [if_pos full, if_pos (by omega)]
    exact fail h
  · rw [if_neg full, if_neg (by omega)]
    exact hi.within hm c separated

mutual
/-- The same lines elsewhere, some levels further inside, under a limit as many levels higher. -/
theorem blocks_elsewhere (steady : Steady R) (depth : Nat) (any blank : Bool) (ks ls : List Line)
    (h : AllElsewhere R ks ls) :
    Parsed.Elsewhere R (parseBlocks ⟨smart, m⟩ depth any blank ks)
      (parseBlocks ⟨smart, m + levels⟩ (depth + levels) any blank ls) := by
  cases h with
  | nil =>
    rw [parseBlocks_nil, parseBlocks_nil]
    exact .empty
  | @cons k l ks ls here rest =>
    by_cases hk : k.isBlank
    · rw [parseBlocks_blank hk, parseBlocks_blank (here.isBlank_eq ▸ hk)]
      exact blocks_elsewhere steady depth any true ks ls rest
    · have hl : ¬ l.isBlank := here.isBlank_eq ▸ hk
      obtain ⟨layout, after, trailing⟩ := Layout.take_elsewhere steady here rest
      have more := blocks_elsewhere steady depth true (Layout.take k ks).trailingBlank _ _ after
      rw [parseBlocks_cons ks hk, parseBlocks_cons ls hl, ← trailing]
      generalize hx : (Layout.take k ks).layout = x, (Layout.take l ls).layout = y at layout
      cases layout with
      | quote offset inner =>
        have inside := blocks_elsewhere steady (depth + 1) false false _ _ inner
        rw [Nat.add_right_comm] at inside
        exact .container m levels offset inside more .blockQuote _
      | list k spaced offset items =>
        have inside := items_elsewhere steady (depth + 1) _ _ items
        rw [Nat.add_right_comm] at inside
        simp only [blockThen, ← inside.loose]
        exact .container m levels offset inside more _ _
      | leaf x other =>
        rw [blockThen_leaf other, blockThen_leaf other]
        exact more.cons _ _
termination_by 2 * Line.weight ks + 1
decreasing_by
  · simp only [Line.weight_cons]
    omega
  · have := Layout.weight_rest_lt k ks
    omega
  · have := Layout.weight_quote_lt hx
    omega
  · have := Layout.weight_list_le hx
    omega

theorem items_elsewhere (steady : Steady R) (depth : Nat) (rows rows' : List (List Line))
    (h : List.Forall₂ (AllElsewhere R) rows rows') :
    Parsed.Elsewhere R (parseItems ⟨smart, m⟩ depth rows)
      (parseItems ⟨smart, m + levels⟩ (depth + levels) rows') := by
  cases h with
  | nil =>
    rw [parseItems, parseItems]
    exact .empty
  | @cons row row' rows rows' here rest =>
    rw [parseItems, parseItems]
    have inside := blocks_elsewhere steady depth false false row row' here
    have more := items_elsewhere steady depth rows rows' rest
    rw [← inside.loose]
    exact inside.within more _ _
termination_by 2 * itemsWeight rows
decreasing_by
  all_goals
    simp only [itemsWeight]
    omega
end

end Read

end MarkdownForest
