/-
# MarkdownForest.Proofs.Outlines -- an outline has a line for each node, at its depth

An outline keeps a count of levels as it goes along a walk.  The count goes up
where a node is entered, unless the node is a leaf, since a leaf is not left, and
goes down where a node is left, unless it is at zero.  Nothing ties it to what is
above a node: that it tells the depth of each node entered depends on the events
that a walk meets.

* `counted es`: events, each with the count before it;
* `Linked.counted_traversal`: the count at a node is its depth below the one that
  the outline began at, and one more where it is left, so it never goes down from
  zero;
* `feed_not_mem_outlineLine`: no line breaks, whatever strings a node holds.

`run_outline` is the statement on every live node of every forest that requests
lead to.
-/
import MarkdownForest.Forest.Outline
import MarkdownForest.Proofs.FencedCode
import MarkdownForest.Proofs.Planting
import MarkdownForest.Proofs.Traversals

namespace MarkdownForest

set_option autoImplicit false

open Forest

/-! ## Lines that do not break -/

section Lines

theorem feed_not_mem_toDigits {base : Nat} (h : 1 < base) (n : Nat) :
    '\n' ∉ Nat.toDigits base n := by
  induction n using Nat.strongRecOn with
  | ind n ih =>
    have digit : ∀ d, '\n' ≠ Nat.digitChar d := by simp
    rw [Nat.toDigits_eq_if h]
    split
    · rw [List.mem_singleton]
      exact digit n
    · rw [List.mem_append, List.mem_singleton, not_or]
      exact ⟨ih (n / base) (Nat.div_lt_self (by omega) h), digit _⟩

/-- A quoted text stands on one line. -/
theorem feed_not_mem_quotedText (s : String) : '\n' ∉ (quotedText s).toList := by
  have one : ∀ c, '\n' ∉ Text.quoteChar c := by
    intro c
    unfold Text.quoteChar
    split_ifs with _ _ _ feed
    all_goals try decide
    · rw [List.mem_singleton]
      exact Ne.symm feed
    · simp [Text.hexDigits, feed_not_mem_toDigits (show 1 < 16 by decide)]
  simp [quotedText, Text.quoted, one]

theorem feed_not_mem_details (c : Content) : '\n' ∉ (details c).toList := by
  have text := feed_not_mem_quotedText
  have digits : ∀ n, '\n' ∉ Nat.toDigits 10 n := feed_not_mem_toDigits (by decide)
  cases c with
  | list type start tight =>
    cases type <;> cases tight <;> simp [details, ListType.symbol, digits]
  | link url title | image url title =>
    by_cases none : title.isEmpty <;> simp [details, none, text]
  | _ => simp [details, text, digits]

/-- A line is indented by twice the depth, and no further. -/
theorem indent_outlineLine (depth : Nat) (c : Content) :
    (outlineLine depth c).toList.takeWhile (· == ' ') = List.replicate (2 * depth) ' ' ∧
      (outlineLine depth c).toList.dropWhile (· == ' ') =
        c.kind.symbol.toList ++ (details c).toList := by
  have starts : ∀ k : Kind, ∃ d s, k.symbol.toList = d :: s ∧ (d == ' ') = false := by
    intro k
    cases k <;> exact ⟨_, _, rfl, by decide⟩
  obtain ⟨d, s, symbol, ink⟩ := starts c.kind
  have spaces : ∀ e ∈ List.replicate (2 * depth) ' ', (e == ' ') = true := by simp
  have line : (outlineLine depth c).toList =
      List.replicate (2 * depth) ' ' ++ (d :: s ++ (details c).toList) := by
    simp [outlineLine, symbol]
  rw [line, List.takeWhile_append_of_pos spaces, List.dropWhile_append_of_pos spaces, symbol]
  simp [ink]

theorem feed_not_mem_outlineLine (depth : Nat) (c : Content) :
    '\n' ∉ (outlineLine depth c).toList := by
  have symbol : ∀ k : Kind, '\n' ∉ k.symbol.toList := by
    intro k
    cases k <;> decide
  simp [outlineLine, symbol, feed_not_mem_details]

end Lines

/-! ## Along links -/

namespace LinkWalk

/-- Adds what is met to the text of an outline, and counts. -/
def outlineEvent (f : Forest) (s : String × Nat) : WalkEvent → Looping ((String × Nat) × Bool)
  | .enter y => do
    let c ← Looping.done (f.content y)
    return ((s.1 ++ outlineLine s.2 c ++ "\n", if c.kind.isLeaf then s.2 else s.2 + 1), false)
  | .exit _ => return ((s.1, s.2 - 1), false)

/-- The outline of a node. -/
def outline (f : Forest) (x : NodeId) : Looping String :=
  return (← loop f (outlineEvent f) (start f x) ("", 0)).1

end LinkWalk

namespace Forest

open Walk (traversal)

variable {f : Forest} {x y : NodeId}

/-- The count after an event. -/
def countAfter (f : Forest) (count : Nat) : WalkEvent → Nat
  | .enter y => if (f.contentAt y).kind.isLeaf then count else count + 1
  | .exit _ => count - 1

/-- Events, each with the count before it. -/
def counted (f : Forest) (count : Nat) : List WalkEvent → List (WalkEvent × Nat)
  | [] => []
  | e :: es => (e, count) :: counted f (f.countAfter count e) es

/-- The line for an event, at a count. -/
def lineAt? (f : Forest) : WalkEvent × Nat → Option String
  | (.enter y, count) => some (outlineLine count (f.contentAt y))
  | (.exit _, _) => none

theorem counted_append (count : Nat) (es more : List WalkEvent) :
    f.counted count (es ++ more) =
      f.counted count es ++ f.counted (es.foldl f.countAfter count) more := by
  induction es generalizing count with
  | nil => rfl
  | cons e es ih => rw [List.cons_append, counted, ih, counted, List.foldl_cons, List.cons_append]

theorem outlineLines_eq (count : Nat) (es : List WalkEvent) :
    f.outlineLines count es = (f.counted count es).filterMap f.lineAt? := by
  induction es generalizing count with
  | nil => rfl
  | cons e es ih =>
    cases e with
    | enter y =>
      rw [outlineLines, ih]
      rfl
    | exit y =>
      rw [outlineLines, ih]
      rfl

/-- The outline that is written on the way is that of the events met. -/
theorem Linked.linkOutline_eq (h : Linked f f.children) (hx : f.contains x) :
    LinkWalk.outline f x =
      pure (String.join ((f.outlineLines 0 (f.walk (fun _ => false) x)).map (· ++ "\n"))) := by
  let step (s : String × Nat) (e : WalkEvent) : String × Nat :=
    (s.1 ++ String.join ((f.lineAt? (e, s.2)).toList.map (· ++ "\n")), f.countAfter s.2 e)
  have done : ∀ s e, f.contains e.node →
      LinkWalk.outlineEvent f s e = pure (step s e, e.skips fun _ => false) := by
    intro s e he
    cases e with
    | exit y =>
      have same : step s (.exit y) = (s.1, s.2 - 1) := by simp [step, lineAt?, countAfter]
      rw [same]
      rfl
    | enter y =>
      have same : step s (.enter y) = (s.1 ++ outlineLine s.2 (f.contentAt y) ++ "\n",
          if (f.contentAt y).kind.isLeaf then s.2 else s.2 + 1) := by
        simp [step, lineAt?, countAfter, String.append_assoc]
      rw [LinkWalk.outlineEvent, content_eq (show f.contains y from he), Looping.done_ok,
        pure_bind, same]
      rfl
  have gathered : ∀ (es : List WalkEvent) (s : String × Nat), (es.foldl step s).1 =
      s.1 ++ String.join ((f.outlineLines s.2 es).map (· ++ "\n")) := by
    intro es
    induction es with
    | nil => simp [outlineLines]
    | cons e es ih =>
      intro s
      rw [List.foldl_cons, ih]
      cases e with
      | enter y => simp [step, lineAt?, countAfter, outlineLines, String.append_assoc]
      | exit y => simp [step, lineAt?, countAfter, outlineLines]
  rw [LinkWalk.outline, h.loop_eq hx done, pure_bind, gathered]
  simp

/-! ## Depths -/

/-- How many levels a node is below another one. -/
def depthBelow (f : Forest) (x y : NodeId) : Nat :=
  (f.ancestors y).length - (f.ancestors x).length

/-- The count before an event of the walk over a node. -/
def countAt (f : Forest) (x : NodeId) : WalkEvent → Nat
  | .enter y => f.depthBelow x y
  | .exit y => f.depthBelow x y + 1

section Depths

variable {z : NodeId}

theorem Below.length_ancestors_le (h : Linked f f.children) (below : Below f x y)
    (hx : f.contains x) (hy : f.contains y) :
    0 < (f.ancestors x).length ∧ (f.ancestors x).length ≤ (f.ancestors y).length := by
  obtain ⟨path, hp, mem⟩ := below
  obtain ⟨above, ha, suffix⟩ := hp.suffix_of_mem mem
  rw [h.ancestors_eq hx ha, h.ancestors_eq hy hp]
  exact ⟨List.length_pos_of_mem ha.mem_self, suffix.length_le⟩

/-- The depths of a node and of one below it. -/
theorem Linked.depth_below (h : Linked f f.children) (below : Below f x y) (hx : f.contains x)
    (hy : f.contains y) :
    ∃ n, f.depth x = .ok n ∧ f.depth y = .ok (n + f.depthBelow x y) := by
  obtain ⟨some, more⟩ := below.length_ancestors_le h hx hy
  have depth : ∀ z, f.contains z → f.depth z = .ok ((f.ancestors z).length - 1) := by
    intro z hz
    obtain ⟨n, hn⟩ := contains_iff.mp hz
    rw [Forest.depth, node_ok.mpr hn]
    rfl
  refine ⟨_, depth x hx, (depth y hy).trans (congrArg Except.ok ?_)⟩
  rw [depthBelow]
  omega

theorem depthBelow_self (f : Forest) (x : NodeId) : f.depthBelow x x = 0 :=
  Nat.sub_self _

theorem Linked.depthBelow_child (h : Linked f f.children) (hx : f.contains x)
    (hz : z ∈ f.children x) (below : Below f z y) (hy : f.contains y) :
    f.depthBelow x y = f.depthBelow z y + 1 := by
  have one := h.length_ancestors_child hx hz
  have more := (below.length_ancestors_le h (h.live hz).1 hy).2
  rw [depthBelow, depthBelow]
  omega

end Depths

/-! ## The count tells the depth -/

section Counts

variable {skip : NodeId → Bool}

/-- From any count on, the walk over a node has the depth below the node added to the count at every
event, and brings it back to where it was. -/
def Counts (f : Forest) (skip : NodeId → Bool) (x : NodeId) : Prop :=
  ∀ count, f.counted count (traversal f skip (f.branch x)) =
      (traversal f skip (f.branch x)).map (fun e => (e, count + f.countAt x e)) ∧
    (traversal f skip (f.branch x)).foldl f.countAfter count = count

/-- Walks over children of a node, as they are counted inside it. -/
theorem Linked.counted_children (h : Linked f f.children) (hx : f.contains x) (count : Nat) :
    ∀ zs : List NodeId, (∀ z ∈ zs, z ∈ f.children x ∧ f.Counts skip z) →
      let events := zs.flatMap fun z => traversal f skip (f.branch z)
      f.counted (count + 1) events = events.map (fun e => (e, count + f.countAt x e)) ∧
        events.foldl f.countAfter (count + 1) = count + 1
  | [], _ => ⟨rfl, rfl⟩
  | z :: zs, each => by
    obtain ⟨hz, counts⟩ := each z List.mem_cons_self
    obtain ⟨first, back⟩ := counts (count + 1)
    obtain ⟨later, ends⟩ := h.counted_children hx count zs fun w hw =>
      each w (List.mem_cons_of_mem z hw)
    have live := (h.live hz).1
    have deeper : ∀ e ∈ traversal f skip (f.branch z),
        (e, count + 1 + f.countAt z e) = (e, count + f.countAt x e) := by
      intro e he
      have below := mem_traversal h live e he
      have level := h.depthBelow_child hx hz below (below.live live)
      cases e with
      | enter y =>
        rw [WalkEvent.node] at level
        rw [countAt, countAt, level, Nat.add_assoc, Nat.add_comm 1]
      | exit y =>
        rw [WalkEvent.node] at level
        rw [countAt, countAt, level, Nat.add_assoc, Nat.add_comm 1]
    dsimp only at later ends ⊢
    rw [List.flatMap_cons, counted_append, back, List.foldl_append, back, first, later,
      List.map_append, List.map_congr_left deeper]
    exact ⟨rfl, ends⟩

/-- **The count tells the depth, wherever a walk is.** -/
theorem Linked.counted_traversal (h : Linked f f.children) (all : ∀ y, skip y = false) :
    ∀ x, f.contains x → f.Counts skip x := by
  refine h.induction_below fun x hx ih count => ?_
  obtain ⟨inside, back⟩ := h.counted_children hx count (f.children x) fun z hz => ⟨hz, ih z hz⟩
  have here : f.depthBelow x x = 0 := depthBelow_self f x
  rw [h.traversal_branch skip hx, if_neg (by simp [all])]
  by_cases leaf : (f.contentAt x).kind.isLeaf
  · rw [if_pos leaf]
    simp [counted, countAfter, countAt, leaf, here]
  · rw [if_neg leaf]
    have entered : f.countAfter count (.enter x) = count + 1 := if_neg leaf
    rw [List.cons_append, counted, entered, counted_append, inside, back, List.foldl_cons, entered,
      List.foldl_append, back]
    simp [countAfter, counted, countAt, here]

theorem length_counted (f : Forest) (count : Nat) (es : List WalkEvent) :
    (f.counted count es).length = es.length := by
  induction es generalizing count with
  | nil => rfl
  | cons e es ih => rw [counted, List.length_cons, ih, List.length_cons]

/-- Where a walk is, the count tells the depth. -/
theorem Linked.count_eq (h : Linked f f.children) (all : ∀ y, skip y = false) (hx : f.contains x)
    {before after : List WalkEvent} {e : WalkEvent}
    (at_ : traversal f skip (f.branch x) = before ++ e :: after) :
    before.foldl f.countAfter 0 = f.countAt x e := by
  have counts := (h.counted_traversal all x hx 0).1
  rw [at_, counted_append, List.map_append] at counts
  have rest := List.append_inj_right counts (by rw [length_counted, List.length_map])
  rw [counted, List.map_cons, Nat.zero_add] at rest
  exact (Prod.mk.inj (List.cons.inj rest).1).2

/-- The lines of an outline are those of the nodes entered, each at its depth. -/
theorem Linked.outlineLines_traversal (h : Linked f f.children) (all : ∀ y, skip y = false)
    (hx : f.contains x) :
    f.outlineLines 0 (traversal f skip (f.branch x)) =
      (entered (traversal f skip (f.branch x))).map
        fun y => outlineLine (f.depthBelow x y) (f.contentAt y) := by
  rw [outlineLines_eq, (h.counted_traversal all x hx 0).1, List.filterMap_map, entered,
    List.map_filterMap]
  refine List.filterMap_congr fun e _ => ?_
  cases e with
  | enter y => simp [lineAt?, countAt, WalkEvent.entered?]
  | exit y => rfl

end Counts

/-- After any requests, the outline of a live node comes to an end along the links, and has as many
lines as there are nodes at and below it, each ended by a line feed.  The lines are those of the
nodes in the order in which each comes before its children and these from the first to the last
(`P`): a line begins with two spaces for each level that its node is below the first one, and goes
on with the symbol of its kind, whatever strings the nodes hold.  Wherever the walk is, the count
tells the depth, and one more where a node is left; so it is never taken down from zero. -/
theorem run_outline (rs : List Request) (x : NodeId) (live : (run rs).contains x) :
    let f := run rs
    ∃ (P : NodeId → List NodeId) (n : Nat) (s : String) (lines : List (List Char))
        (W : List WalkEvent),
      (∀ y, f.contains y → P y = y :: (f.children y).flatMap P) ∧
      (f.depth x = .ok n ∧ ∀ y ∈ P x, f.depth y = .ok (n + f.depthBelow x y)) ∧
      (LinkWalk.outline f x = pure s ∧ f.outline x = .ok s) ∧
      (s.toList.splitOn '\n' = lines ++ [[]] ∧ f.subtreeSize x = .ok lines.length) ∧
      List.Forall₂ (fun y line =>
        line.takeWhile (· == ' ') = List.replicate (2 * f.depthBelow x y) ' ' ∧
        line.dropWhile (· == ' ') =
          (f.contentAt y).kind.symbol.toList ++ (details (f.contentAt y)).toList) (P x) lines ∧
      LinkWalk.events f (fun _ => false) x = pure W ∧
      ∀ before e after, W = before ++ e :: after →
        before.foldl f.countAfter 0 = f.countAt x e := by
  intro f
  have sound : Sound f := sound_run rs
  have h := sound.linked
  have all : ∀ y, (fun _ : NodeId => false) y = false := fun _ => rfl
  let line (y : NodeId) : List Char := (outlineLine (f.depthBelow x y) (f.contentAt y)).toList
  let text := String.join ((f.outlineLines 0 (f.walk (fun _ => false) x)).map (· ++ "\n"))
  have walk := h.walk_eq live fun _ => false
  have written : text.toList = endedLines ((f.branch x).ids.map line) := by
    rw [String.toList_join, walk, h.outlineLines_traversal all live,
      sound.entered_traversal all live]
    simp [endedLines, line, List.flatMap_map]
  have unbroken : ∀ l ∈ (f.branch x).ids.map line, '\n' ∉ l := by
    intro l hl
    obtain ⟨y, -, rfl⟩ := List.mem_map.mp hl
    exact feed_not_mem_outlineLine _ _
  have size : f.subtreeSize x = .ok (f.branch x).ids.length := by
    obtain ⟨m, hm⟩ := contains_iff.mp live
    rw [subtreeSize, node_ok.mpr hm, branch?_eq live, Branch.length_ids]
    rfl
  have outline : f.outline x = .ok text := by
    rw [Forest.outline, content_eq live]
    rfl
  obtain ⟨n, depth, -⟩ := h.depth_below (h.below_self x) live live
  refine ⟨fun y => (f.branch y).ids, n, text, (f.branch x).ids.map line,
    traversal f (fun _ => false) (f.branch x), ?_, ⟨depth, ?_⟩, ⟨h.linkOutline_eq live, outline⟩,
    ⟨?_, ?_⟩, ?_, h.linkEvents_eq _ live, fun before e after at_ => h.count_eq all live at_⟩
  · intro y hy
    dsimp only
    rw [h.branch_eq hy, Branch.ids, Branch.idsList_eq_flatMap, List.flatMap_map]
  · intro y hy
    have below := (h.mem_branch live).mp hy
    obtain ⟨m, depth', deeper⟩ := h.depth_below below live (below.live live)
    obtain rfl := Except.ok.inj (depth.symm.trans depth')
    exact deeper
  · rw [written, splitOn_endedLines unbroken]
  · rw [List.length_map, size]
  · rw [List.forall₂_map_right_iff, List.forall₂_same]
    exact fun y _ => indent_outlineLine ..

/-- A list below a document, with an empty item and strings that try to break lines. -/
def lineBreakers : List Request :=
  [.newNode .document, .newNode .list, .newNode .item, .newNode .item, .newNode .paragraph,
    .newNode .link, .newNode .text, .appendChild ⟨0, 0⟩ ⟨1, 0⟩, .appendChild ⟨1, 0⟩ ⟨2, 0⟩,
    .appendChild ⟨1, 0⟩ ⟨3, 0⟩, .appendChild ⟨3, 0⟩ ⟨4, 0⟩, .appendChild ⟨4, 0⟩ ⟨5, 0⟩,
    .appendChild ⟨5, 0⟩ ⟨6, 0⟩, .set (.literal "a\n  \x22b\r") ⟨6, 0⟩, .set (.url "\n") ⟨5, 0⟩,
    .set (.title "\u2028") ⟨5, 0⟩]

theorem lineBreakers_outline :
    let text := "list bullet_list tight=false\n  list_item\n  list_item\n    paragraph\n" ++
      "      link url=\"\\n\" title=\"\\u\x7b2028\x7d\"\n" ++
      "        text \"a\\n  \\\"b\\r\"\n"
    (run lineBreakers).contains ⟨1, 0⟩ ∧
      LinkWalk.outline (run lineBreakers) ⟨1, 0⟩ = pure text := by
  intro text
  have live : (run lineBreakers).contains ⟨1, 0⟩ := by decide +kernel
  obtain ⟨_, _, s, _, _, -, -, ⟨along, outline⟩, -⟩ := run_outline lineBreakers ⟨1, 0⟩ live
  have shown : (run lineBreakers).outline ⟨1, 0⟩ = .ok text := by decide +kernel
  obtain rfl := Except.ok.inj (outline.symm.trans shown)
  exact ⟨live, along⟩

end Forest

end MarkdownForest
