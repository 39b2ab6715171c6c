/-
# MarkdownForest.Proofs.ReadingAlong -- a reader that edits the forest as it goes

`Forest.read` makes the trees of a source first and plants them then.  A reader
that works on the forest itself makes every block where it stands as soon as it
meets it, reads on below it, and settles whether a list is tight once it has seen
the items (`Reading.blocks`).  Where it stops, containers are left half filled,
and it frees the document that it has begun (`Forest.readAlong`).

* `Opened`: a container that is appended empty and filled then;
* `Follows`: a run that ends in the forest where trees are planted, but for the
  contents of nodes it made if it stops;
* `blocks_follow`, `items_follow`: every run is like that, by the recursion of the
  reader;
* `Sound.readAlong_eq`: both readers have the same result and lead to the same
  forest, and no edit on the way is refused.
-/
import MarkdownForest.Proofs.Recasting

namespace MarkdownForest

set_option autoImplicit false

/-! ## The reader -/

/-- Why a reader stops. -/
inductive Stop where
  | parse (e : ParseError)
  | refused (e : ForestError)
  deriving DecidableEq, Repr

/-- A step of a reader.  The forest stays as it is where the reader stops. -/
abbrev Reading := EStateM Stop Forest

namespace Reading

/-- Makes a node, as a root. -/
def make (c : Content) : Reading NodeId :=
  modifyGet fun f => f.newNode c

/-- Changes the forest, unless that is refused. -/
def edit (change : Forest → Except ForestError Forest) : Reading Unit := do
  match change (← get) with
  | .ok g => set g
  | .error e => throw (.refused e)

/-- Makes a container and appends it empty. -/
def openBlock (p : NodeId) (c : Content) : Reading NodeId := do
  let x ← make c
  edit (·.appendChild p x)
  return x

/-- Stops at a container that would be nested too deep. -/
def enter (o : ParseOptions) (depth position : Nat) : Reading Unit :=
  if o.maxNesting ≤ depth then throw (.parse (.nestingTooDeep position o.maxNesting)) else pure ()

mutual
/-- Reads lines as children of a node, and tells whether blank lines stand between them. -/
def blocks (o : ParseOptions) (depth : Nat) (p : NodeId) (any blank : Bool) (lines : List Line) :
    Reading Bool :=
  match lines with
  | [] => return false
  | l :: ls =>
    if l.isBlank then blocks o depth p any true ls
    else
      have : Line.weight (Layout.take l ls).rest < Line.weight (l :: ls) :=
        Layout.weight_rest_lt l ls
      do
        block o depth p l ls
        let loose ← blocks o depth p true (Layout.take l ls).trailingBlank (Layout.take l ls).rest
        return (any && blank) || loose
termination_by 3 * Line.weight lines + 2
decreasing_by
  all_goals simp only [Line.weight_cons] at *
  all_goals omega

/-- Reads the block that lines begin with. -/
def block (o : ParseOptions) (depth : Nat) (p : NodeId) (l : Line) (ls : List Line) :
    Reading Unit :=
  match h : (Layout.take l ls).layout with
  | .quote offset inner =>
    have := Layout.weight_quote_lt h
    do
      enter o depth offset
      let x ← openBlock p .blockQuote
      let _ ← blocks o (depth + 1) x false false inner
  | .list offset marker rows spaced =>
    have := Layout.weight_list_le h
    do
      enter o depth offset
      let x ← openBlock p (.list marker.type marker.start true)
      let loose ← items o (depth + 1) x rows
      edit (·.set (Content.setListTight (!spaced && !loose)) x)
  | leaf => edit (·.grow p (leaf.leafTree o.smart))
termination_by 3 * Line.weight (l :: ls) + 1
decreasing_by
  all_goals omega

/-- Reads items as children of a list, and tells whether blank lines stand between blocks of
one. -/
def items (o : ParseOptions) (depth : Nat) (p : NodeId) (rows : List (List Line)) : Reading Bool :=
  match rows with
  | [] => return false
  | row :: rows => do
    let x ← openBlock p .item
    let loose ← blocks o depth x false false row
    let more ← items o depth p rows
    return loose || more
termination_by 3 * itemsWeight rows
decreasing_by
  all_goals simp only [itemsWeight]
  all_goals omega
end

end Reading

/-- Reads a source into the forest, which is edited block by block. -/
def Forest.readAlong (f : Forest) (o : ParseOptions) (source : String) :
    Except Stop NodeId × Forest :=
  let (x, f) := f.newNode .document
  match Reading.blocks o 0 x false false (Line.ofSource source.toList) f with
  | .ok _ g => (.ok x, g)
  | .error e g =>
    match g.freeSubtree x with
    | .ok freed => (.error e, freed.2)
    | .error refused => (.error (.refused refused), g)

/-! ## Steps -/

namespace Reading

variable {α β : Type} {f g : Forest} {m : Reading α} {k : α → Reading β} {a : α} {e : Stop}

theorem bind_of_ok (h : m f = .ok a g) : (m >>= k) f = k a g := by
  change EStateM.bind m k f = k a g
  rw [EStateM.bind, h]

theorem bind_of_error (h : m f = .error e g) : (m >>= k) f = .error e g := by
  change EStateM.bind m k f = .error e g
  rw [EStateM.bind, h]

theorem edit_of_ok {change : Forest → Except ForestError Forest} (h : change f = .ok g) :
    edit change f = .ok () g := by
  have get : (get : Reading Forest) f = .ok f f := rfl
  rw [edit, bind_of_ok get, h]
  rfl

theorem openBlock_of_ok {p : NodeId} {c : Content}
    (h : (f.newNode c).2.appendChild p (f.newNode c).1 = .ok g) :
    openBlock p c f = .ok (f.newNode c).1 g := by
  have made : make c f = .ok (f.newNode c).1 (f.newNode c).2 := rfl
  have edited : edit (·.appendChild p (f.newNode c).1) (f.newNode c).2 = .ok () g := edit_of_ok h
  rw [openBlock, bind_of_ok made, bind_of_ok edited]
  rfl

theorem enter_of_le {o : ParseOptions} {depth position : Nat} (h : o.maxNesting ≤ depth) :
    enter o depth position f = .error (.parse (.nestingTooDeep position o.maxNesting)) f := by
  rw [enter, if_pos h]
  rfl

theorem enter_of_lt {o : ParseOptions} {depth position : Nat} (h : ¬ o.maxNesting ≤ depth) :
    enter o depth position f = .ok () f := by
  rw [enter, if_neg h]
  rfl

section Equations

variable {o : ParseOptions} {depth : Nat} {p : NodeId} {any blank : Bool} {l : Line}
  {ls : List Line}

theorem blocks_blank (hl : l.isBlank) :
    blocks o depth p any blank (l :: ls) = blocks o depth p any true ls := by
  rw [blocks, if_pos hl]

theorem blocks_cons (hl : ¬ l.isBlank) :
    blocks o depth p any blank (l :: ls) = (do
      block o depth p l ls
      let loose ← blocks o depth p true (Layout.take l ls).trailingBlank (Layout.take l ls).rest
      return (any && blank) || loose) := by
  rw [blocks, if_neg hl]

theorem block_quote {offset : Nat} {inner : List Line}
    (h : (Layout.take l ls).layout = .quote offset inner) :
    block o depth p l ls = (do
      enter o depth offset
      let x ← openBlock p .blockQuote
      let _ ← blocks o (depth + 1) x false false inner) := by
  rw [block]
  split
  · rename_i h'
    cases h.symm.trans h'
    rfl
  · rename_i h'
    cases h.symm.trans h'
  · rename_i notQuote _
    exact absurd h (notQuote offset inner)

theorem block_list {offset : Nat} {marker : Marker} {rows : List (List Line)} {spaced : Bool}
    (h : (Layout.take l ls).layout = .list offset marker rows spaced) :
    block o depth p l ls = (do
      enter o depth offset
      let x ← openBlock p (.list marker.type marker.start true)
      let loose ← items o (depth + 1) x rows
      edit (·.set (Content.setListTight (!spaced && !loose)) x)) := by
  rw [block]
  split
  · rename_i h'
    cases h.symm.trans h'
  · rename_i h'
    cases h.symm.trans h'
    rfl
  · rename_i notList
    exact absurd h (notList offset marker rows spaced)

theorem block_leaf
    (notQuote : ∀ offset inner, (Layout.take l ls).layout ≠ .quote offset inner)
    (notList : ∀ offset m rows spaced, (Layout.take l ls).layout ≠ .list offset m rows spaced) :
    block o depth p l ls = edit (·.grow p ((Layout.take l ls).layout.leafTree o.smart)) := by
  rw [block]
  split
  · rename_i h
    exact absurd h (notQuote _ _)
  · rename_i h
    exact absurd h (notList _ _ _ _)
  · rfl

end Equations

end Reading

/-- The items of a list fit into it. -/
theorem Items.wellFormed {type : ListType} {start : Nat} {ts : List Tree} (items : Items ts)
    (inRange : start < UInt32.size) (tight : Bool) :
    (Tree.node (.list type start tight) ts).WellFormed := by
  refine ⟨inRange, fun t ht => ?_, items.1⟩
  rw [items.2 t ht]
  rfl

namespace Forest

/-! ## Trees that are planted -/

section Planted

variable {f g : Forest} {p : NodeId} {c d : Content} {t : Tree} {ts : List Tree}

/-- Below a node that may contain it a tree is planted, and the node holds what it held. -/
theorem Sound.planted (s : Sound f) (holds : f.content? p = some d) (w : t.WellFormed)
    (fits : d.kind.canContain t.kind) :
    Sound (f.plantBelow p [t]) ∧ (f.plantBelow p [t]).content? p = some d ∧
      (f.plantBelow p [t]).content? (f.plant t).1 = some t.content := by
  obtain ⟨-, sound, grown⟩ := plant_spec s t w
  obtain ⟨placed, kept⟩ := plant_place s holds w fits
  obtain ⟨_, e, moved, -⟩ := sound.linked.appendChild
    (grown.mayHold s.linked sound.linked holds fits)
  obtain rfl := Except.ok.inj (placed.symm.trans e)
  exact ⟨sound.appendChild placed, kept, (moved.content? _).trans grown.content⟩

/-- A container that was appended empty, `x` in `g`. -/
structure Opened (f g : Forest) (p x : NodeId) (c : Content) : Prop where
  made : Reading.openBlock p c f = .ok x g
  sound : Sound g
  content : g.content? x = some c
  kept : ∀ {y}, f.contains y → g.contains y
  filled : ∀ ts, (Tree.node c ts).WellFormed → g.plantBelow x ts = f.plantBelow p [.node c ts]

theorem Sound.open (s : Sound f) (holds : f.content? p = some d) (inRange : c.InRange)
    (fits : d.kind.canContain c.kind) : ∃ g, Opened f g p (f.newNode c).1 c := by
  have sound := s.newNode inRange
  have grown := grown_newNode s.linked c
  obtain ⟨g, hg, moved, -⟩ := sound.linked.appendChild
    (grown.mayHold s.linked sound.linked holds fits)
  have apart : (f.newNode c).1 ≠ p := (grown.ne (contains_of_content? holds)).symm
  refine ⟨g, Reading.openBlock_of_ok hg, sound.appendChild hg,
    (moved.content? _).trans grown.content,
    fun hy => (moved.contains_eq _).trans (contains_newNode hy), fun ts w => ?_⟩
  simp only [Tree.WellFormed] at w
  have later := plantBelow_appendChild sound hg grown.top apart grown.content ts w.2.2 w.2.1
  change _ = ((f.newNode c).2.plantBelow (f.newNode c).1 ts).place p (f.newNode c).1
  rw [place, later]

/-- A tree planted with another content at its root. -/
theorem plantBelow_recast_root {φ : Content → Content} (keeps : ∀ c, (φ c).kind = c.kind)
    (f : Forest) (p : NodeId) (c : Content) (ts : List Tree) :
    f.plantBelow p [.node (φ c) ts] =
      (f.plantBelow p [.node c ts]).recast (f.newNode c).1 φ := by
  have live : (f.newNode c).2.contains (f.newNode c).1 :=
    contains_iff.mpr ⟨_, get?_newNode_iff.mpr (.inl ⟨rfl, rfl⟩)⟩
  change ((f.newNode (φ c)).2.plantBelow (f.newNode (φ c)).1 ts).place p (f.newNode (φ c)).1 =
    (((f.newNode c).2.plantBelow (f.newNode c).1 ts).place p (f.newNode c).1).recast _ φ
  rw [newNode_recast]
  dsimp only
  rw [plantBelow_recast keeps live, place_recast keeps]

end Planted

/-! ## Lists that are settled -/

/-- A list made tight or loose; other contents stay. -/
def retighten (tight : Bool) : Content → Content
  | .list type start _ => .list type start tight
  | c => c

theorem kind_retighten (tight : Bool) (c : Content) : (retighten tight c).kind = c.kind := by
  cases c <;> rfl

theorem set_eq_recast {f : Forest} {x : NodeId} {type : ListType} {start : Nat} {old : Bool}
    (h : f.content? x = some (.list type start old)) (tight : Bool) :
    f.set (Content.setListTight tight) x = .ok (f.recast x (retighten tight)) := by
  obtain ⟨n, hn, content⟩ := Option.map_eq_some_iff.mp h
  rw [set, Forest.content, node, hn]
  simp only [ok_bind, pure_eq_ok, content, Content.setListTight, Except.mapError, update, hn,
    recast, retighten]

/-! ## Contents changed since -/

/-- `h` is `g` with contents changed of nodes that are not in `f`. -/
inductive Retouched (f g : Forest) : Forest → Prop
  | refl : Retouched f g g
  | step {h : Forest} {x : NodeId} (before : Retouched f g h) (fresh : f.contains x = false)
      (φ : Content → Content) : Retouched f g (h.recast x φ)

namespace Retouched

variable {e f g h : Forest}

theorem mono (sub : ∀ {x}, e.contains x → f.contains x) (r : Retouched f g h) :
    Retouched e g h := by
  induction r with
  | refl => exact .refl
  | @step h x _ fresh φ ih =>
    refine .step ih ?_ φ
    rw [← Bool.not_eq_true] at fresh ⊢
    exact fun hx => fresh (sub hx)

/-- Once all nodes made since are freed, nothing is left of the changes. -/
theorem freeSubtree (r : Retouched f g h) {y : NodeId} {freed : Nat × Forest}
    (hy : h.freeSubtree y = .ok freed) (none : ∀ {x}, freed.2.contains x → f.contains x) :
    g.freeSubtree y = .ok freed := by
  induction r generalizing freed with
  | refl => exact hy
  | @step h x _ fresh φ ih =>
    rw [freeSubtree_recast] at hy
    obtain ⟨before, hb, rfl⟩ : ∃ before, h.freeSubtree y = .ok before ∧
        (before.1, before.2.recast x φ) = freed := by
      cases e : h.freeSubtree y with
      | error => simp [e, Except.map] at hy
      | ok before =>
        rw [e] at hy
        exact ⟨before, rfl, Except.ok.inj hy⟩
    have none : ∀ {z}, before.2.contains z → f.contains z := fun {z} hz =>
      none ((contains_recast before.2 x φ z).trans hz)
    have gone : before.2.nodes.get? x = .none := by
      cases hx : before.2.nodes.get? x with
      | none => rfl
      | some n => simp [none (contains_iff.mpr ⟨n, hx⟩)] at fresh
    rw [recast_dead gone]
    exact ih hb none

end Retouched

/-! ## Runs -/

/-- A run on `f` ends where trees are planted below `p`, with the value `a`.  If it stops, the nodes
it has made may hold other contents. -/
def Follows {α : Type} (f : Forest) (p : NodeId) (ts : List Tree) (failure : Option NestingTooDeep)
    (a : α) (r : EStateM.Result Stop Forest α) : Prop :=
  match failure with
  | none => r = .ok a (f.plantBelow p ts)
  | some e => ∃ g, r = .error (.parse (.nestingTooDeep e.position e.limit)) g ∧
      Retouched f g (f.plantBelow p ts)

/-- A run on `f` makes below `p` what was read from lines. -/
def Makes (f : Forest) (p : NodeId) (q : Parsed) (r : EStateM.Result Stop Forest Bool) : Prop :=
  f.Follows p q.trees q.failure q.loose r

section Follows

open Reading

variable {α : Type} {f g : Forest} {p x : NodeId} {c d : Content} {ts : List Tree}
  {failure : Option NestingTooDeep} {a : α} {inside more : Parsed}

/-- Filling a container that was opened makes its tree. -/
theorem Opened.follows {r : EStateM.Result Stop Forest α} (opened : Opened f g p x c)
    (w : (Tree.node c ts).WellFormed) (inside : Follows g x ts failure a r) :
    Follows f p [.node c ts] failure a r := by
  cases failure with
  | none => exact inside.trans (congrArg (EStateM.Result.ok a) (opened.filled ts w))
  | some e =>
    obtain ⟨h, rfl, retouched⟩ := inside
    exact ⟨h, rfl, opened.filled ts w ▸ retouched.mono opened.kept⟩

/-- Whether blank lines were met makes no difference to a quote. -/
theorem Follows.forget {m : Reading α} (h : Follows f p ts failure a (m g)) :
    Follows f p ts failure () ((m >>= fun _ => pure ()) g) := by
  cases failure with
  | none => exact bind_of_ok h
  | some e =>
    obtain ⟨h, stopped, retouched⟩ := h
    exact ⟨h, bind_of_error stopped, retouched⟩

/-- A list is settled when its items are there. -/
theorem Follows.settle {type : ListType} {start : Nat} {loose : Bool} {m : Reading Bool}
    {tight : Bool → Bool} (holds : (f.plantBelow p [.node (.list type start true) ts]).content?
      (f.newNode (.list type start true)).1 = some (.list type start true))
    (items : Follows f p [.node (.list type start true) ts] failure loose (m g)) :
    Follows f p [.node (.list type start (tight loose)) ts] failure ()
      ((m >>= fun loose => edit (·.set (Content.setListTight (tight loose))
        (f.newNode (.list type start true)).1)) g) := by
  have recast :=
    plantBelow_recast_root (kind_retighten (tight loose)) f p (.list type start true) ts
  cases failure with
  | none =>
    have settled := set_eq_recast holds (tight loose)
    rw [← recast] at settled
    rw [bind_of_ok items]
    exact edit_of_ok settled
  | some e =>
    obtain ⟨h, stopped, retouched⟩ := items
    refine ⟨h, bind_of_error stopped, ?_⟩
    have fresh : f.contains (f.newNode (.list type start true)).1 = false := by
      simp [Forest.contains, Arena.contains, newNode_fresh]
    exact recast ▸ retouched.step fresh _

/-- A container comes first, and what follows it is read if nothing stops inside. -/
theorem Makes.within {m : Reading α} {k : Reading Bool} (separated : α → Bool)
    (first : Follows f p [.node c inside.trees] inside.failure a (m f))
    (later : Makes (f.plantBelow p [.node c inside.trees]) p more
      (k (f.plantBelow p [.node c inside.trees]))) :
    Makes f p (.within c (separated a) inside more)
      ((m >>= fun a => k >>= fun loose => pure (separated a || loose)) f) := by
  unfold Parsed.within
  dsimp only
  split
  · rename_i e he
    rw [he] at first
    obtain ⟨g, stopped, retouched⟩ := first
    exact ⟨g, bind_of_error stopped, retouched⟩
  · rename_i he
    rw [he] at first
    change Follows f p (.node c inside.trees :: more.trees) more.failure
      (separated a || more.loose) _
    rw [bind_of_ok first]
    unfold Makes at later
    cases hm : more.failure with
    | none =>
      rw [hm] at later
      exact bind_of_ok later
    | some e =>
      rw [hm] at later
      obtain ⟨g, stopped, retouched⟩ := later
      have sub : ∀ {y}, f.contains y → (f.plantBelow p [.node c inside.trees]).contains y :=
        fun hy => (filled_plantBelow f p _).contains hy
      exact ⟨g, bind_of_error stopped, retouched.mono sub⟩

/-- A block without blocks inside comes first. -/
theorem Makes.cons {t : Tree} {m : Reading α} {k : Reading Bool} (separated : α → Bool)
    (first : m f = .ok a (f.plantBelow p [t]))
    (later : Makes (f.plantBelow p [t]) p more (k (f.plantBelow p [t]))) :
    Makes f p (.cons t (separated a) more)
      ((m >>= fun a => k >>= fun loose => pure (separated a || loose)) f) := by
  cases t with
  | node c ts =>
    have alone : Follows f p [.node c ts] ({ trees := ts } : Parsed).failure a (m f) := first
    change Makes f p (.within c (separated a) { trees := ts } more) _
    exact Makes.within separated alone later

end Follows

/-! ## Containers -/

section Containers

open Reading

variable {f : Forest} {p : NodeId} {d : Content} {inside : Parsed} {k : NodeId → Reading Bool}

theorem Sound.quote_follows (s : Sound f) (holds : f.content? p = some d)
    (fits : d.kind.canContain .blockQuote) (blocks : Blocks inside.trees)
    (fill : ∀ {g x}, Sound g → g.content? x = some .blockQuote → Makes g x inside (k x g)) :
    Follows f p [.node .blockQuote inside.trees] inside.failure ()
      ((openBlock p .blockQuote >>= fun x => k x >>= fun _ => pure ()) f) := by
  have w : (Tree.node .blockQuote inside.trees).WellFormed := ⟨trivial, blocks.2, blocks.1⟩
  obtain ⟨g, opened⟩ := s.open holds (c := .blockQuote) w.1 fits
  rw [bind_of_ok opened.made]
  exact (opened.follows w (fill opened.sound opened.content)).forget

theorem Sound.item_follows (s : Sound f) (holds : f.content? p = some d)
    (fits : d.kind.canContain .item) (blocks : Blocks inside.trees)
    (fill : ∀ {g x}, Sound g → g.content? x = some .item → Makes g x inside (k x g)) :
    Follows f p [.node .item inside.trees] inside.failure inside.loose
      ((openBlock p .item >>= k) f) := by
  have w : (Tree.node .item inside.trees).WellFormed := ⟨trivial, blocks.2, blocks.1⟩
  obtain ⟨g, opened⟩ := s.open holds (c := .item) w.1 fits
  rw [bind_of_ok opened.made]
  exact opened.follows w (fill opened.sound opened.content)

theorem Sound.list_follows {type : ListType} {start : Nat} {tight : Bool → Bool} (s : Sound f)
    (holds : f.content? p = some d) (fits : d.kind.canContain .list) (inRange : start < UInt32.size)
    (items : Items inside.trees)
    (fill : ∀ {g x}, Sound g → g.content? x = some (.list type start true) →
      Makes g x inside (k x g)) :
    Follows f p [.node (.list type start (tight inside.loose)) inside.trees] inside.failure ()
      ((openBlock p (.list type start true) >>= fun x => k x >>= fun loose =>
        edit (·.set (Content.setListTight (tight loose)) x)) f) := by
  have w : (Tree.node (.list type start true) inside.trees).WellFormed :=
    items.wellFormed inRange true
  obtain ⟨g, opened⟩ := s.open holds (c := .list type start true) w.1 fits
  obtain ⟨-, -, held⟩ := s.planted holds w fits
  rw [bind_of_ok opened.made]
  exact Follows.settle held (opened.follows w (fill opened.sound opened.content))

end Containers

section Run

open Reading

variable {o : ParseOptions}

/-- What is read after the block that lines begin with, once a tree was planted for that. -/
def MakesRest (f : Forest) (p : NodeId) (o : ParseOptions) (depth : Nat) (l : Line)
    (ls : List Line) : Prop :=
  ∀ t : Tree, t.WellFormed → Kind.document.canContain t.kind →
    Makes (f.plantBelow p [t]) p
      (parseBlocks o depth true (Layout.take l ls).trailingBlank (Layout.take l ls).rest)
      (blocks o depth p true (Layout.take l ls).trailingBlank (Layout.take l ls).rest
        (f.plantBelow p [t]))

section Block

variable {f : Forest} {p : NodeId} {d : Content} {depth offset : Nat} {any blank : Bool} {l : Line}
  {ls : List Line}

theorem Sound.makes_quote {inner : List Line} (s : Sound f) (holds : f.content? p = some d)
    (room : d.kind.canContain = Kind.document.canContain) (hl : ¬ l.isBlank)
    (hq : (Layout.take l ls).layout = .quote offset inner) (rest : MakesRest f p o depth l ls)
    (fill : ∀ {g x}, Sound g → g.content? x = some .blockQuote →
      Makes g x (parseBlocks o (depth + 1) false false inner)
        (blocks o (depth + 1) x false false inner g)) :
    Makes f p (parseBlocks o depth any blank (l :: ls))
      (blocks o depth p any blank (l :: ls) f) := by
  rw [blocks_cons hl, parseBlocks_quote hl hq, block_quote hq]
  split
  · rename_i deep
    exact ⟨f, bind_of_error (bind_of_error (enter_of_le deep)), .refl⟩
  · rename_i shallow
    have quoted := blocks_parseBlocks o (depth + 1) false false inner
    have fits : d.kind.canContain .blockQuote := by
      rw [room]
      rfl
    refine Makes.within (a := ()) (fun _ => any && blank) ?_
      (rest _ ⟨trivial, quoted.2, quoted.1⟩ rfl)
    rw [bind_of_ok (enter_of_lt shallow)]
    exact s.quote_follows holds fits quoted fill

theorem Sound.makes_list {m : Marker} {rows : List (List Line)} {spaced : Bool} (s : Sound f)
    (holds : f.content? p = some d) (room : d.kind.canContain = Kind.document.canContain)
    (hl : ¬ l.isBlank) (hm : (Layout.take l ls).layout = .list offset m rows spaced)
    (rest : MakesRest f p o depth l ls)
    (fill : ∀ {g x}, Sound g → g.content? x = some (.list m.type m.start true) →
      Makes g x (parseItems o (depth + 1) rows) (items o (depth + 1) x rows g)) :
    Makes f p (parseBlocks o depth any blank (l :: ls))
      (blocks o depth p any blank (l :: ls) f) := by
  rw [blocks_cons hl, parseBlocks_list hl hm, block_list hm]
  split
  · rename_i deep
    exact ⟨f, bind_of_error (bind_of_error (enter_of_le deep)), .refl⟩
  · rename_i shallow
    obtain ⟨read, -⟩ := Layout.take_eq_list hm
    have inRange : m.start < UInt32.size :=
      Nat.lt_of_le_of_lt (Marker.start_read? read) (by decide)
    have items := (treeInduction_blocks o).read.items (depth + 1) rows
    have fits : d.kind.canContain .list := by
      rw [room]
      rfl
    refine Makes.within (a := ()) (fun _ => any && blank) ?_
      (rest _ (items.wellFormed inRange _) rfl)
    rw [bind_of_ok (enter_of_lt shallow)]
    exact s.list_follows holds fits inRange items fill

theorem Sound.makes_leaf (s : Sound f) (holds : f.content? p = some d)
    (room : d.kind.canContain = Kind.document.canContain) (hl : ¬ l.isBlank)
    (notQuote : ∀ offset inner, (Layout.take l ls).layout ≠ .quote offset inner)
    (notList : ∀ offset m rows spaced, (Layout.take l ls).layout ≠ .list offset m rows spaced)
    (rest : MakesRest f p o depth l ls) :
    Makes f p (parseBlocks o depth any blank (l :: ls))
      (blocks o depth p any blank (l :: ls) f) := by
  have w : ((Layout.take l ls).layout.leafTree o.smart).WellFormed :=
    (Layout.leafTree_block o.smart).1
  have fits : Kind.document.canContain ((Layout.take l ls).layout.leafTree o.smart).kind :=
    (Layout.leafTree_block o.smart).2
  rw [blocks_cons hl, parseBlocks_leaf hl notQuote notList, block_leaf notQuote notList]
  have grown := grow_eq s holds _ w (by rw [room]; exact fits)
  exact Makes.cons (fun _ => any && blank) (edit_of_ok grown)
    (rest _ w fits)

end Block

mutual
/-- Reading lines below a node makes there what the lines are. -/
theorem blocks_follow {f : Forest} (s : Sound f) {p : NodeId} {d : Content}
    (holds : f.content? p = some d) (room : d.kind.canContain = Kind.document.canContain)
    (depth : Nat) (any blank : Bool) (lines : List Line) :
    Makes f p (parseBlocks o depth any blank lines)
      (blocks o depth p any blank lines f) := by
  cases lines with
  | nil =>
    rw [parseBlocks, blocks]
    rfl
  | cons l ls =>
    by_cases hl : l.isBlank
    · rw [parseBlocks_blank hl, blocks_blank hl]
      exact blocks_follow s holds room depth any true ls
    have rest : MakesRest f p o depth l ls := by
      intro t w fits
      rw [← room] at fits
      obtain ⟨sound, kept, -⟩ := s.planted holds w fits
      exact blocks_follow sound kept room depth true _ _
    by_cases quote : ∃ offset inner, (Layout.take l ls).layout = .quote offset inner
    · obtain ⟨offset, inner, hq⟩ := quote
      exact s.makes_quote holds room hl hq rest fun sound held =>
        blocks_follow sound held rfl (depth + 1) false false inner
    by_cases list : ∃ offset m rows spaced, (Layout.take l ls).layout = .list offset m rows spaced
    · obtain ⟨offset, m, rows, spaced, hm⟩ := list
      exact s.makes_list holds room hl hm rest fun sound held =>
        items_follow sound held rfl (depth + 1) rows
    · exact s.makes_leaf holds room hl (fun offset inner h => quote ⟨offset, inner, h⟩)
        (fun offset m rows spaced h => list ⟨offset, m, rows, spaced, h⟩) rest
termination_by 2 * Line.weight lines + 1
decreasing_by
  · simp only [Line.weight_cons]
    omega
  · have := Layout.weight_rest_lt l ls
    omega
  · have := Layout.weight_quote_lt hq
    omega
  · have := Layout.weight_list_le hm
    omega

/-- Reading items below a list makes them there. -/
theorem items_follow {f : Forest} (s : Sound f) {p : NodeId} {d : Content}
    (holds : f.content? p = some d) (list : d.kind = .list) (depth : Nat)
    (rows : List (List Line)) :
    Makes f p (parseItems o depth rows) (items o depth p rows f) := by
  cases rows with
  | nil =>
    rw [parseItems, Reading.items]
    rfl
  | cons row rows =>
    have fits : d.kind.canContain .item := by
      rw [list]
      rfl
    have blocks := blocks_parseBlocks o depth false false row
    have w : (Tree.node .item (parseBlocks o depth false false row).trees).WellFormed :=
      ⟨trivial, blocks.2, blocks.1⟩
    obtain ⟨sound, kept, -⟩ := s.planted holds w fits
    rw [parseItems, Reading.items, ← bind_assoc]
    refine Makes.within id ?_ (items_follow sound kept list depth rows)
    exact s.item_follows holds fits blocks fun sound held =>
      blocks_follow sound held rfl depth false false row
termination_by 2 * itemsWeight rows
decreasing_by
  all_goals
    simp only [itemsWeight]
    omega
end

/-- The reader that edits as it goes has the result of the one that plants, and leads to the same
forest: it stops for no other reason, and nothing it has begun then stays. -/
theorem Sound.readAlong_eq {f : Forest} (s : Sound f) (o : ParseOptions) (source : String) :
    f.readAlong o source = ((f.read o source).1.mapError .parse, (f.read o source).2) := by
  have begun := grown_newNode s.linked .document
  have made := blocks_follow (o := o) (s.newNode (c := .document) trivial) begun.content rfl 0
    false false (Line.ofSource source.toList)
  obtain ⟨-, sound, grown⟩ := plant_spec s _ (documentMade_wellFormed o source.toList)
  cases failure : (readSource o source.toList).failure with
  | none =>
    have read : f.read o source = (.ok (f.plant (readSource o source.toList).documentMade).1,
        (f.plant (readSource o source.toList).documentMade).2) := by
      simp only [Forest.read, Parsed.error?, failure, Option.map_none]
    unfold Makes Follows at made
    rw [readSource] at failure
    rw [failure] at made
    rw [read, readAlong]
    dsimp only
    rw [made]
    rfl
  | some e =>
    obtain ⟨_, count, h, freed, -⟩ := sound.linked.freeSubtree grown.contains_self
    have erased : (f.plant (readSource o source.toList).documentMade).2.erase
        (f.plant (readSource o source.toList).documentMade).1 = (count, h) := by
      rw [Forest.erase, freed]
    have read : f.read o source = (.error (.nestingTooDeep e.position e.limit), h) := by
      simp only [Forest.read, Parsed.error?, failure, Option.map_some, erased]
    obtain ⟨-, same, -⟩ := s.read_error read
    unfold Makes Follows at made
    rw [readSource] at failure
    rw [failure] at made
    obtain ⟨g, stopped, retouched⟩ := made
    have freed : g.freeSubtree (f.newNode .document).1 = .ok (count, h) :=
      retouched.freeSubtree freed fun hx => contains_newNode ((same _).symm.trans hx)
    rw [read, readAlong]
    dsimp only
    rw [stopped]
    dsimp only
    rw [freed]
    rfl

end Run

end Forest

end MarkdownForest
