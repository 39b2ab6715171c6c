/-
# MarkdownForest.Proofs.BlockRecursion -- a block reader that nothing bounds

Blocks read by loops over the index of a line, which go on for as long as a round
says so, and by a recursion that reads the lines of quotes and items with itself,
for as deep as they go.  Nothing makes it come to an end; the lines of contents
are made anew, and nothing says that they are fewer or shorter.

* `Endless.opens`: what a line opens, as the reader settles it and as `Layout.take` does;
* `Endless.block_ends`: a block ends behind its first line and no later than the
  lines do, whatever the recursion makes of its contents;
* `Endless.listRound_ends`: so does every item of a list;
* `Endless.blocks_below`: the recursion only goes to lines that have fewer bytes;
* `Endless.reader_eq`: so it comes to an end, with what `Reading.blocks` makes of the
  lines, at any depth and with any limit on nesting.
-/
import MarkdownForest.Proofs.EndlessRuns
import MarkdownForest.Proofs.LineLoops

namespace MarkdownForest

set_option autoImplicit false

open Text

/-! ## Bytes of lines -/

namespace Line

/-- The number of bytes of a line. -/
def byteLength (l : Line) : Nat :=
  utf8Length l.text

/-- The number of bytes of lines. -/
def bytes (ls : List Line) : Nat :=
  total byteLength ls

theorem utf8Length_drop_le (s : List Char) (n : Nat) : utf8Length (s.drop n) ≤ utf8Length s := by
  conv => rhs; rw [← List.take_append_drop n s, utf8Length_append]
  exact Nat.le_add_left _ _

theorem shrinks_byteLength : Shrinks byteLength where
  tail_le l n := utf8Length_drop_le l.text n
  emptied_le l := Nat.zero_le _
  tail_lt {l n} filled past := by
    obtain ⟨c, s, -, text, shorter⟩ := text_tail_lt filled past
    have := utf8Length_drop_le s (n - l.indent - 1)
    have := c.utf8Size_pos
    rw [byteLength, byteLength, shorter, text, utf8Length_append, utf8Length]
    omega

end Line

namespace Endless

/-! ## The reader -/

/-- What reads lines as children of a node at a depth, and tells whether blank lines stand between
the blocks. -/
abbrev Reader := Nat → NodeId → List Line → Run Bool

/-- Grows a block that has no blocks inside. -/
def leaf (o : ParseOptions) (p : NodeId) (b : Layout × Nat) : Run (Nat × Bool) := do
  Run.ofReading (Reading.edit (·.grow p (b.1.leafTree o.smart)))
  return (b.2, false)

/-- The quote that the line `i` opens. -/
def quote (o : ParseOptions) (read : Reader) (depth : Nat) (p : NodeId) (lines : List Line)
    (i : Nat) (line : Line) : Run (Nat × Bool) := do
  Run.ofReading (Reading.enter o depth line.offset)
  let (inner, next) := Indexed.collectFrom Indexed.quoteLine lines i []
  let x ← Run.ofReading (Reading.openBlock p .blockQuote)
  let _ ← read (depth + 1) x inner
  return (next, false)

/-- Where the loop over the items of a list is: at the marker on the line `index`, and whether all
is tight so far. -/
structure Items where
  index : Nat
  marker : Marker
  tight : Bool

/-- The marker on a line, if it goes on with the list of `first`. -/
def goesOn (first : Marker) (line? : Option Line) : Option Marker := do
  let line ← line?
  (Marker.read? line).filter fun m => first.sameList m && !isRule line.rest

/-- Reads an item of the list `x`, which `first` began.  Behind the last one it is settled whether
the list is tight. -/
def listRound (read : Reader) (depth : Nat) (x : NodeId) (lines : List Line) (first : Marker)
    (s : Items) : Run ((Nat × Bool) ⊕ Items) := do
  let (inner, next, trailing) ← Run.given (Indexed.collectItem lines s.index s.marker)
  let item ← Run.ofReading (Reading.openBlock x .item)
  let loose ← read (depth + 1) item inner
  let tight := s.tight && !loose
  match goesOn first lines[next]? with
  | some marker => return .inr ⟨next, marker, tight && !trailing⟩
  | none => do
    Run.ofReading (Reading.edit (·.set (Content.setListTight tight) x))
    return .inl (next, trailing)

/-- The list that the line `i` opens with the marker `first`. -/
def list (o : ParseOptions) (read : Reader) (depth : Nat) (p : NodeId) (lines : List Line)
    (i : Nat) (line : Line) (first : Marker) : Run (Nat × Bool) := do
  Run.ofReading (Reading.enter o depth line.offset)
  let x ← Run.ofReading (Reading.openBlock p (.list first.type first.start true))
  Run.loop (listRound read depth x lines first) ⟨i, first, true⟩

/-- The block that begins with the line `i`, the index of the line after it, and whether blank lines
at its end were taken with it. -/
def block (o : ParseOptions) (read : Reader) (depth : Nat) (p : NodeId) (lines : List Line)
    (i : Nat) : Run (Nat × Bool) := do
  let line ← Run.given lines[i]?
  if 4 ≤ line.indent then
    let code ← Run.given (Indexed.indentedCode lines i)
    leaf o p code
  else
    match Fence.open? line.rest with
    | some f => leaf o p (Indexed.fencedCode f line.indent lines i)
    | none =>
      match header? line.rest with
      | some (level, text) => leaf o p (.header level text, i + 1)
      | none =>
        if line.rest.head? = some '>' then quote o read depth p lines i line
        else if isRule line.rest then leaf o p (.rule, i + 1)
        else
          match Marker.read? line with
          | some m => list o read depth p lines i line m
          | none =>
            if opensHtml line.rest then leaf o p (Indexed.htmlBlock lines i)
            else leaf o p (Indexed.textBlock lines i line)

/-- Where the loop over blocks is: at the line `index`; whether blank lines stood between two
blocks, whether there was a block, and whether blank lines stand after the last one. -/
structure Cursor where
  index : Nat := 0
  loose : Bool := false
  any : Bool := false
  blank : Bool := false

/-- Goes past a blank line or reads a block. -/
def blocksRound (o : ParseOptions) (read : Reader) (depth : Nat) (p : NodeId) (lines : List Line)
    (s : Cursor) : Run (Bool ⊕ Cursor) :=
  match lines[s.index]? with
  | none => return .inl s.loose
  | some line =>
    if line.isBlank then return .inr { s with index := s.index + 1, blank := true }
    else do
      let (next, trailing) ← block o read depth p lines s.index
      return .inr ⟨next, s.loose || (s.any && s.blank), true, trailing⟩

/-- Reads lines as children of a node. -/
def blocks (o : ParseOptions) (read : Reader) : Reader := fun depth p lines =>
  Run.loop (blocksRound o read depth p lines) {}

/-! ## What a line opens -/

/-- The block that begins with the line `l` at `i`, with `ls` behind it: it has no blocks inside, or
it is a quote or a list. -/
inductive Opens (o : ParseOptions) (depth : Nat) (p : NodeId) (lines : List Line) (i : Nat)
    (l : Line) (ls : List Line) : Prop
  | leaf (text : (Layout.take l ls).layout.kind.nests = false)
      (trailing : (Layout.take l ls).trailingBlank = false)
      (is : ∀ read, block o read depth p lines i =
        leaf o p ((Layout.take l ls).layout, Indexed.place lines (Layout.take l ls).rest))
  | quote (quoted : l.isQuoted) (takes : Layout.take l ls = Layout.takeQuote l ls)
      (is : ∀ read, block o read depth p lines i = quote o read depth p lines i l)
  | list (m : Marker) (marked : Marker.read? l = some m)
      (takes : Layout.take l ls = Layout.takeList m l ls)
      (is : ∀ read, block o read depth p lines i = list o read depth p lines i l m)

section Opening

variable {o : ParseOptions} {depth : Nat} {p : NodeId} {lines ls : List Line} {l : Line} {i : Nat}

theorem opens_of_take {t : Taken} (takes : Layout.take l ls = t)
    (text : t.layout.kind.nests = false) (trailing : t.trailingBlank = false)
    (is : ∀ read, block o read depth p lines i =
      leaf o p (t.layout, Indexed.place lines t.rest)) :
    Opens o depth p lines i l ls := by
  subst takes
  exact .leaf text trailing is

theorem takeText_leaf (l : Line) (ls : List Line) :
    (Layout.takeText l ls).layout.kind.nests = false ∧
      (Layout.takeText l ls).trailingBlank = false := by
  simp only [Layout.takeText]
  cases (takeParagraph ls).2.1 <;> exact ⟨rfl, rfl⟩

theorem opens (o : ParseOptions) (depth : Nat) (p : NodeId) (at_ : lines.drop i = l :: ls)
    (filled : ¬ l.isBlank) : Opens o depth p lines i l ls := by
  -- The line is asked the same on both sides, in the same order.
  have here := Indexed.getElem?_of_drop at_
  have next := Indexed.place_succ at_
  have start : ∀ read, block o read depth p lines i = _ := fun read => by
    rw [block, here, Run.given_some, pure_bind]
  by_cases deep : 4 ≤ l.indent
  · refine opens_of_take (if_pos deep) rfl rfl fun read => ?_
    rw [start, if_pos deep, Indexed.indentedCode_eq at_ deep filled, Run.given_some, pure_bind]
  replace start : ∀ read, block o read depth p lines i = _ := fun read =>
    (start read).trans (if_neg deep)
  have take : Layout.take l ls = _ := if_neg deep
  cases fence : Fence.open? l.rest with
  | some f =>
    simp only [fence, Indexed.fencedCode_eq at_] at start take
    exact opens_of_take take rfl rfl start
  | none =>
  simp only [fence] at start take
  cases header : header? l.rest with
  | some found =>
    simp only [header, ← next] at start take
    exact opens_of_take take rfl rfl start
  | none =>
  simp only [header] at start take
  by_cases quoted : l.rest.head? = some '>'
  · simp only [quoted, if_true] at start take
    refine .quote ?_ take start
    simpa [Line.isQuoted, quoted] using deep
  simp only [quoted, if_false] at start take
  by_cases rule : isRule l.rest
  · simp only [rule, if_true, ← next] at start take
    exact opens_of_take take rfl rfl start
  simp only [rule, Bool.false_eq_true, if_false] at start take
  cases marked : Marker.read? l with
  | some m =>
    simp only [marked] at start take
    exact .list m marked take start
  | none =>
  simp only [marked] at start take
  by_cases html : opensHtml l.rest
  · simp only [html, if_true, Indexed.htmlBlock_eq at_ filled] at start take
    exact opens_of_take take rfl rfl start
  · simp only [html, Bool.false_eq_true, if_false, Indexed.textBlock_eq at_] at start take
    exact opens_of_take take (takeText_leaf l ls).1 (takeText_leaf l ls).2 start

end Opening

/-! ## Every block ends behind its first line -/

section Progress

variable {o : ParseOptions} {read : Reader} {depth : Nat} {p : NodeId} {lines ls : List Line}
  {l : Line} {i : Nat}

/-- A round of the loop over items goes past the item that it reads, and on from a marker. -/
theorem mem_listRound {x : NodeId} {first : Marker} {s : Items} {f g : Forest}
    {r : (Nat × Bool) ⊕ Items} (h : .ok r g ∈ listRound read depth x lines first s f) :
    ∃ inner next trailing,
      Indexed.collectItem lines s.index s.marker = some (inner, next, trailing) ∧
      ((∃ marker tight, goesOn first lines[next]? = some marker ∧ r = .inr ⟨next, marker, tight⟩) ∨
        r = .inl (next, trailing)) := by
  rw [listRound] at h
  obtain ⟨⟨inner, next, trailing⟩, _, found, h⟩ := Run.mem_bind_ok.mp h
  obtain ⟨_, _, -, h⟩ := Run.mem_bind_ok.mp h
  obtain ⟨loose, _, -, h⟩ := Run.mem_bind_ok.mp h
  refine ⟨inner, next, trailing, (Run.mem_given_ok.mp found).1, ?_⟩
  cases more : goesOn first lines[next]? with
  | some marker =>
    rw [more] at h
    exact .inl ⟨_, _, rfl, (Run.mem_pure_ok.mp h).1⟩
  | none =>
    rw [more] at h
    obtain ⟨_, _, -, h⟩ := Run.mem_bind_ok.mp h
    exact .inr (Run.mem_pure_ok.mp h).1

/-- A round of the loop over items goes on at a line behind the item, or leaves it there. -/
theorem listRound_ends {x : NodeId} {first : Marker} {s : Items} {f g : Forest}
    {r : (Nat × Bool) ⊕ Items} (h : .ok r g ∈ listRound read depth x lines first s f) :
    s.index < r.elim Prod.fst Items.index ∧ r.elim Prod.fst Items.index ≤ lines.length := by
  obtain ⟨inner, next, trailing, found, ⟨marker, tight, -, rfl⟩ | rfl⟩ := mem_listRound h
  all_goals exact Indexed.collectItem_ends found

theorem list_ends {m : Marker} {f g : Forest} {next : Nat} {trailing : Bool}
    (h : .ok (next, trailing) g ∈ list o read depth p lines i l m f) :
    i < next ∧ next ≤ lines.length := by
  obtain ⟨_, _, -, h⟩ := Run.mem_bind_ok.mp h
  obtain ⟨x, _, -, h⟩ := Run.mem_bind_ok.mp h
  refine Run.loop_ends (fun s => i ≤ s.index) (fun b => i < b.1 ∧ b.1 ≤ lines.length)
    (fun s t f g hs ht => ?_) (fun s b f g hs hb => ?_) (Nat.le_refl i) h
  · exact hs.trans (Nat.le_of_lt (listRound_ends ht).1)
  · exact ⟨Nat.lt_of_le_of_lt hs (listRound_ends hb).1, (listRound_ends hb).2⟩

theorem quote_ends (at_ : lines.drop i = l :: ls) (quoted : l.isQuoted) {f g : Forest} {next : Nat}
    {trailing : Bool} (h : .ok (next, trailing) g ∈ quote o read depth p lines i l f) :
    i < next ∧ next ≤ lines.length := by
  rw [quote, Indexed.quote_eq at_ quoted] at h
  obtain ⟨_, _, -, h⟩ := Run.mem_bind_ok.mp h
  obtain ⟨_, _, -, h⟩ := Run.mem_bind_ok.mp h
  obtain ⟨_, _, -, h⟩ := Run.mem_bind_ok.mp h
  cases (Run.mem_pure_ok.mp h).1
  exact ⟨Indexed.lt_place at_ (collect_suffix ..), Indexed.place_le ..⟩

/-- A block ends behind its first line, and no later than the lines do. -/
theorem block_ends (at_ : lines.drop i = l :: ls) (filled : ¬ l.isBlank) {f g : Forest} {next : Nat}
    {trailing : Bool} (h : .ok (next, trailing) g ∈ block o read depth p lines i f) :
    i < next ∧ next ≤ lines.length := by
  cases opens o depth p at_ filled with
  | leaf _ _ is =>
    rw [is] at h
    obtain ⟨_, _, -, h⟩ := Run.mem_bind_ok.mp h
    cases (Run.mem_pure_ok.mp h).1
    exact ⟨Indexed.lt_place at_ (Layout.rest_take_suffix l ls), Indexed.place_le ..⟩
  | quote quoted _ is => exact quote_ends at_ quoted (is read ▸ h)
  | list m _ _ is => exact list_ends (is read ▸ h)

end Progress

/-! ## The recursion only goes to fewer bytes -/

section Below

variable {o : ParseOptions} {read read' : Reader} {depth : Nat} {p : NodeId}
  {lines ls : List Line} {l : Line} {i : Nat}

theorem bytes_drop_le (lines : List Line) (i : Nat) :
    Line.bytes (lines.drop i) ≤ Line.bytes lines :=
  Line.total_le_of_suffix (List.drop_suffix i lines)

/-- The lines of an item have fewer bytes than the lines that it is on. -/
theorem bytes_item_lt {m : Marker} {inner : List Line} {next : Nat} {trailing : Bool}
    (there : lines[i]? = some l) (marked : Marker.read? l = some m)
    (h : Indexed.collectItem lines i m = some (inner, next, trailing)) :
    Line.bytes inner < Line.bytes lines := by
  have at_ := Indexed.drop_of_getElem? there
  rw [Indexed.collectItem_eq at_] at h
  cases h
  have lines_lt := Line.shrinks_byteLength.takeItem_lt marked (lines.drop (i + 1))
  have lines_le := bytes_drop_le lines i
  rw [at_] at lines_le
  unfold Line.bytes at *
  omega

theorem quote_mono (at_ : lines.drop i = l :: ls) (quoted : l.isQuoted)
    (le : ∀ d x inner, Line.bytes inner < Line.bytes lines → read d x inner ≤ read' d x inner) :
    quote o read depth p lines i l ≤ quote o read' depth p lines i l := by
  have less := Line.shrinks_byteLength.quoted_lt quoted ls
  have lines_le := bytes_drop_le lines i
  rw [at_] at lines_le
  rw [quote, quote, Indexed.quote_eq at_ quoted]
  refine Run.bind_mono le_rfl fun _ => Run.bind_mono le_rfl fun x => ?_
  exact Run.bind_mono (le _ _ _ (Nat.lt_of_lt_of_le less lines_le)) fun _ => le_rfl

/-- Where the loop over items goes on there is a marker. -/
def Marked (lines : List Line) (s : Items) : Prop :=
  ∃ l, lines[s.index]? = some l ∧ Marker.read? l = some s.marker

theorem marked_of_goesOn {first m : Marker} {next : Nat} (h : goesOn first lines[next]? = some m)
    (tight : Bool) : Marked lines ⟨next, m, tight⟩ := by
  obtain ⟨l, there, found⟩ := Option.bind_eq_some_iff.mp h
  exact ⟨l, there, (Option.filter_eq_some_iff.mp found).1⟩

theorem listRound_mono {x : NodeId} {first : Marker} {s : Items} (marked : Marked lines s)
    (le : ∀ d x inner, Line.bytes inner < Line.bytes lines → read d x inner ≤ read' d x inner) :
    listRound read depth x lines first s ≤ listRound read' depth x lines first s := by
  obtain ⟨l, there, marker⟩ := marked
  rw [listRound, listRound]
  cases found : Indexed.collectItem lines s.index s.marker with
  | none => exact fun f r h => absurd (Part.mem_bind_iff.mp h).choose_spec.1 (Part.notMem_none _)
  | some item =>
    obtain ⟨inner, next, trailing⟩ := item
    rw [Run.given_some, pure_bind, pure_bind]
    refine Run.bind_mono le_rfl fun x => ?_
    exact Run.bind_mono (le _ _ _ (bytes_item_lt there marker found)) fun _ => le_rfl

theorem list_mono {m : Marker} (there : lines[i]? = some l) (marked : Marker.read? l = some m)
    (le : ∀ d x inner, Line.bytes inner < Line.bytes lines → read d x inner ≤ read' d x inner) :
    list o read depth p lines i l m ≤ list o read' depth p lines i l m := by
  refine Run.bind_mono le_rfl fun _ => Run.bind_mono le_rfl fun x => ?_
  refine Run.loop_mono (Marked lines) (fun s hs => listRound_mono hs le) (fun s t f g _ ht => ?_)
    ⟨l, there, marked⟩
  obtain ⟨_, _, _, -, ⟨marker, tight, more, e⟩ | e⟩ := mem_listRound ht
  · cases e
    exact marked_of_goesOn more tight
  · cases e

theorem block_mono (at_ : lines.drop i = l :: ls) (filled : ¬ l.isBlank)
    (le : ∀ d x inner, Line.bytes inner < Line.bytes lines → read d x inner ≤ read' d x inner) :
    block o read depth p lines i ≤ block o read' depth p lines i := by
  cases opens o depth p at_ filled with
  | leaf _ _ is => rw [is, is]
  | quote quoted _ is =>
    rw [is, is]
    exact quote_mono at_ quoted le
  | list m marked _ is =>
    rw [is, is]
    exact list_mono (Indexed.getElem?_of_drop at_) marked le

theorem blocksRound_mono {s : Cursor}
    (le : ∀ d x inner, Line.bytes inner < Line.bytes lines → read d x inner ≤ read' d x inner) :
    blocksRound o read depth p lines s ≤ blocksRound o read' depth p lines s := by
  rw [blocksRound, blocksRound]
  cases there : lines[s.index]? with
  | none => exact le_rfl
  | some l =>
    dsimp only
    by_cases blank : l.isBlank
    · rw [if_pos blank, if_pos blank]
    · rw [if_neg blank, if_neg blank]
      exact Run.bind_mono (block_mono (Indexed.drop_of_getElem? there) blank le) fun _ => le_rfl

/-- A reader that does more with lines of fewer bytes does more inside of blocks. -/
theorem blocks_mono
    (le : ∀ d x inner, Line.bytes inner < Line.bytes lines → read d x inner ≤ read' d x inner) :
    blocks o read depth p lines ≤ blocks o read' depth p lines :=
  Run.loop_mono (fun _ => True) (fun _ _ => blocksRound_mono le) (fun _ _ _ _ _ _ => trivial)
    trivial

theorem blocks_congr
    (same : ∀ d x inner, Line.bytes inner < Line.bytes lines → read d x inner = read' d x inner) :
    blocks o read depth p lines = blocks o read' depth p lines :=
  le_antisymm (blocks_mono fun d x inner h => (same d x inner h).le)
    (blocks_mono fun d x inner h => (same d x inner h).ge)

/-- The reader, but with no outcome for lines of `n` bytes or more. -/
def Reader.below (n : Nat) (read : Reader) : Reader := fun depth p lines =>
  if Line.bytes lines < n then read depth p lines else fun _ => .none

/-- The recursion only goes to lines that have fewer bytes. -/
theorem blocks_below (o : ParseOptions) (read : Reader) (depth : Nat) (p : NodeId)
    (lines : List Line) :
    blocks o (read.below (Line.bytes lines)) depth p lines = blocks o read depth p lines :=
  blocks_congr fun _ _ _ h => if_pos h

end Below

/-! ## The recursion comes to an end -/

/-- What a call of a reader is about: a depth, a node, lines and a forest. -/
abbrev Call := Nat × NodeId × List Line × Forest

/-- The reader that makes the given of its calls. -/
def calling (outcome : Call → Part (EStateM.Result Stop Forest Bool)) : Reader :=
  fun depth p lines f => outcome (depth, p, lines, f)

/-- What the reader makes of a call, given what it makes of those inside. -/
def body (o : ParseOptions) :
    (Call → Part (EStateM.Result Stop Forest Bool)) →o
      (Call → Part (EStateM.Result Stop Forest Bool)) where
  toFun outcome c := blocks o (calling outcome) c.1 c.2.1 c.2.2.1 c.2.2.2
  monotone' _ _ le c := blocks_mono (fun _ _ _ _ f => le (_, _, _, f)) c.2.2.2

/-- The reader that reads what is inside of blocks with itself. -/
def reader (o : ParseOptions) : Reader :=
  calling (Part.fix (body o))

/-- The reader whose recursion is bounded. -/
def settled (o : ParseOptions) : Reader := fun depth p lines =>
  Run.ofReading (Reading.blocks o depth p false false lines)

section Settled

variable {o : ParseOptions} {depth : Nat} {p x : NodeId} {lines rest ls : List Line} {l : Line}
  {i : Nat} {first m : Marker}

theorem sameList_of_nextItem? {n : Marker} {k : Line} {ks : List Line}
    (h : nextItem? m rest = some (n, k, ks)) (next : Marker) :
    n.sameList next = m.sameList next := by
  have same : m.sameList n := by
    unfold nextItem? at h
    split at h
    · cases h
    · split at h
      · split at h
        · rename_i both
          cases h
          exact (Bool.and_eq_true_iff.mp both).1
        · cases h
      · cases h
  obtain ⟨type, delimiter⟩ := Bool.and_eq_true_iff.mp same
  rw [Marker.sameList, Marker.sameList, eq_of_beq type, eq_of_beq delimiter]

/-- That a list goes on does not depend on which of its items is asked. -/
theorem goesOn_eq (same : ∀ n, first.sameList n = m.sameList n) (suffix : rest <:+ lines) :
    goesOn first lines[Indexed.place lines rest]? = (nextItem? m rest).map Prod.fst := by
  rw [← List.head?_drop, Indexed.drop_place suffix]
  cases rest with
  | nil => rfl
  | cons k ks =>
    rw [nextItem?, goesOn, List.head?_cons, Option.bind_eq_bind, Option.bind_some]
    cases Marker.read? k with
    | none => rfl
    | some n =>
      rw [Option.filter_some, same]
      dsimp only
      split <;> rfl

/-- A round of the loop over items. -/
theorem listRound_settled (same : ∀ n, first.sameList n = m.sameList n)
    (at_ : lines.drop i = l :: ls) (tight : Bool) :
    listRound (settled o) depth x lines first ⟨i, m, tight⟩ = (do
      let item ← Run.ofReading (Reading.openBlock x .item)
      let loose ← settled o (depth + 1) item (takeItem m l ls).lines
      match nextItem? m (takeItem m l ls).rest with
      | some (n, _, _) => return .inr ⟨Indexed.place lines (takeItem m l ls).rest, n,
          tight && !loose && !(takeItem m l ls).trailingBlank⟩
      | none => do
        Run.ofReading (Reading.edit (·.set (Content.setListTight (tight && !loose)) x))
        return .inl (Indexed.place lines (takeItem m l ls).rest,
          (takeItem m l ls).trailingBlank)) := by
  have suffix := Indexed.suffix_of_drop at_ (rest_takeItem_suffix m l ls)
  rw [listRound, Indexed.collectItem_eq at_, Run.given_some, pure_bind]
  dsimp only
  rw [goesOn_eq same suffix]
  cases nextItem? m (takeItem m l ls).rest <;> rfl

/-- The loop over items reads one after another, and settles then whether the list is tight. -/
theorem loop_listRound (same : ∀ n, first.sameList n = m.sameList n)
    (at_ : lines.drop i = l :: ls) (tight : Bool) :
    Run.loop (listRound (settled o) depth x lines first) ⟨i, m, tight⟩ =
      Run.ofReading (do
        let loose ← Reading.items o (depth + 1) x (takeItems m l ls).items
        Reading.edit (·.set (Content.setListTight
          (tight && (!(takeItems m l ls).spaced && !loose))) x)
        return (Indexed.place lines (takeItems m l ls).rest,
          (takeItems m l ls).trailingBlank)) := by
  fun_induction takeItems m l ls generalizing i tight with
  | case1 =>
    rename_i m l ls item last
    rw [Run.loop_eq, listRound_settled same at_, last]
    simp only [Reading.items, settled, bind_assoc, pure_bind, Run.ofReading_bind,
      Run.ofReading_pure, Bool.or_false, Bool.not_false, Bool.true_and]
    rfl
  | case2 =>
    rename_i m l ls item n k ks next _ more ih
    have rest : (takeItem m l ls).rest = k :: ks := (nextItem?_eq_some next).1
    have there : lines.drop (Indexed.place lines (takeItem m l ls).rest) = k :: ks :=
      (Indexed.drop_place (Indexed.suffix_of_drop at_ (rest_takeItem_suffix m l ls))).trans rest
    have same' : ∀ other, first.sameList other = n.sameList other := fun other =>
      (same other).trans (sameList_of_nextItem? next other).symm
    rw [Run.loop_eq, listRound_settled same at_, next]
    simp only [Reading.items, settled, bind_assoc, pure_bind, ih same' there, Run.ofReading_bind,
      Run.ofReading_pure]
    refine bind_congr fun y => bind_congr fun loose => bind_congr fun looser => ?_
    have settles : (tight && !loose && !item.trailingBlank && (!more.spaced && !looser)) =
        (tight && (!(item.trailingBlank || more.spaced) && !(loose || looser))) := by
      simp only [Bool.not_or]
      ac_rfl
    rw [← settles]

/-- The block that lines go on with is read as one of those lines. -/
theorem block_settled (at_ : lines.drop i = l :: ls) (filled : ¬ l.isBlank) :
    block o (settled o) depth p lines i =
      Run.ofReading (do
        Reading.block o depth p l ls
        return (Indexed.place lines (Layout.take l ls).rest,
          (Layout.take l ls).trailingBlank)) := by
  cases opens o depth p at_ filled with
  | leaf text trailing is =>
    have reads : Reading.block o depth p l ls = _ := Reading.block_leaf
      (fun offset inner e => by rw [e] at text; cases text)
      (fun offset m rows spaced e => by rw [e] at text; cases text)
    rw [is, leaf, reads, trailing]
    simp only [Run.ofReading_bind, Run.ofReading_pure]
  | quote quoted takes is =>
    have reads : Reading.block o depth p l ls = _ :=
      Reading.block_quote (congrArg Taken.layout takes)
    rw [is, quote, Indexed.quote_eq at_ quoted, reads, takes]
    simp only [settled, Layout.takeQuote, bind_assoc, pure_bind, Run.ofReading_bind,
      Run.ofReading_pure]
  | list m marked takes is =>
    have reads : Reading.block o depth p l ls = _ :=
      Reading.block_list (congrArg Taken.layout takes)
    rw [is, list, reads, takes]
    simp only [loop_listRound (fun _ => rfl) at_, Layout.takeList, bind_assoc, Run.ofReading_bind,
      Run.ofReading_pure, Bool.true_and]

/-- The loop over blocks reads one after another, from where it is. -/
theorem loop_blocksRound (s : Cursor) (within : s.index ≤ lines.length) :
    Run.loop (blocksRound o (settled o) depth p lines) s =
      Run.ofReading (do
        let loose ← Reading.blocks o depth p s.any s.blank (lines.drop s.index)
        return s.loose || loose) := by
  -- The lines from the index on are fewer after every round.
  induction left : lines.length - s.index using Nat.strong_induction_on generalizing s with
  | _ _ ih =>
    subst left
    rw [Run.loop_eq, blocksRound]
    cases there : lines[s.index]? with
    | none =>
      simp only [Indexed.drop_of_getElem?_none there, Reading.blocks, pure_bind, Bool.or_false,
        Run.ofReading_pure]
    | some l =>
      obtain ⟨inside, -⟩ := List.getElem?_eq_some_iff.mp there
      have at_ := Indexed.drop_of_getElem? there
      dsimp only
      by_cases blank : l.isBlank
      · rw [if_pos blank, pure_bind, at_, Reading.blocks_blank blank]
        exact ih _ (Indexed.left_lt there) _ inside rfl
      · rw [if_neg blank, at_, Reading.blocks_cons blank, block_settled at_ blank]
        let taken := Layout.take l (lines.drop (s.index + 1))
        have ends : taken.rest <:+ lines.drop (s.index + 1) := Layout.rest_take_suffix ..
        have behind := Indexed.lt_place at_ ends
        have short := Indexed.place_le lines taken.rest
        have less : lines.length - Indexed.place lines taken.rest < lines.length - s.index := by
          omega
        have more := ih _ less ⟨Indexed.place lines taken.rest, s.loose || (s.any && s.blank), true,
          taken.trailingBlank⟩ short rfl
        rw [Indexed.drop_place (Indexed.suffix_of_drop at_ ends)] at more
        simp only [bind_assoc, pure_bind, Run.ofReading_bind, Run.ofReading_pure]
        refine bind_congr fun _ => more.trans ?_
        simp only [Run.ofReading_bind, Run.ofReading_pure, Bool.or_assoc]
        rfl

/-- Reading with what the bounded reader makes of contents is the bounded reader. -/
theorem blocks_settled (o : ParseOptions) : blocks o (settled o) = settled o := by
  funext depth p lines
  rw [blocks, loop_blocksRound _ (Nat.zero_le _)]
  simp only [settled, List.drop_zero, Bool.false_or, bind_pure]

/-- The recursion comes to an end at all lines, with what the bounded one makes of them. -/
theorem reader_eq (o : ParseOptions) : reader o = settled o := by
  let outcome (c : Call) := settled o c.1 c.2.1 c.2.2.1 c.2.2.2
  have solves : body o outcome = outcome := funext fun c =>
    congrFun (congrFun (congrFun (congrFun (blocks_settled o) c.1) c.2.1) c.2.2.1) c.2.2.2
  have fixed : Part.fix (body o) = outcome :=
    Recursion.fix_eq (fun c => Line.bytes c.2.2.1) solves fun made c smaller => congrFun
      (blocks_congr fun d x inner less => funext fun f => smaller (d, x, inner, f) less) c.2.2.2
  rw [reader, fixed]
  rfl

/-- The reader does what its body says, given itself. -/
theorem reader_unfold (o : ParseOptions) : reader o = blocks o (reader o) := by
  rw [reader_eq, blocks_settled]

/-- Every block is read to the end. -/
theorem exists_block_eq (o : ParseOptions) (depth : Nat) (p : NodeId) (at_ : lines.drop i = l :: ls)
    (filled : ¬ l.isBlank) (f : Forest) : ∃ r, block o (reader o) depth p lines i f = .some r := by
  rw [reader_eq, block_settled at_ filled]
  exact ⟨_, rfl⟩

end Settled

end Endless

/-- Reads a source into the forest with the reader that nothing bounds. -/
def Forest.readEndless (f : Forest) (o : ParseOptions) (source : String) :
    Part (Except Stop NodeId × Forest) :=
  let (x, f) := f.newNode .document
  (Endless.reader o 0 x (Line.ofSource source.toList) f).map fun
    | .ok _ g => (.ok x, g)
    | .error e g =>
      match g.freeSubtree x with
      | .ok freed => (.error e, freed.2)
      | .error refused => (.error (.refused refused), g)

/-- Reading a source comes to an end, as if it were bounded. -/
theorem Forest.readEndless_eq (f : Forest) (o : ParseOptions) (source : String) :
    f.readEndless o source = .some (f.readAlong o source) := by
  rw [readEndless, Endless.reader_eq, readAlong]
  exact Part.map_some _ _

/-- In a sound forest it does what reading the source first and planting its trees then does. -/
theorem Forest.Sound.readEndless_eq {f : Forest} (s : Sound f) (o : ParseOptions)
    (source : String) :
    f.readEndless o source =
      .some ((f.read o source).1.mapError .parse, (f.read o source).2) := by
  rw [Forest.readEndless_eq, s.readAlong_eq]

namespace Endless

/-- With any options, a reader that calls itself reads blocks to the end.  A block whose first line
is not blank comes to an end: the reader stops there, or goes on behind that line and no later than
the lines end.  What is inside of blocks has fewer bytes than the lines that it is in, and every
round of the loop over items moves on.  So every source is read to the end. -/
theorem read_ends (o : ParseOptions) :
    reader o = blocks o (reader o) ∧
    (∀ depth p (lines : List Line) i line, lines[i]? = some line → ¬ line.isBlank → ∀ f,
      ∃ r, block o (reader o) depth p lines i f = .some r ∧
        ∀ next trailing g, r = .ok (next, trailing) g → i < next ∧ next ≤ lines.length) ∧
    (∀ read depth p lines,
      blocks o read depth p lines = blocks o (read.below (Line.bytes lines)) depth p lines) ∧
    (∀ read depth x lines first s f r g,
      .ok r g ∈ listRound read depth x lines first s f →
        s.index < r.elim Prod.fst Items.index ∧ r.elim Prod.fst Items.index ≤ lines.length) ∧
    ∀ (f : Forest) source, f.readEndless o source = .some (f.readAlong o source) := by
  refine ⟨reader_unfold o, fun depth p lines i line there filled f => ?_,
    fun read depth p lines => ?_,
    fun read depth x lines first s f r g round => listRound_ends round,
    fun f source => f.readEndless_eq o source⟩
  · have at_ := Indexed.drop_of_getElem? there
    obtain ⟨r, ended⟩ := exists_block_eq o depth p at_ filled f
    refine ⟨r, ended, fun next trailing g is => ?_⟩
    subst is
    exact block_ends at_ filled (Part.eq_some_iff.mp ended)
  · exact (blocks_below o read depth p lines).symm

/-- A list inside of a quote is read to the end. -/
theorem read_ends_nested :
    let nested : Line := ⟨"> - a".toList, 0⟩
    ¬ nested.isBlank ∧ ∀ f, ∃ r, block {} (reader {}) 0 ⟨0, 0⟩ [nested] 0 f = .some r := by
  refine ⟨by decide, fun f => ?_⟩
  obtain ⟨r, ended, -⟩ := (read_ends {}).2.1 0 ⟨0, 0⟩ [⟨"> - a".toList, 0⟩] 0 _ rfl (by decide) f
  exact ⟨r, ended⟩

end Endless

end MarkdownForest
