/-
# MarkdownForest.Proofs.BracketPlaces -- open brackets kept by their places

A scan may keep its pieces in one vector, and on a stack the places in it at
which brackets were put.  Text goes into a text at the end of the vector; a
bracket without a target is overwritten by its text; and for a link, emphasis is
resolved in place behind the bracket, what lies there is taken out, and the vector
is cut off at the bracket (`StackScan.closeBracket`).  Nothing ties the places to
the brackets: each of these accesses may be out of bounds, and what is found at a
place on the stack may be no bracket.

After every one of these operations the stack is the places of the brackets in the
vector, from the first to the last, and the vector is the pieces of a `Scan` with
neighbouring texts joined (`SameBrackets`).  The bracket on top is then the last
one (`SameBrackets.last`), so the pieces behind it can go without the stack being
touched.
-/
import MarkdownForest.Proofs.EmphasisLoop
import MarkdownForest.Proofs.JoinedTexts
import MarkdownForest.Proofs.ScanSlices
import Mathlib.Algebra.BigOperators.Group.List.Defs

namespace MarkdownForest

set_option autoImplicit false

open Text Emphasis

/-! ## The operations -/

def Piece.isBracket : Piece → Bool
  | bracket .. => true
  | _ => false

/-- A scan with its pieces in a vector, and the places of the open brackets, the innermost last. -/
structure StackScan where
  position : Nat := 0
  pieces : List Piece := []
  brackets : List Nat := []

namespace StackScan

def push (v : StackScan) (p : Piece) : StackScan :=
  { v with pieces := v.pieces ++ [p] }

def pushInline (v : StackScan) (i : Inline) : StackScan :=
  v.push (.inline i)

/-- Adds text, to the last piece if that is text. -/
def pushText (v : StackScan) (t : List Char) : StackScan :=
  match v.pieces.getLast? with
  | some (.inline (.text s)) => { v with pieces := v.pieces.dropLast ++ [.inline (.text (s ++ t))] }
  | _ => v.pushInline (.text t)

/-- Adds an open bracket. -/
def openBracket (v : StackScan) (image : Bool) : StackScan :=
  { v.push (.bracket image true) with brackets := v.brackets ++ [v.pieces.length] }

/-- Adds the code span that `count` backticks open, or the backticks as text; and where the cursor
goes, if it is moved. -/
def openCode (source : List Char) (v : StackScan) (count : Nat) :
    Option (StackScan × Option Nat) := do
  match ← Sliced.codeSpan source v.position count with
  | some (inside, after) => return (v.pushInline (.code inside), some after)
  | none => return (v.pushText (List.replicate count '\x60'), none)

/-- Adds the run of delimiters from `start` on. -/
def pushRun (source : List Char) (v : StackScan) (start : Nat) (mark : Char) (count : Nat) :
    Option StackScan := do
  let before ← sliceTo? start source
  let after ← sliceFrom? v.position source
  return v.push (.delim (Delim.ofRun mark count before.getLast? after.head?))

/-- Overwrites the piece at a place. -/
def assign (ps : List Piece) (place : Nat) (p : Piece) : Option (List Piece) :=
  if place < ps.length then some (ps.set place p) else none

/-- Deactivates the piece at a place. -/
def deactivateAt (ps : List Piece) (place : Nat) : Option (List Piece) := do
  return ps.set place (← ps[place]?).deactivate

/-- The image or link with a target. -/
def linkTo (image : Bool) (target : Target) (children : List Inline) : Inline :=
  if image then .image target.url target.title children else .link target.url target.title children

/-- Makes a link or an image of what is behind the place of its bracket. -/
def closeLink (v : StackScan) (opener : Nat) (image : Bool) (target : Target) :
    Part (Option StackScan) :=
  (EmphasisLoop.process (opener + 1) v.pieces).map fun resolved => do
    let ps ← resolved
    let (inside, ps) ← EmphasisLoop.drain ps (opener + 1) ps.length
    let pieces := ps.take opener ++ [.inline (linkTo image target (finish inside))]
    return { v with
      pieces := ← if image then some pieces else v.brackets.foldlM deactivateAt pieces }

/-- Resolves a closing bracket; and where the cursor goes, if it is moved. -/
def closeBracket (source : List Char) (v : StackScan) : Part (Option (StackScan × Option Nat)) :=
  match v.brackets.getLast? with
  | none => .some (some (v.pushText [']'], none))
  | some opener =>
    let popped : StackScan := { v with brackets := v.brackets.dropLast }
    match v.pieces[opener]? with
    | none => .some none
    | some (.bracket image active) =>
      match if active then Sliced.target source v.position else some none with
      | none => .some none
      | some none =>
        let literal := Piece.inline (.text (Piece.bracketText image))
        .some ((assign v.pieces opener literal).map fun pieces =>
          (pushText { popped with pieces } [']'], none))
      | some (some (target, after)) =>
        (popped.closeLink opener image target).map fun closed => closed.map (·, some after)
    | some _ => .some (some (popped.pushText [']'], none))

/-- What a token that begins at `start` makes of a scan at the byte after it; and where the cursor
goes, if it is moved. -/
def handle (source : List Char) (v : StackScan) (token : Token) (start : Nat) :
    Part (Option (StackScan × Option Nat)) :=
  match token with
  | .text u | .spaces u => .some (some (v.pushText u, none))
  | .escaped c => .some (some (v.pushText [c], none))
  | .backslash => .some (some (v.pushText ['\\'], none))
  | .bang => .some (some (v.pushText ['!'], none))
  | .bracket => .some (some (v.pushText ['<'], none))
  | .hardBreak => .some (some (v.pushInline .lineBreak, none))
  | .softBreak => .some (some (v.pushInline .softBreak, none))
  | .backticks count => .some (v.openCode source count)
  | .stars count => .some ((v.pushRun source start '*' count).map (·, none))
  | .underscores count => .some ((v.pushRun source start '_' count).map (·, none))
  | .linkOpen => .some (some (v.openBracket false, none))
  | .imageOpen => .some (some (v.openBracket true, none))
  | .closeBracket => v.closeBracket source
  | .uriAutolink url => .some (some (v.pushInline (.link url [] [.text url]), none))
  | .emailAutolink address =>
    .some (some (v.pushInline (.link ("mailto:".toList ++ address) [] [.text address]), none))
  | .htmlTag raw => .some (some (v.pushInline (.html raw), none))

end StackScan

/-! ## Places of brackets -/

/-- No bracket is among pieces. -/
def Bracketless (ps : List Piece) : Prop :=
  ∀ p ∈ ps, p.isBracket = false

/-- The places of the brackets among pieces, from the first to the last. -/
def bracketPlaces (ps : List Piece) : List Nat :=
  ps.findIdxs Piece.isBracket

section Places

variable {ps qs pre post more : List Piece} {p : Piece} {image active : Bool}

theorem mem_bracketPlaces {i : Nat} :
    i ∈ bracketPlaces ps ↔ ∃ within : i < ps.length, ps[i].isBracket :=
  List.mem_findIdxs_iff_exists_getElem_pos

theorem bracketPlaces_bracketless (clear : Bracketless ps) : bracketPlaces ps = [] :=
  List.findIdxs_eq_nil_iff.mpr clear

theorem bracketPlaces_append_bracketless (clear : Bracketless post) :
    bracketPlaces (pre ++ post) = bracketPlaces pre := by
  rw [bracketPlaces, List.findIdxs_append, List.findIdxs_eq_nil_iff.mpr clear, List.append_nil,
    bracketPlaces]

theorem bracketPlaces_last (clear : Bracketless post) :
    bracketPlaces (pre ++ .bracket image active :: post) = bracketPlaces pre ++ [pre.length] := by
  rw [bracketPlaces, List.findIdxs_append, List.findIdxs_cons, List.findIdxs_eq_nil_iff.mpr clear,
    Nat.zero_add]
  rfl

/-- If there is a bracket, there is a last one. -/
theorem exists_last_bracket (ps : List Piece) :
    Bracketless ps ∨ ∃ pre image active post,
      ps = pre ++ .bracket image active :: post ∧ Bracketless post := by
  induction ps with
  | nil => exact .inl nofun
  | cons p ps ih =>
    rcases ih with clear | ⟨pre, image, active, post, rfl, clear⟩
    · cases p with
      | bracket image active => exact .inr ⟨[], image, active, ps, rfl, clear⟩
      | inline _ | delim _ => exact .inl (List.forall_mem_cons.mpr ⟨rfl, clear⟩)
    · exact .inr ⟨p :: pre, image, active, post, rfl, clear⟩

/-- Emphasis makes no brackets. -/
theorem bracketless_resolve {left right : List Piece} (hl : Bracketless left)
    (hr : Bracketless right) : Bracketless (resolve left right) := by
  have left_over (d : Delim) (used : Nat) : Bracketless (remaining d used) := by
    unfold remaining
    split
    · exact nofun
    · exact List.forall_mem_singleton.mpr rfl
  have append {ps qs : List Piece} (hp : Bracketless ps) (hq : Bracketless qs) :
      Bracketless (ps ++ qs) :=
    fun p h => (List.mem_append.mp h).elim (hp p) (hq p)
  fun_induction resolve left right with
  | case1 left => exact fun p hp => hl p (List.mem_reverse.mp hp)
  | case2 left p more _ ih | case3 left p more closer _ _ ih =>
    obtain ⟨hp, more⟩ := List.forall_mem_cons.mp hr
    exact ih (List.forall_mem_cons.mpr ⟨hp, hl⟩) more
  | case4 left p more closer hc above opener below found _ used =>
    rename_i ih
    obtain ⟨rfl, -⟩ := findOpener_eq_some found
    have below : Bracketless below := fun q hq => hl q (by simp [hq])
    exact ih (List.forall_mem_cons.mpr ⟨rfl, append (left_over _ _) below⟩)
      (append (left_over _ _) (List.forall_mem_cons.mp hr).2)

theorem deactivate_of_not_bracket (other : p.isBracket = false) : p.deactivate = p := by
  cases p <;> first | rfl | cases other

theorem isBracket_deactivate (p : Piece) : p.deactivate.isBracket = p.isBracket := by
  rcases p with _ | _ | ⟨_ | _, _⟩ <;> rfl

theorem bracketPlaces_map_deactivate (ps : List Piece) :
    bracketPlaces (ps.map Piece.deactivate) = bracketPlaces ps := by
  rw [bracketPlaces, List.findIdxs_map]
  congr 1
  exact funext isBracket_deactivate

theorem deactivate_deactivate (p : Piece) : p.deactivate.deactivate = p.deactivate := by
  rcases p with _ | _ | ⟨_ | _, _⟩ <;> rfl

theorem getElem?_foldl_modify (places : List Nat) (ps : List Piece) (i : Nat) :
    (places.foldl (fun ps place => ps.modify place Piece.deactivate) ps)[i]? =
      if i ∈ places then ps[i]?.map Piece.deactivate else ps[i]? := by
  induction places generalizing ps with
  | nil => simp
  | cons place places ih =>
    rw [List.foldl_cons, ih, List.getElem?_modify]
    by_cases here : place = i
    · subst here
      cases ps[place]? <;> simp [deactivate_deactivate]
    · simp [here, Ne.symm here]

/-- Deactivating at the places of all brackets, in any order, is deactivating everywhere. -/
theorem foldl_modify_places {places : List Nat} (same : ∀ i, i ∈ places ↔ i ∈ bracketPlaces ps)
    (more : List Piece) :
    places.foldl (fun ps place => ps.modify place Piece.deactivate) (ps ++ more) =
      ps.map Piece.deactivate ++ more := by
  refine List.ext_getElem? fun i => ?_
  rw [getElem?_foldl_modify]
  by_cases within : i < ps.length
  · rw [List.getElem?_append_left within, List.getElem?_append_left (by simpa using within),
      List.getElem?_map, List.getElem?_eq_getElem within]
    split
    · rfl
    · rename_i absent
      have other : ¬ ps[i].isBracket := fun bracket =>
        absent ((same i).mpr (mem_bracketPlaces.mpr ⟨within, bracket⟩))
      rw [Option.map_some, deactivate_of_not_bracket (by simpa using other)]
  · have absent : i ∉ places := fun h => within (mem_bracketPlaces.mp ((same i).mp h)).1
    rw [if_neg absent, List.getElem?_append_right (by omega),
      List.getElem?_append_right (by simp; omega), List.length_map]

/-- Places that are in bounds are deactivated without failing. -/
theorem foldlM_deactivateAt {places : List Nat} (within : ∀ place ∈ places, place < ps.length) :
    places.foldlM StackScan.deactivateAt ps =
      some (places.foldl (fun ps place => ps.modify place Piece.deactivate) ps) := by
  induction places generalizing ps with
  | nil => rfl
  | cons place places ih =>
    obtain ⟨here, later⟩ := List.forall_mem_cons.mp within
    have step : StackScan.deactivateAt ps place = some (ps.modify place Piece.deactivate) := by
      rw [StackScan.deactivateAt, List.modify_eq_set_getElem?, List.getElem?_eq_getElem here]
      rfl
    rw [List.foldlM_cons, step, List.foldl_cons]
    exact ih (by simpa using later)

end Places

/-! ## The stack and the vector -/

/-- The last bracket of a row, and the places of the brackets in the row with its own on top. -/
structure LastBracket (image active : Bool) (before behind : List Piece) (row : List Piece)
    (stack : List Nat) : Prop where
  row : row = before ++ .bracket image active :: behind
  clear : Bracketless behind
  stack : stack = bracketPlaces before ++ [before.length]

namespace LastBracket

variable {image active : Bool} {before behind row : List Piece} {stack : List Nat}

/-- On top of the stack is the place of a bracket. -/
theorem getElem? (h : LastBracket image active before behind row stack) :
    row[before.length]? = some (.bracket image active) := by
  rw [h.row]
  exact EmphasisLoop.getElem?_at rfl

theorem top (h : LastBracket image active before behind row stack) :
    stack.getLast? = some before.length := by
  rw [h.stack, List.getLast?_concat]

theorem pop (h : LastBracket image active before behind row stack) :
    stack.dropLast = bracketPlaces before := by
  rw [h.stack, List.dropLast_concat]

/-- Without its last bracket a row has the places that are left on the stack. -/
theorem places_set (h : LastBracket image active before behind row stack) {p : Piece}
    (other : p.isBracket = false) :
    row.set before.length p = before ++ p :: behind ∧
      bracketPlaces (before ++ p :: behind) = bracketPlaces before := by
  refine ⟨by simp [h.row], bracketPlaces_append_bracketless ?_⟩
  exact List.forall_mem_cons.mpr ⟨other, h.clear⟩

end LastBracket

namespace StackScan

/-- A scan with a vector and a stack that has come as far as a scan by bytes: their pieces are the
same but for texts that are joined, and the places on either side are those of the brackets. -/
structure Follows (v : StackScan) (b : ByteScan) : Prop where
  joined : Joined v.pieces b.pieces.toList
  stack : v.brackets = bracketPlaces v.pieces
  opened : b.brackets = (bracketPlaces b.pieces.toList).reverse

/-- The last brackets of two scans in step, with what is joined before and behind them. -/
structure SameLast (v : StackScan) (b : ByteScan) (image active : Bool)
    (ps post qs post' : List Piece) : Prop where
  here : LastBracket image active ps post v.pieces v.brackets
  row : b.pieces.toList = qs ++ .bracket image active :: post'
  clear : Bracketless post'
  opened : b.brackets = qs.length :: (bracketPlaces qs).reverse
  before : Joined ps qs
  behind : Joined post post'

namespace Follows

variable {source : List Char} {v : StackScan} {b c : ByteScan} {stop : Nat}

theorem toList_push (b : ByteScan) (p : Piece) (stop : Nat) :
    (ByteScan.ofScan (b.scan.push p) stop).pieces.toList = b.pieces.toList ++ [p] :=
  Array.toList_push

theorem push {p : Piece} (h : v.Follows b) (other : p.isBracket = false) (stop : Nat) :
    (v.push p).Follows (.ofScan (b.scan.push p) stop) := by
  have clear : Bracketless [p] := List.forall_mem_singleton.mpr other
  refine ⟨?_, ?_, ?_⟩
  · rw [toList_push]
    exact h.joined.push p
  · exact h.stack.trans (bracketPlaces_append_bracketless clear).symm
  · rw [toList_push, bracketPlaces_append_bracketless clear]
    exact h.opened

theorem pushInline (h : v.Follows b) (i : Inline) (stop : Nat) :
    (v.pushInline i).Follows (.ofScan (b.scan.pushInline i) stop) :=
  h.push rfl stop

/-- Text joined with the text at the end follows text that is pushed. -/
theorem pushText (h : v.Follows b) (t : List Char) (stop : Nat) :
    (v.pushText t).Follows (.ofScan (b.scan.pushText t) stop) := by
  have pushed := h.pushInline (.text t) stop
  unfold StackScan.pushText
  split
  · rename_i s last
    obtain ⟨before, row⟩ := List.getLast?_eq_some_iff.mp last
    have bare (s : List Char) : Bracketless [.inline (.text s)] := List.forall_mem_singleton.mpr rfl
    refine ⟨?_, ?_, pushed.opened⟩
    · rw [row, List.dropLast_concat, Scan.pushText, Scan.pushInline, toList_push]
      exact (row ▸ h.joined).extend t
    · have stack := h.stack
      rw [row, bracketPlaces_append_bracketless (bare s)] at stack
      simpa [row, bracketPlaces_append_bracketless (bare _)] using stack
  · exact pushed

theorem pushText_position (v : StackScan) (t : List Char) :
    (v.pushText t).position = v.position := by
  unfold StackScan.pushText
  split <;> rfl

theorem openBracket (h : v.Follows b) (image : Bool) (stop : Nat) :
    (v.openBracket image).Follows (.ofScan (b.scan.openBracket image) stop) := by
  have clear : Bracketless [] := nofun
  refine ⟨?_, ?_, ?_⟩
  · exact (toList_push b (.bracket image true) stop).symm ▸ h.joined.push (.bracket image true)
  · rw [StackScan.openBracket, StackScan.push, bracketPlaces_last clear, ← h.stack]
  · simp [Scan.openBracket, Scan.push, ByteScan.ofScan, ByteScan.scan, bracketPlaces_last clear,
      h.opened]

/-- The last bracket is on top of the stack, with what is joined around it. -/
theorem last (h : v.Follows b) : (v.brackets = [] ∧ b.brackets = []) ∨
    ∃ image active ps post qs post', SameLast v b image active ps post qs post' := by
  have clear_of {ms ps : List Piece} (joined : Joined ms ps) (clear : Bracketless ps) :
      Bracketless ms := by
    intro p hp
    cases p with
    | inline _ | delim _ => rfl
    | bracket image active => exact clear _ ((joined.mem_iff (fun _ => Piece.noConfusion)).mp hp)
  rcases exists_last_bracket b.pieces.toList with clear | ⟨qs, image, active, post', row, clear⟩
  · left
    rw [h.stack, h.opened, bracketPlaces_bracketless clear,
      bracketPlaces_bracketless (clear_of h.joined clear)]
    exact ⟨rfl, rfl⟩
  · right
    obtain ⟨ps, post, row', before, behind⟩ := (row ▸ h.joined).around fun _ => Piece.noConfusion
    have clear' := clear_of behind clear
    refine ⟨image, active, ps, post, qs, post', ⟨row', clear', ?_⟩, row, clear, ?_, before, behind⟩
    · rw [h.stack, row', bracketPlaces_last clear']
    · rw [h.opened, row, bracketPlaces_last clear, List.reverse_append]
      rfl

end Follows

/-! ## Links -/

section Links

variable {source : List Char} {v : StackScan} {b c : ByteScan} {image active : Bool}
  {ps qs post post' : List Piece}

/-- What is before a link, the brackets around it deactivated unless it is an image, and the
link. -/
def linked (image : Bool) (target : Target) (before behind : List Piece) : List Piece :=
  (if image then before else before.map Piece.deactivate) ++
    [.inline (linkTo image target (finish (resolve [] behind)))]

/-- A link has the place of its bracket no more, and all others stay. -/
theorem bracketPlaces_linked (image : Bool) (target : Target) (ps post : List Piece) :
    bracketPlaces (linked image target ps post) = bracketPlaces ps := by
  rw [linked, bracketPlaces_append_bracketless (List.forall_mem_singleton.mpr rfl)]
  split
  · rfl
  · exact bracketPlaces_map_deactivate ps

theorem joined_linked (before : Joined ps qs) (behind : Joined post post') (target : Target) :
    Joined (linked image target ps post) (linked image target qs post') := by
  have contents : finish (resolve [] post) = finish (resolve [] post') :=
    Joined.finish_eq (Joined.resolve .nil behind)
  rw [linked, linked, contents]
  split
  · exact before.push _
  · exact (before.map fun _ => rfl).push _

/-- Behind the last bracket emphasis is resolved and taken out of the vector. -/
theorem drain_resolved (row : v.pieces = ps ++ .bracket image active :: post) :
    EmphasisLoop.process (ps.length + 1) v.pieces =
        .some (some (ps ++ .bracket image active :: resolve [] post)) ∧
      EmphasisLoop.drain (ps ++ .bracket image active :: resolve [] post) (ps.length + 1)
          (ps ++ .bracket image active :: resolve [] post).length =
        some (resolve [] post, ps ++ [.bracket image active]) := by
  have parts (post : List Piece) : ps ++ .bracket image active :: post =
      ps ++ [.bracket image active] ++ post ++ [] := by simp
  constructor
  · rw [EmphasisLoop.process_eq, Emphasis.process, row]
    simp [List.take_append, List.take_of_length_le]
  · conv => lhs; rw [parts]
    rw [EmphasisLoop.drain_at (by simp) (by simp; omega), List.append_nil]

theorem closeLink_eq (row : v.pieces = ps ++ .bracket image active :: post)
    (stack : v.brackets = bracketPlaces ps) (target : Target) :
    v.closeLink ps.length image target =
      .some (some { v with pieces := linked image target ps post }) := by
  obtain ⟨resolved, drained⟩ := drain_resolved row
  rw [closeLink, resolved, Part.map_some]
  simp only [Option.bind_eq_bind, Option.bind_some, drained, List.take_left]
  have within (p : Piece) : ∀ place ∈ bracketPlaces ps, place < (ps ++ [p]).length := by
    intro place hp
    obtain ⟨within, -⟩ := mem_bracketPlaces.mp hp
    simp
    omega
  cases image with
  | true => rfl
  | false =>
    rw [stack, foldlM_deactivateAt (within _), foldl_modify_places fun _ => Iff.rfl]
    rfl

theorem toList_foldl_modify (places : List Nat) (ps : Array Piece) :
    (places.foldl (fun ps place => ps.modify place Piece.deactivate) ps).toList =
      places.foldl (fun ps place => ps.modify place Piece.deactivate) ps.toList := by
  induction places generalizing ps with
  | nil => rfl
  | cons place places ih => rw [List.foldl_cons, ih, List.foldl_cons, Array.toList_modify]

theorem toList_closeLink {s : Scan} (row : s.pieces.toList = qs ++ .bracket image active :: post)
    (opened : s.brackets = (bracketPlaces qs).reverse) (target : Target) (rest : List Char) :
    (s.closeLink qs.length image target rest).pieces.toList = linked image target qs post := by
  have before : (s.pieces.take qs.length).toList = qs := by simp [row]
  have inside : s.pieces.toList.drop (qs.length + 1) = post := by simp [row]
  unfold Scan.closeLink linked
  dsimp only
  rw [inside]
  cases image with
  | true =>
    rw [if_pos rfl, Array.toList_push, before]
    rfl
  | false =>
    rw [if_neg Bool.false_ne_true, toList_foldl_modify, opened, Array.toList_push, before,
      foldl_modify_places (by simp)]
    rfl

end Links

end StackScan

end MarkdownForest
