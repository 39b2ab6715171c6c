/-
# MarkdownForest.Proofs.BracketStack -- the bracket stack never dangles

Inlines are read with a cursor, a vector of pieces and the stack of the places of
open brackets (`StackScan`), token after token, in a loop that nothing bounds
(`StackScan.parse`).

Each round takes the token at the cursor, and it stays in step with a scan that
keeps the text to come (`Follows`), so whatever tokens came before

* the stack rises, stays in bounds, and has exactly the places of the brackets
  (`Bracketed`); what is on top is therefore a bracket, and none is taken out of
  the vector with the contents of a link;
* no round goes wrong, and each leaves the cursor further on, at a byte where a
  character begins or the text ends: also when a code span or a target moves it
  past its token.

So the loop ends, with the inlines of `parseInlines`.
-/
import MarkdownForest.Proofs.BracketPlaces

namespace MarkdownForest

set_option autoImplicit false

open Text Emphasis

namespace StackScan

/-! ## The loop -/

/-- The token at the cursor and the byte behind it, unless the text is at its end. -/
def next (source : List Char) (v : StackScan) : Option (Option (Token × Nat)) := do
  match ← sliceFrom? v.position source with
  | [] => return none
  | c :: rest =>
    let x := lex c rest
    let stop := v.position + utf8Length x.text
    let text ← slice? v.position stop source
    return some (← Sliced.token { x with text }, stop)

/-- One round: the cursor goes behind the token at it, and further if handling the token moves it.
The loop is over at the end of the text, when the emphasis that is left is resolved, or when
something goes wrong. -/
def round (source : List Char) (v : StackScan) : Part (Option (List Inline) ⊕ StackScan) :=
  match v.next source with
  | none => .some (.inl none)
  | some none => (EmphasisLoop.process 0 v.pieces).map fun resolved => .inl (resolved.map finish)
  | some (some (token, stop)) =>
    (handle source { v with position := stop } token v.position).map fun
      | none => .inl none
      | some (w, seek) => .inr { w with position := seek.getD w.position }

/-- The inlines of a text; `none` if something went wrong. -/
def parse (source : List Char) : Part (Option (List Inline)) :=
  Loop.run (round source) {}

/-- The states of a scan of a text between two tokens. -/
inductive Reached (source : List Char) : StackScan → Prop
  | start : Reached source {}
  | round {v w : StackScan} (before : Reached source v) (step : round source v = .some (.inr w)) :
      Reached source w

/-! ## In step with a scan -/

section Steps

variable {source : List Char} {v : StackScan} {b c : ByteScan}

/-- Handling a token succeeds, in step with a scan by bytes and with the cursor where that goes
on. -/
def Leads (v : StackScan) (handled : Part (Option (StackScan × Option Nat))) (c : ByteScan) :
    Prop :=
  ∃ w seek, handled = .some (some (w, seek)) ∧ w.Follows c ∧ w.position = v.position ∧
    c.position = seek.getD v.position

theorem leads_pushText (h : v.Follows b) (t : List Char) :
    Leads v (.some (some (v.pushText t, none))) (.ofScan (b.scan.pushText t) v.position) :=
  ⟨_, none, rfl, h.pushText t _, Follows.pushText_position v t, rfl⟩

theorem leads_pushInline (h : v.Follows b) (i : Inline) :
    Leads v (.some (some (v.pushInline i, none))) (.ofScan (b.scan.pushInline i) v.position) :=
  ⟨_, none, rfl, h.pushInline i _, rfl, rfl⟩

theorem leads_openBracket (h : v.Follows b) (image : Bool) :
    Leads v (.some (some (v.openBracket image, none)))
      (.ofScan (b.scan.openBracket image) v.position) :=
  ⟨_, none, rfl, h.openBracket image _, rfl, rfl⟩

theorem leads_openCode {count : Nat} (h : v.Follows b)
    (fed : b.openCode? source v.position count = some c) :
    Leads v (.some (v.openCode source count)) c := by
  unfold ByteScan.openCode? at fed
  unfold StackScan.openCode
  obtain ⟨found, span, fed⟩ := Option.bind_eq_some_iff.mp fed
  rw [span]
  cases found with
  | none =>
    cases fed
    exact leads_pushText h _
  | some found =>
    cases fed
    exact ⟨_, some found.2, rfl, h.pushInline _ _, rfl, rfl⟩

theorem leads_pushRun {start count : Nat} {mark : Char} (h : v.Follows b)
    (fed : b.pushRun? source start v.position mark count = some c) :
    Leads v (.some ((v.pushRun source start mark count).map (·, none))) c := by
  unfold ByteScan.pushRun? at fed
  unfold StackScan.pushRun
  obtain ⟨before, here, fed⟩ := Option.bind_eq_some_iff.mp fed
  obtain ⟨after, there, fed⟩ := Option.bind_eq_some_iff.mp fed
  cases fed
  rw [here, there]
  exact ⟨_, none, rfl, h.push rfl _, rfl, rfl⟩

section Brackets

variable {image active : Bool} {ps post qs post' : List Piece}

theorem getElem?_opener (h : SameLast v b image active ps post qs post') :
    b.pieces[qs.length]? = some (.bracket image active) := by
  rw [← Array.getElem?_toList, h.row]
  exact EmphasisLoop.getElem?_at rfl

/-- Without a target the last bracket becomes text on both sides. -/
theorem leads_literal (h : SameLast v b image active ps post qs post') :
    let literal := Piece.inline (.text (Piece.bracketText image))
    let s : Scan := { b.scan with brackets := (bracketPlaces qs).reverse }
    Leads v
      (.some ((assign v.pieces ps.length literal).map fun pieces =>
        (pushText { v with brackets := v.brackets.dropLast, pieces } [']'], none)))
      (.ofScan (Scan.pushText { s with pieces := s.pieces.setIfInBounds qs.length literal } [']'])
        v.position) := by
  intro literal s
  have bare : literal.isBracket = false := rfl
  obtain ⟨row, places⟩ := h.here.places_set bare
  have within : ps.length < v.pieces.length := by
    rw [h.here.row]
    simp
  have row' : (s.pieces.setIfInBounds qs.length literal).toList = qs ++ literal :: post' := by
    rw [Array.toList_setIfInBounds]
    simp [s, ByteScan.scan, h.row]
  rw [assign, if_pos within, row, h.here.pop]
  let v' : StackScan := { v with pieces := ps ++ literal :: post, brackets := bracketPlaces ps }
  let b' : ByteScan := ⟨v.position, s.pieces.setIfInBounds qs.length literal, s.brackets⟩
  have follows : v'.Follows b' := by
    refine ⟨?_, places.symm, ?_⟩
    · rw [row']
      exact h.before.append (.cons literal h.behind)
    · rw [row', bracketPlaces_append_bracketless (List.forall_mem_cons.mpr ⟨bare, h.clear⟩)]
  exact leads_pushText follows [']']

/-- With a target the pieces behind the last bracket become the contents of a link. -/
theorem leads_closeLink (h : SameLast v b image active ps post qs post') (target : Target)
    (after : Nat) :
    let popped : StackScan := { v with brackets := v.brackets.dropLast }
    let s : Scan := { b.scan with brackets := (bracketPlaces qs).reverse }
    Leads v ((popped.closeLink ps.length image target).map fun closed => closed.map (·, some after))
      (.ofScan (s.closeLink qs.length image target []) after) := by
  intro popped s
  have closed := closeLink_eq (v := popped) h.here.row h.here.pop target
  have there := toList_closeLink (s := s) h.row rfl target []
  rw [closed, Part.map_some]
  refine ⟨_, some after, rfl, ⟨?_, ?_, ?_⟩, rfl, rfl⟩
  · rw [ByteScan.ofScan, there]
    exact joined_linked h.before h.behind target
  · exact h.here.pop.trans (bracketPlaces_linked image target ps post).symm
  · rw [ByteScan.ofScan, there, bracketPlaces_linked]
    rfl

end Brackets

theorem leads_closeBracket (h : v.Follows b)
    (fed : b.closeBracket? source v.position = some c) : Leads v (v.closeBracket source) c := by
  unfold ByteScan.closeBracket? at fed
  unfold StackScan.closeBracket
  rcases h.last with ⟨none, none'⟩ | ⟨image, active, ps, post, qs, post', last⟩
  · rw [none'] at fed
    rw [none]
    cases fed
    exact leads_pushText h _
  · rw [last.here.top]
    rw [last.opened] at fed
    dsimp only at fed ⊢
    rw [last.here.getElem?]
    rw [getElem?_opener last] at fed
    cases active with
    | false =>
      cases fed
      exact leads_literal last
    | true =>
      obtain ⟨found, target, fed⟩ := Option.bind_eq_some_iff.mp fed
      dsimp only
      rw [if_pos rfl, target]
      cases found with
      | none =>
        cases fed
        exact leads_literal last
      | some found =>
        cases fed
        exact leads_closeLink last found.1 found.2

/-- Handling a token keeps in step with a scan by bytes that reads its lexeme. -/
theorem leads_handle {x : Lexeme} {start : Nat} (h : v.Follows b)
    (fed : b.feed? source x start v.position = some c) :
    Leads v (handle source v x.token start) c := by
  unfold ByteScan.feed? at fed
  obtain ⟨token, text, rest⟩ := x
  cases token with
  | backticks count => exact leads_openCode h fed
  | stars count | underscores count => exact leads_pushRun h fed
  | closeBracket => exact leads_closeBracket h fed
  | linkOpen | imageOpen =>
    cases fed
    exact leads_openBracket h _
  | hardBreak | softBreak | uriAutolink _ | emailAutolink _ | htmlTag _ =>
    cases fed
    exact leads_pushInline h _
  | text _ | spaces _ | escaped _ | backslash | bang | bracket =>
    cases fed
    exact leads_pushText h _

end Steps

/-! ## Where the cursor goes -/

section Cursor

variable {source s : List Char} {v w : StackScan} {stop p : Nat}

/-- The cursor is not moved, or it is moved past the byte `stop`, to where a character begins or the
text ends. -/
def SeeksPast (source : List Char) (stop : Nat) (seek : Option Nat) : Prop :=
  ∀ p, seek = some p → stop < p ∧ ∃ rest, sliceFrom? p source = some rest

theorem seeksPast_none : SeeksPast source stop none := nofun

theorem seeksPast_of_shorter {rest : List Char} (begins : sliceFrom? stop source = some s)
    (there : sliceFrom? p source = some rest) (shorter : rest.length < s.length) :
    SeeksPast source stop (some p) := by
  rintro _ ⟨⟩
  exact ⟨lt_of_sliceFrom? begins there shorter, rest, there⟩

theorem seeksPast_openCode {count : Nat} {seek : Option Nat} (positive : 0 < count)
    (begins : sliceFrom? v.position source = some s)
    (handled : v.openCode source count = some (w, seek)) : SeeksPast source v.position seek := by
  unfold openCode at handled
  rcases Sliced.codeSpan_eq count begins with
    ⟨-, none⟩ | ⟨inside, rest, close, closed, span, there⟩
  · rw [none] at handled
    cases handled
    exact seeksPast_none
  · rw [span] at handled
    cases handled
    have ticks : utf8Length (List.replicate count '\x60') = count := by
      rw [(narrow_replicate (by decide) count).utf8Length_eq, List.length_replicate]
    have after := sliceFrom?_add there
    rw [ticks] at after
    refine seeksPast_of_shorter begins after ?_
    rcases Sliced.closingRun_eq count 0 s with ⟨none, -⟩ | ⟨inside', rest', closed', -, e⟩
    · cases none.symm.trans closed
    · cases closed'.symm.trans closed
      rw [e]
      simp
      omega

theorem seeksPast_target {target : Target} {after : Nat}
    (begins : sliceFrom? v.position source = some s)
    (found : Sliced.target source v.position = some (some (target, after))) :
    SeeksPast source v.position (some after) := by
  rcases Sliced.target_eq begins with ⟨-, none⟩ | ⟨t, rest, close, read, there, closes⟩
  · cases none.symm.trans found
  · cases there.symm.trans found
    exact seeksPast_of_shorter begins (sliceFrom?_next closes) (Target.length_read?_lt read)

theorem seeksPast_closeBracket {seek : Option Nat}
    (begins : sliceFrom? v.position source = some s)
    (handled : v.closeBracket source = .some (some (w, seek))) :
    SeeksPast source v.position seek := by
  unfold closeBracket at handled
  split at handled
  · cases Part.some_inj.mp handled
    exact seeksPast_none
  · dsimp only at handled
    split at handled
    · cases Part.some_inj.mp handled
    · split at handled
      · cases Part.some_inj.mp handled
      · obtain ⟨_, -, e⟩ := Option.map_eq_some_iff.mp (Part.some_inj.mp handled)
        cases e
        exact seeksPast_none
      · rename_i found
        obtain ⟨closed, -, e⟩ := (Part.mem_map_iff _).mp (Part.eq_some_iff.mp handled)
        obtain ⟨_, -, e⟩ := Option.map_eq_some_iff.mp e
        cases e
        split at found
        · exact seeksPast_target begins found
        · cases found
    · cases Part.some_inj.mp handled
      exact seeksPast_none

end Cursor

/-! ## Rounds -/

/-- The stack rises, stays in bounds, and has the places of the brackets and no others. -/
structure Bracketed (pieces : List Piece) (brackets : List Nat) : Prop where
  rises : brackets.Pairwise (· < ·)
  inBounds : ∀ i ∈ brackets, i < pieces.length
  mem_iff : ∀ i, i ∈ brackets ↔ ∃ image active, pieces[i]? = some (.bracket image active)

theorem bracketed_places (ps : List Piece) : Bracketed ps (bracketPlaces ps) where
  rises := List.pairwise_findIdxs
  inBounds i hi := (mem_bracketPlaces.mp hi).1
  mem_iff i := by
    rw [mem_bracketPlaces]
    constructor
    · rintro ⟨within, bracket⟩
      rw [List.getElem?_eq_getElem within]
      cases h : ps[i] with
      | bracket image active => exact ⟨image, active, rfl⟩
      | inline _ | delim _ => simp [h, Piece.isBracket] at bracket
    · rintro ⟨image, active, there⟩
      obtain ⟨within, e⟩ := List.getElem?_eq_some_iff.mp there
      exact ⟨within, by rw [e]; rfl⟩

/-- A round that handles a token: it leaves the cursor behind the token or further on. -/
structure Turn (source : List Char) (v : StackScan) (token : Token) (stop : Nat) (w : StackScan)
    (seek : Option Nat) : Prop where
  next : v.next source = some (some (token, stop))
  onward : v.position < stop
  handled : handle source { v with position := stop } token v.position = .some (some (w, seek))
  past : SeeksPast source stop seek
  round : round source v = .some (.inr { w with position := seek.getD stop })

/-- What holds of a scan between two tokens. -/
structure Upright (source : List Char) (v : StackScan) : Prop where
  places : Bracketed v.pieces v.brackets
  /-- A closing bracket finds a bracket at the place that it takes off the stack. -/
  opener : ∀ opener, v.brackets.getLast? = some opener →
    ∃ image active, v.pieces[opener]? = some (.bracket image active)
  /-- What a link would take out of the vector has no bracket. -/
  contents : ∀ opener, v.brackets.getLast? = some opener → ∃ resolved inside kept,
    EmphasisLoop.process (opener + 1) v.pieces = .some (some resolved) ∧
      EmphasisLoop.drain resolved (opener + 1) resolved.length = some (inside, kept) ∧
        Bracketless inside
  /-- The round is the last, or it handles a token. -/
  round : (v.next source = some none ∧
      round source v = .some (.inl (some (parseInlines source)))) ∨
    ∃ token stop w seek, Turn source v token stop w seek

section Rounds

variable {source : List Char} {v : StackScan} {b : ByteScan} {s : Scan}

/-- The token at the cursor is that of the next lexeme. -/
theorem next_eq {before s : List Char} (e : source = before ++ s)
    (position : v.position = utf8Length before) :
    v.next source = match s with
      | [] => some none
      | c :: rest =>
        some (some ((lex c rest).token, v.position + utf8Length (lex c rest).text)) := by
  have begins : sliceFrom? v.position source = some s := by
    rw [position, e]
    exact sliceFrom?_append before s
  unfold next
  rw [begins]
  cases s with
  | nil => rfl
  | cons c rest =>
    have tiles : source = before ++ (lex c rest).text ++ (lex c rest).rest := by
      rw [List.append_assoc, lex_append, e]
    have cut : slice? v.position (v.position + utf8Length (lex c rest).text) source =
        some (lex c rest).text := by
      rw [position]
      conv => lhs; rw [tiles]
      exact slice?_append _ _ _
    have token : Sliced.token ⟨(lex c rest).token, (lex c rest).text, (lex c rest).rest⟩ =
      some (lex c rest).token := Sliced.token_eq c rest
    simp only [Option.bind_eq_bind, Option.bind_some, cut, token]
    rfl

theorem seeksPast_handle {token : Token} {start : Nat} {w : StackScan} {seek : Option Nat}
    {rest : List Char} (positive : ∀ count, token = .backticks count → 0 < count)
    (begins : sliceFrom? v.position source = some rest)
    (handled : handle source v token start = .some (some (w, seek))) :
    SeeksPast source v.position seek := by
  cases token with
  | backticks count =>
    exact seeksPast_openCode (positive count rfl) begins (Part.some_inj.mp handled)
  | closeBracket => exact seeksPast_closeBracket begins handled
  | stars count | underscores count =>
    obtain ⟨_, -, e⟩ := Option.map_eq_some_iff.mp (Part.some_inj.mp handled)
    cases e
    exact seeksPast_none
  | _ =>
    cases Part.some_inj.mp handled
    exact seeksPast_none

/-- At the end of the text the emphasis that is left is resolved. -/
theorem round_end (f : v.Follows b) (ended : v.next source = some none) :
    round source v = .some (.inl (some (finish (resolve [] b.pieces.toList)))) := by
  have same : finish (resolve [] v.pieces) = finish (resolve [] b.pieces.toList) :=
    Joined.finish_eq (Joined.resolve .nil f.joined)
  rw [round, ended]
  simp [EmphasisLoop.process_eq, Emphasis.process, same]

/-- Before the end of the text a round handles the token at the cursor. -/
theorem round_token {c : Char} {rest : List Char} (h : ByteScan.At source b s) (f : v.Follows b)
    (position : v.position = b.position) (more : s.rest = c :: rest) :
    ∃ stop w seek, Turn source v (lex c rest).token stop w seek ∧
      ∃ b', ByteScan.At source b' (s.feed (lex c rest)) ∧
        Follows { w with position := seek.getD stop } b' ∧ seek.getD stop = b'.position := by
  obtain ⟨before, e, bytes, last⟩ := h.read
  rw [more] at e
  have tiles : source = before ++ ((lex c rest).text ++ (lex c rest).rest) := by
    rw [lex_append, e]
  have filled := lex_text_ne_nil c rest
  have positive : ∀ count, (lex c rest).token = .backticks count → 0 < count := fun count eq => by
    have normal := lex_normal c rest
    rwa [eq] at normal
  obtain ⟨b', fed, at'⟩ := ByteScan.feed?_eq tiles filled positive last h.pieces h.brackets
  have here : v.position = utf8Length before := position.trans bytes
  have next : v.next source = _ := next_eq e here
  let stop := v.position + utf8Length (lex c rest).text
  rw [← here] at fed
  obtain ⟨w, seek, handled, follows, stays, goes⟩ :=
    leads_handle (v := { v with position := stop }) ⟨f.joined, f.stack, f.opened⟩ fed
  have begins : sliceFrom? stop source = some (lex c rest).rest := by
    have := ByteScan.sliceFrom?_behind tiles
    rwa [← here] at this
  refine ⟨stop, w, seek, ⟨next, ?_, handled, ?_, ?_⟩, b', at', ?_, goes.symm⟩
  · have := length_le_utf8Length (lex c rest).text
    have := List.length_pos_iff.mpr filled
    omega
  · exact seeksPast_handle (v := { v with position := stop }) positive begins handled
  · rw [round, next]
    dsimp only
    rw [handled, Part.map_some]
    dsimp only
    rw [stays]
  · exact ⟨follows.joined, follows.stack, follows.opened⟩

/-- From wherever it has come in step with a scan, the loop ends with the inlines of that scan. -/
theorem run_eq (h : ByteScan.At source b s) (f : v.Follows b) (position : v.position = b.position) :
    Loop.run (round source) v = .some (some (finish (resolve [] s.run.toList))) := by
  induction left : s.rest.length using Nat.strongRecOn generalizing v b s with
  | ind n ih =>
    cases more : s.rest with
    | nil =>
      obtain ⟨before, e, bytes, -⟩ := h.read
      rw [more] at e
      have ended : v.next source = _ := next_eq e (position.trans bytes)
      rw [Loop.run_over (round_end f ended), h.pieces, Scan.run_nil more]
    | cons c rest =>
      obtain ⟨stop, w, seek, turn, b', at', f', position'⟩ := round_token h f position more
      have shorter := Scan.length_rest_feed_lt more
      rw [Loop.run_next turn.round, Scan.run_cons c rest more]
      exact ih _ (by omega) at' f' position' rfl

/-- A reached state is in step with a scan of the text, which is to end as the one from the
start. -/
theorem Reached.inStep (reached : Reached source v) :
    ∃ b s, ByteScan.At source b s ∧ v.Follows b ∧ v.position = b.position ∧
      s.run = Scan.run { rest := source } := by
  induction reached with
  | start =>
    have start : ByteScan.At source {} { rest := source } := ⟨⟨[], rfl, rfl, rfl⟩, rfl, rfl⟩
    exact ⟨{}, _, start, ⟨.nil, rfl, rfl⟩, rfl, rfl⟩
  | @round v w _ step ih =>
    obtain ⟨b, s, h, f, position, same⟩ := ih
    cases more : s.rest with
    | nil =>
      obtain ⟨before, e, bytes, -⟩ := h.read
      rw [more] at e
      have last := round_end f (next_eq e (position.trans bytes))
      cases Part.some_inj.mp (last.symm.trans step)
    | cons c rest =>
      obtain ⟨stop, w, seek, turn, b', at', f', position'⟩ := round_token h f position more
      cases Part.some_inj.mp (turn.round.symm.trans step)
      exact ⟨b', _, at', f', position', by rw [← Scan.run_cons c rest more, same]⟩

/-- A reached state is upright: its stack has exactly the brackets, and its next round succeeds. -/
theorem Reached.upright (reached : Reached source v) : Upright source v := by
  obtain ⟨b, s, h, f, position, same⟩ := reached.inStep
  refine ⟨f.stack ▸ bracketed_places v.pieces, fun opener top => ?_, fun opener top => ?_, ?_⟩
  · rcases f.last with ⟨none, -⟩ | ⟨image, active, ps, post, qs, post', last⟩
    · cases (none ▸ top)
    · cases last.here.top.symm.trans top
      exact ⟨image, active, last.here.getElem?⟩
  · rcases f.last with ⟨none, -⟩ | ⟨image, active, ps, post, qs, post', last⟩
    · cases (none ▸ top)
    · cases last.here.top.symm.trans top
      obtain ⟨resolved, drained⟩ := drain_resolved last.here.row
      exact ⟨_, _, _, resolved, drained, bracketless_resolve nofun last.here.clear⟩
  · cases more : s.rest with
    | nil =>
      obtain ⟨before, e, bytes, -⟩ := h.read
      rw [more] at e
      have ended : v.next source = _ := next_eq e (position.trans bytes)
      refine .inl ⟨ended, ?_⟩
      rw [round_end f ended, h.pieces, ← Scan.run_nil more, same]
      rfl
    | cons c rest =>
      obtain ⟨stop, w, seek, turn, -⟩ := round_token h f position more
      exact .inr ⟨_, stop, w, seek, turn⟩

/-- Before every token of a text the stack has exactly the places of the brackets among the pieces,
in rising order; what is on top of it is a bracket, and the contents of a link have none.  Every
round succeeds, and moves the cursor behind its token, or past it to where a character begins.  So
the loop ends, with the inlines of the text. -/
theorem parse_brackets (source : List Char) :
    (∀ v, Reached source v → Upright source v) ∧
      parse source = .some (some (parseInlines source)) := by
  have start : ByteScan.At source {} { rest := source } := ⟨⟨[], rfl, rfl, rfl⟩, rfl, rfl⟩
  exact ⟨fun v reached => reached.upright, run_eq start ⟨.nil, rfl, rfl⟩ rfl⟩

/-- Inside of the image in a link the stack has the places of both brackets. -/
theorem parse_brackets_nested :
    let source := "[![a](b)](c)".toList
    ∃ v, Reached source v ∧ v.brackets = [0, 1] ∧ Upright source v ∧
      parse source = .some (some (parseInlines source)) := by
  intro source
  obtain ⟨upright, parsed⟩ := parse_brackets source
  have reached : Reached source _ := .round (.round .start rfl) rfl
  exact ⟨_, reached, rfl, upright _ reached, parsed⟩

end Rounds

end StackScan

end MarkdownForest
