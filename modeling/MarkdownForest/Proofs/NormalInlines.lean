/-
# MarkdownForest.Proofs.NormalInlines -- what is read is in normal form

Whatever the text, its inlines are in normal form (`parseInlines_normal`).

The pieces of a scan stay in normal form from lexeme to lexeme (`Scan.Normal`):
a lexeme stands for something (`lex_normal`), and one that is a run takes all
its marks, so that the next piece is no run of the same mark.
-/
import MarkdownForest.Proofs.NormalPieces
import MarkdownForest.Proofs.Scanning

namespace MarkdownForest

set_option autoImplicit false

open Inline

/-! ## Lexemes -/

/-- What a lexeme that begins with `first` and leaves `rest` tells of its token: there is something
in it, and a run takes all the marks there are. -/
def Token.Normal (first : Char) (rest : List Char) : Token → Prop
  | text u => u ≠ [] ∧ Unbroken u
  | spaces u => u ≠ [] ∧ '\n' ∉ u
  | escaped c => c ≠ '\n'
  | backticks count => 0 < count
  | stars count => first = '*' ∧ 0 < count ∧ rest.head? ≠ some '*'
  | underscores count => first = '_' ∧ 0 < count ∧ rest.head? ≠ some '_'
  | uriAutolink url => url ≠ [] ∧ '\n' ∉ url
  | emailAutolink address => address ≠ [] ∧ '\n' ∉ address
  | _ => True

namespace Lexeme

theorem head?_dropWhile_ne (m : Char) (s : List Char) :
    (s.dropWhile (· == m)).head? ≠ some m := fun e => by
  have := List.head?_dropWhile_not (· == m) s
  rw [e] at this
  simp at this

theorem ofSpace_normal (s : List Char) : (ofSpace s).token.Normal ' ' (ofSpace s).rest := by
  have spaces : '\n' ∉ s.takeWhile (· == ' ') := fun h => by
    have := List.mem_takeWhile_imp h
    simp at this
  unfold ofSpace
  dsimp only
  split
  · split <;> trivial
  · exact ⟨by simp, by simpa using spaces⟩

theorem ofBackslash_normal (s : List Char) :
    (ofBackslash s).token.Normal '\\' (ofBackslash s).rest := by
  unfold ofBackslash
  split
  · trivial
  · split
    · trivial
    · split
      · assumption
      · trivial

theorem ofAngle_normal (s : List Char) : (ofAngle s).token.Normal '<' (ofAngle s).rest := by
  have filled := angleRun_ne_nil 0 ['<'] s (by decide)
  cases h : (angleRun 0 ['<'] s).1 with
  | bracket | tag => simp [ofAngle, h, angleToken, Token.Normal]
  | text =>
    have token : (ofAngle s).token = .text (angleRun 0 ['<'] s).2.1.reverse := by
      simp [ofAngle, h, angleToken]
    rw [token]
    exact ⟨by simpa using filled, .of_unfinished ⟨s, token⟩⟩
  | uri | email =>
    obtain ⟨inside, e, filled, line⟩ := autolink_eq (s := s) (by rw [h]; rfl)
    have inner : ((angleRun 0 ['<'] s).2.1.reverse.drop 1).dropLast = inside := by simp [e]
    simp only [ofAngle, h, angleToken, inner, Token.Normal]
    exact ⟨filled, line⟩

theorem run_plain_normal {c : Char} (hc : c ≠ '\n') (s : List Char) :
    c :: s.takeWhile isPlain ≠ [] ∧ Unbroken (c :: s.takeWhile isPlain) := by
  refine ⟨by simp, .of_line fun feed => ?_⟩
  rcases List.mem_cons.mp feed with rfl | feed
  · exact hc rfl
  · exact absurd (List.mem_takeWhile_imp feed) (by decide)

end Lexeme

open Lexeme in
theorem lex_normal (c : Char) (s : List Char) : (lex c s).token.Normal c (lex c s).rest := by
  unfold lex
  split
  · exact ofSpace_normal s
  · trivial
  · exact ofBackslash_normal s
  · simp [Lexeme.run, Token.Normal]
  · exact ⟨rfl, by simp, head?_dropWhile_ne '*' s⟩
  · exact ⟨rfl, by simp, head?_dropWhile_ne '_' s⟩
  · trivial
  · trivial
  · split <;> trivial
  · exact ofAngle_normal s
  · rename_i feed _ _ _ _ _ _ _ _
    exact run_plain_normal feed s

/-! ## Scans -/

namespace Scan

/-- The pieces so far are in normal form, and a run at their end is not gone on with. -/
structure Normal (s : Scan) : Prop where
  pieces : NormalPieces s.pieces.toList
  ended : ∀ m, lastMark s.pieces.toList = some m → s.rest.head? ≠ some m

variable {s : Scan}

theorem push_normal {p : Piece} (h : NormalPieces s.pieces.toList) (hp : p.Normal)
    (other : p.mark?.isSome → lastMark s.pieces.toList ≠ p.mark?)
    (ended : ∀ m, p.mark? = some m → s.rest.head? ≠ some m) : (s.push p).Normal where
  pieces := by simpa [push] using h.push hp other
  ended m hm := ended m (by simpa [push] using hm)

/-- An inline in normal form may come after any pieces. -/
theorem pushInline_normal {i : Inline} (h : NormalPieces s.pieces.toList) (hi : i.Normal) :
    (s.pushInline i).Normal :=
  push_normal (p := .inline i) h hi nofun nofun

theorem pushText_normal {t : List Char} (h : NormalPieces s.pieces.toList) (filled : t ≠ [])
    (line : Unbroken t) : (s.pushText t).Normal :=
  pushInline_normal h ⟨filled, line⟩

/-- A text without line feeds. -/
theorem pushLine_normal {t : List Char} (h : NormalPieces s.pieces.toList) (filled : t ≠ [])
    (line : '\n' ∉ t) : (s.pushText t).Normal :=
  pushText_normal h filled (.of_line line)

/-- A run may come after pieces at whose end is no run of its mark. -/
theorem pushRun_normal {m : Char} {count : Nat} {before : Option Char}
    (h : NormalPieces s.pieces.toList) (mark : m ≠ '\n') (positive : 0 < count)
    (other : lastMark s.pieces.toList ≠ some m) (ended : s.rest.head? ≠ some m) :
    (s.pushRun m count before).Normal := by
  refine push_normal (p := .delim (Delim.ofRun m count before s.rest.head?)) h ⟨positive, mark⟩
    (fun _ => other) fun n hn => ?_
  obtain rfl : m = n := Option.some.inj hn
  exact ended

theorem openBracket_normal {image : Bool} (h : NormalPieces s.pieces.toList) :
    (s.openBracket image).Normal :=
  have pushed := push_normal (p := .bracket image true) h trivial nofun nofun
  ⟨pushed.pieces, pushed.ended⟩

theorem openCode_normal {count : Nat} (h : NormalPieces s.pieces.toList) (positive : 0 < count) :
    (s.openCode count).Normal := by
  unfold openCode
  split
  · rename_i inside rest _
    exact pushInline_normal (s := { s with before := some '\x60', rest }) (i := .code _) h trivial
  · refine pushLine_normal h (by simpa using Nat.pos_iff_ne_zero.mp positive) fun feed => ?_
    exact absurd (List.eq_of_mem_replicate feed) (by decide)

/-! ### Brackets -/

/-- Deactivating brackets keeps pieces in normal form, and their marks. -/
theorem deactivated_normal (places : List Nat) {ps : Array Piece} (h : NormalPieces ps.toList) :
    NormalPieces (places.foldl (fun ps place => ps.modify place Piece.deactivate) ps).toList ∧
      (places.foldl (fun ps place => ps.modify place Piece.deactivate) ps).toList.map Piece.mark? =
        ps.toList.map Piece.mark? := by
  induction places generalizing ps with
  | nil => exact ⟨h, rfl⟩
  | cons place places ih =>
    have marks : (ps.modify place Piece.deactivate).toList.map Piece.mark? =
        ps.toList.map Piece.mark? := by
      refine List.ext_getElem? fun i => ?_
      simp only [Array.toList_modify, List.getElem?_map, List.getElem?_modify]
      split <;> cases ps.toList[i]? <;> simp
    have each : ∀ p ∈ (ps.modify place Piece.deactivate).toList, p.Normal := by
      intro p hp
      obtain ⟨i, hi⟩ := List.mem_iff_getElem?.mp hp
      simp only [Array.toList_modify, List.getElem?_modify] at hi
      split at hi
      · obtain ⟨q, hq, rfl⟩ := Option.map_eq_some_iff.mp hi
        exact Piece.deactivate_normal (h.each q (List.mem_of_getElem? hq))
      · exact h.each p (List.mem_of_getElem? (by simpa using hi))
    obtain ⟨normal, same⟩ := ih (h.of_marks each marks)
    exact ⟨normal, same.trans marks⟩

theorem closeLink_normal {opener : Nat} {image : Bool} {target : Target} {rest : List Char}
    (h : NormalPieces s.pieces.toList) : (s.closeLink opener image target rest).Normal := by
  have inside := finish_normal
    (Emphasis.resolve_normal [] _ (by simpa using h.drop (opener + 1))).each
  have before : NormalPieces (s.pieces.take opener).toList := by simpa using h.take opener
  have linked : ∀ i : Inline, i.Normal →
      (({ s with pieces := s.pieces.take opener } : Scan).pushInline i).Normal :=
    fun i hi => pushInline_normal before hi
  unfold closeLink
  cases image with
  | true =>
    have image := linked (.image target.url target.title _) inside
    exact ⟨image.pieces, fun m hm => by simp [Piece.mark?] at hm⟩
  | false =>
    have link := linked (.link target.url target.title _) inside
    obtain ⟨normal, marks⟩ := deactivated_normal s.brackets link.pieces
    refine ⟨normal, fun m hm => ?_⟩
    have last := (lastMark_of_marks marks).symm.trans hm
    simp [pushInline, push, Piece.mark?] at last

/-- A closing bracket leaves pieces in normal form, with no run at their end. -/
theorem closeBracket_normal (h : NormalPieces s.pieces.toList) : s.closeBracket.Normal := by
  have literal : ∀ t : Scan, NormalPieces t.pieces.toList → (t.pushText [']']).Normal :=
    fun t ht => pushLine_normal ht (by simp) (by decide)
  unfold closeBracket
  split
  · exact literal s h
  · rename_i opener brackets _
    dsimp only
    split
    · rename_i image active found
      split
      · exact closeLink_normal (s := { s with brackets }) h
      · refine literal _ (h.of_marks (fun p hp => ?_) ?_)
        · rw [Array.toList_setIfInBounds] at hp
          rcases List.mem_or_eq_of_mem_set hp with hp | rfl
          · exact h.each p hp
          · exact Piece.toInline_normal (p := .bracket image active) trivial
        · -- The bracket has no mark, and neither has the text in its place.
          rw [Array.toList_setIfInBounds, List.map_set]
          have marked : (s.pieces.toList.map Piece.mark?)[opener]? = some none := by
            rw [List.getElem?_map, Array.getElem?_toList, found]
            rfl
          obtain ⟨inside, e⟩ := List.getElem?_eq_some_iff.mp marked
          exact (congrArg _ e.symm).trans (List.set_getElem_self inside)
    · exact literal _ h

/-- A lexeme leaves pieces in normal form. -/
theorem feed_normal {c : Char} {rest : List Char} (h : s.Normal) (hr : s.rest = c :: rest) :
    (s.feed (lex c rest)).Normal := by
  have normal := lex_normal c rest
  have other : ∀ m, c = m → lastMark s.pieces.toList ≠ some m := fun m e last =>
    h.ended m last (by rw [hr, e]; rfl)
  have pieces := h.pieces
  unfold feed
  dsimp only
  generalize lex c rest = x at normal ⊢
  obtain ⟨token, text, after⟩ := x
  cases token with
  | text u => exact pushText_normal pieces normal.1 normal.2
  | spaces u => exact pushLine_normal pieces normal.1 normal.2
  | hardBreak => exact pushInline_normal (i := .lineBreak) pieces trivial
  | softBreak => exact pushInline_normal (i := .softBreak) pieces trivial
  | escaped d => exact pushLine_normal pieces (by simp) (by simpa using Ne.symm normal)
  | backslash | bang | bracket => exact pushLine_normal pieces (by simp) (by decide)
  | backticks count => exact openCode_normal pieces normal
  | stars count | underscores count =>
    obtain ⟨first, positive, ended⟩ := normal
    exact pushRun_normal pieces (by decide) positive (other _ first) ended
  | imageOpen | linkOpen => exact openBracket_normal pieces
  | closeBracket => exact closeBracket_normal pieces
  | uriAutolink url =>
    have text : Inline.Normal (.text url) := ⟨normal.1, .of_line normal.2⟩
    exact pushInline_normal (i := .link _ _ _) pieces ⟨.singleton _, text, trivial⟩
  | emailAutolink address =>
    have text : Inline.Normal (.text address) := ⟨normal.1, .of_line normal.2⟩
    exact pushInline_normal (i := .link _ _ _) pieces ⟨.singleton _, text, trivial⟩
  | htmlTag raw => exact pushInline_normal (i := .html raw) pieces trivial

/-- A scan that has pieces in normal form ends with such. -/
theorem run_normal (h : s.Normal) : NormalPieces s.run.toList := by
  induction hn : s.rest.length using Nat.strong_induction_on generalizing s with
  | _ n ih =>
    subst hn
    cases hr : s.rest with
    | nil => exact run_nil hr ▸ h.pieces
    | cons c rest =>
      rw [run_cons c rest hr]
      exact ih _ (length_rest_feed_lt hr) (feed_normal h hr) rfl

end Scan

/-- The inlines of a text are in normal form. -/
theorem parseInlines_normal (source : List Char) :
    Apart (parseInlines source) ∧ NormalList (parseInlines source) := by
  have pieces : NormalPieces (Scan.run { rest := source }).toList :=
    Scan.run_normal ⟨.nil, nofun⟩
  exact finish_normal (Emphasis.resolve_normal [] _ pieces).each

end MarkdownForest
