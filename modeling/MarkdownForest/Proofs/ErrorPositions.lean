/-
# MarkdownForest.Proofs.ErrorPositions -- where a reading stops

A reading stops at the first line of a container that is nested too deep, and
the error has the offset of that line as it is inside the containers around it.

* `failure_meets`: the line is that of a block that is met inside as many quotes
  and lists as the limit allows;
* `Line.EndOf`: a line inside containers is an end of a line of the source, and
  its offset counts the bytes in front of it there (`Meets.endOf`);
* `parse_nestingTooDeep`: so the error points at the marker of the container,
  unless tabs stand among the leading blanks of the line.  These are spaces by
  then, and the offset counts the spaces (`parse_behind_tab`).
-/
import MarkdownForest.Proofs.BlocksInside
import MarkdownForest.Proofs.LineSlices
import MarkdownForest.Proofs.Nesting
import MarkdownForest.Proofs.SourceLines

namespace MarkdownForest

set_option autoImplicit false

open Text

/-! ## The container that stops a reading -/

/-- The reading stopped at a container that begins with `l`, inside `n` others. -/
structure StopsAt (o : ParseOptions) (e : NestingTooDeep) (lines : List Line) (n : Nat) (l : Line)
    (ls : List Line) : Prop where
  limit : e.limit = o.maxNesting
  position : e.position = l.offset
  met : Meets lines n l ls
  container : (Layout.take l ls).layout.kind = .blockQuote ∨ (Layout.take l ls).layout.kind = .list

/-- What stops the reading of a container or of what follows it. -/
theorem Parsed.failure_within_eq_some {c : Content} {separated : Bool} {inside more : Parsed}
    {e : NestingTooDeep} (h : (Parsed.within c separated inside more).failure = some e) :
    inside.failure = some e ∨ more.failure = some e := by
  unfold within at h
  dsimp only at h
  split at h
  · rename_i failed
    exact .inl (failed.trans h)
  · exact .inr h

/-- A reading stops where as many containers are open as the limit allows. -/
theorem lineInduction_stopsAt (o : ParseOptions) :
    LineInduction o
      (fun depth lines p => depth ≤ o.maxNesting → ∀ e, p.failure = some e →
        ∃ n l ls, StopsAt o e lines n l ls ∧ depth + n = o.maxNesting)
      fun depth items p => depth ≤ o.maxNesting → ∀ e, p.failure = some e →
        ∃ item ∈ items, ∃ n l ls, StopsAt o e item n l ls ∧ depth + n = o.maxNesting where
  noBlocks := by
    intro depth _ e h
    cases h
  noItems := by
    intro depth _ e h
    cases h
  blank := by
    intro depth l ls p hl more room e h
    obtain ⟨n, k, ks, stops, deep⟩ := more room e h
    exact ⟨n, k, ks, { stops with met := .blank hl stops.met }, deep⟩
  tooDeep := by
    intro depth l ls filled container full room e h
    obtain rfl := Option.some.inj h
    exact ⟨0, l, ls, ⟨rfl, rfl, .here filled, container⟩, Nat.le_antisymm room full⟩
  leaf := by
    intro depth l ls separated more filled after room e h
    obtain ⟨n, k, ks, stops, deep⟩ := after room e h
    exact ⟨n, k, ks, { stops with met := .after filled stops.met }, deep⟩
  quote := by
    intro depth l ls offset inner separated inside more filled opens fits within after room e h
    rcases Parsed.failure_within_eq_some h with h | h
    · obtain ⟨n, k, ks, stops, deep⟩ := within fits e h
      exact ⟨n + 1, k, ks, { stops with met := .quote filled opens stops.met }, by omega⟩
    · obtain ⟨n, k, ks, stops, deep⟩ := after room e h
      exact ⟨n, k, ks, { stops with met := .after filled stops.met }, deep⟩
  list := by
    intro depth l ls offset m items spaced tight separated inside more filled opens fits _ within
      after room e h
    rcases Parsed.failure_within_eq_some h with h | h
    · obtain ⟨item, mem, n, k, ks, stops, deep⟩ := within fits e h
      exact ⟨n + 1, k, ks, { stops with met := .list filled opens mem stops.met }, by omega⟩
    · obtain ⟨n, k, ks, stops, deep⟩ := after room e h
      exact ⟨n, k, ks, { stops with met := .after filled stops.met }, deep⟩
  item := by
    intro depth item items inside more within after room e h
    rcases Parsed.failure_within_eq_some h with h | h
    · exact ⟨item, List.mem_cons_self, within room e h⟩
    · obtain ⟨item', mem, stops⟩ := after room e h
      exact ⟨item', List.mem_cons_of_mem _ mem, stops⟩

theorem failure_meets {o : ParseOptions} {lines : List Line} {e : NestingTooDeep}
    (h : (parseBlocks o 0 false false lines).failure = some e) :
    ∃ l ls, StopsAt o e lines o.maxNesting l ls := by
  obtain ⟨n, l, ls, stops, deep⟩ :=
    (lineInduction_stopsAt o).blocks 0 false false lines (Nat.zero_le _) e h
  rw [Nat.zero_add] at deep
  exact ⟨l, ls, deep ▸ stops⟩

/-! ## Ends of lines -/

namespace Line

/-- The line `k` is an end of the line `l`, and its offset counts the bytes in front of it. -/
def EndOf (l k : Line) : Prop :=
  ∃ cut, l.text = cut ++ k.text ∧ k.offset = l.offset + utf8Length cut

variable {l k : Line}

theorem EndOf.refl (l : Line) : EndOf l l :=
  ⟨[], rfl, rfl⟩

theorem EndOf.trans {j : Line} (h : EndOf l k) (h' : EndOf k j) : EndOf l j := by
  obtain ⟨cut, text, offset⟩ := h
  obtain ⟨cut', text', offset'⟩ := h'
  refine ⟨cut ++ cut', ?_, ?_⟩
  · rw [text, text', List.append_assoc]
  · rw [offset', offset, utf8Length_append, Nat.add_assoc]

/-- A line cut at a byte is an end of the line. -/
theorem endOf_of_tail {n : Nat} (h : Sliced.tail l n = some k) : EndOf l k := by
  unfold Sliced.tail at h
  dsimp only at h
  obtain ⟨s, cut, same⟩ := Option.bind_eq_some_iff.mp h
  obtain rfl := Option.some.inj same
  obtain ⟨front, text, bytes⟩ := sliceFrom?_eq_some.mp cut
  exact ⟨front, text, by rw [bytes]⟩

theorem endOf_unquoted (h : l.isQuoted) : EndOf l l.unquoted := by
  have cut := l.slicesWhole.quote h
  unfold Sliced.unquoted at cut
  obtain ⟨after, -, cut⟩ := Option.bind_eq_some_iff.mp cut
  exact endOf_of_tail cut

/-- What containers leave of a line is an end of it, or nothing. -/
theorem keeps_endOf (lines : List Line) :
    Keeps fun k => k.text = [] ∨ ∃ l ∈ lines, EndOf l k := by
  have cut : ∀ {k j : Line}, (k.text = [] → j.text = []) → EndOf k j →
      (k.text = [] ∨ ∃ l ∈ lines, EndOf l k) → j.text = [] ∨ ∃ l ∈ lines, EndOf l j := by
    intro k j empty ends h
    rcases h with h | ⟨l, mem, h⟩
    · exact .inl (empty h)
    · exact .inr ⟨l, mem, h.trans ends⟩
  have empty : ∀ {k : Line} (n : Nat), k.text = [] → (k.tail n).text = [] := by
    intro k n h
    rw [tail, h, List.drop_nil]
  constructor
  · intro k n h
    exact cut (empty _) (endOf_of_tail (k.slicesWhole.strip n)) h
  · intro k quoted h
    exact cut (empty _) (endOf_unquoted quoted) h
  · intro k m read h
    exact cut (empty _) (endOf_of_tail (k.slicesWhole.item read)) h
  · intro k _
    exact .inl rfl

end Line

theorem Meets.endOf {lines ks : List Line} {n : Nat} {k : Line} (h : Meets lines n k ks) :
    ∃ l ∈ lines, Line.EndOf l k := by
  have kept := h.keeps (Line.keeps_endOf lines) (fun l hl => .inr ⟨l, hl, .refl l⟩) k
    List.mem_cons_self
  refine kept.resolve_left fun empty => h.filled ?_
  rw [Line.isBlank, empty]
  rfl

/-! ## Markers where they stand -/

/-- The line `l` is what containers left of the line `raw` of the source when they took `cut` off
it.  Its tabs were made into spaces before. -/
structure CutFrom (source : List Char) (l : Line) (before raw after cut : List Char) : Prop
    extends IsLineOf source before raw after where
  text : Line.expandTabs 0 (Line.dropCarriageReturn raw) = cut ++ l.text
  offset : l.offset = utf8Length before + utf8Length cut

/-- The blanks in front of a marker: spaces and tabs. -/
def isIndent (c : Char) : Bool :=
  c == ' ' || c == '\t'

/-- Whether a text begins with the marker of a quote or a list item. -/
def startsContainer (s : List Char) : Bool :=
  s.head? = some '>' ||
    match Marker.head? s with
    | some (_, _, _, length) => (s.drop length).isEmpty || (s.drop length).head? = some ' '
    | none => false

/-- Behind spaces and tabs, the first line of a text begins with the marker of a container. -/
def BeginsMarker (s : List Char) : Prop :=
  startsContainer (Line.dropCarriageReturn ((s.takeWhile (· != '\n')).dropWhile isIndent))

instance (s : List Char) : Decidable (BeginsMarker s) := by
  unfold BeginsMarker
  infer_instance

theorem startsContainer_ink {s : List Char} (h : startsContainer s) :
    ∃ c more, s = c :: more ∧ isIndent c = false := by
  cases s with
  | nil => simp [startsContainer, Marker.head?] at h
  | cons c more =>
    refine ⟨c, more, rfl, ?_⟩
    have space : startsContainer (' ' :: more) = false := rfl
    have tab : startsContainer ('\t' :: more) = false := rfl
    by_contra blank
    rw [Bool.not_eq_false, isIndent, Bool.or_eq_true, beq_iff_eq, beq_iff_eq] at blank
    rcases blank with rfl | rfl
    · exact Bool.false_ne_true (space.symm.trans h)
    · exact Bool.false_ne_true (tab.symm.trans h)

/-- A container begins at the marker behind the leading spaces of its line. -/
theorem Layout.startsContainer_of_take {l : Line} {ls : List Line}
    (h : (take l ls).layout.kind = .blockQuote ∨ (take l ls).layout.kind = .list) :
    startsContainer l.rest := by
  cases layout : (take l ls).layout with
  | quote offset inner =>
    obtain ⟨quoted, -, -⟩ := take_eq_quote layout
    simp only [Line.isQuoted, Bool.and_eq_true] at quoted
    rw [startsContainer, quoted.2, Bool.true_or]
  | list offset m items spaced =>
    obtain ⟨read, -, -, -⟩ := take_eq_list layout
    unfold Marker.read? at read
    split at read
    · cases read
    split at read
    · cases read
    rename_i found
    dsimp only at read
    split at read
    · rename_i opens
      rw [startsContainer, found]
      exact Bool.or_eq_true_iff.mpr (.inr opens)
    · cases read
  | _ => simp [layout, kind] at h

namespace Line

variable {s cut k more : List Char}

/-- Behind the leading blanks a line stands as in the source. -/
theorem dropWhile_isIndent_expandTabs (column : Nat) (s : List Char) :
    (expandTabs column s).dropWhile isIndent = s.dropWhile isIndent := by
  fun_induction expandTabs column s with
  | case1 column s ih =>
    rw [List.dropWhile_append_of_pos (by simp [isIndent]), ih]
    simp [isIndent]
  | case2 column s ih => simpa [isIndent] using ih
  | case3 => rfl

/-- What is left of a line, when no tab was expanded in the beginning that is cut off. -/
theorem dropWhile_isIndent_left {column : Nat} (h : expandTabs column (cut ++ more) = cut ++ k) :
    k.dropWhile isIndent = more.dropWhile isIndent := by
  induction cut generalizing column with
  | nil =>
    rw [List.nil_append, List.nil_append] at h
    rw [← h, dropWhile_isIndent_expandTabs]
  | cons c cut ih =>
    rw [List.cons_append, List.cons_append] at h
    by_cases tab : c = '\t'
    · subst tab
      have first : 0 < 4 - column % 4 := by omega
      rw [expandTabs, ← Nat.succ_pred_eq_of_pos first, List.replicate_succ] at h
      exact absurd (List.cons.inj h).1 (by decide)
    · by_cases space : c = ' '
      · subst space
        rw [expandTabs] at h
        exact ih (List.cons.inj h).2
      · have same : expandTabs column (c :: (cut ++ more)) = c :: (cut ++ more) := by
          unfold expandTabs
          split <;> simp_all
        rw [same] at h
        rw [List.append_cancel_left (List.cons.inj h).2]

/-- Behind the leading blanks of a container's line stands its marker. -/
theorem dropWhile_isIndent_text {l : Line} (marked : startsContainer l.rest) :
    l.text.dropWhile isIndent = l.rest := by
  obtain ⟨c, left, e, ink⟩ := startsContainer_ink marked
  have spaces : ∀ d ∈ List.replicate l.indent ' ', isIndent d := by simp [isIndent]
  rw [← l.indent_append_rest, List.dropWhile_append_of_pos spaces, e]
  exact List.dropWhile_cons_of_neg (by simp [ink])

theorem exists_return (raw : List Char) : ∃ cr, raw = dropCarriageReturn raw ++ cr := by
  unfold dropCarriageReturn
  split
  · rename_i last
    exact ⟨['\r'], (List.dropLast_append_getLast? _ last).symm⟩
  · exact ⟨[], (List.append_nil _).symm⟩

/-- What is left of the source, when no tab was expanded in what containers took off the line,
begins with the marker of the line. -/
theorem beginsMarker_left {l : Line} {raw after : List Char} (oneLine : '\n' ∉ raw)
    (ends : ∀ c ∈ after.head?, c = '\n') (marked : startsContainer l.rest)
    (inside : expandTabs 0 (dropCarriageReturn raw) = cut ++ l.text)
    (whole : dropCarriageReturn raw = cut ++ more) :
    ∃ left, raw = cut ++ left ∧ BeginsMarker (left ++ after) := by
  obtain ⟨c, ink, first, solid⟩ := startsContainer_ink marked
  obtain ⟨cr, written⟩ := exists_return raw
  have rest : more.dropWhile isIndent = l.rest := by
    rw [← dropWhile_isIndent_text marked]
    exact (dropWhile_isIndent_left (whole ▸ inside)).symm
  have split : more = more.takeWhile isIndent ++ l.rest := by
    rw [← rest, List.takeWhile_append_dropWhile]
  have standing : raw = cut ++ (more ++ cr) := by
    rw [← List.append_assoc, ← whole, ← written]
  refine ⟨more ++ cr, standing, ?_⟩
  -- the line break of the source is gone before the marker is looked at
  have line : ((more ++ cr) ++ after).takeWhile (· != '\n') = more ++ cr := by
    have inLine : ∀ d ∈ more ++ cr, (d != '\n') = true := by
      intro d hd
      rw [bne_iff_ne]
      rintro rfl
      exact oneLine (standing ▸ List.mem_append_right _ hd)
    rw [List.takeWhile_append_of_pos inLine]
    cases after with
    | nil => exact List.append_nil _
    | cons d after =>
      obtain rfl := ends d rfl
      exact List.append_nil _
  have behind : (more ++ cr).dropWhile isIndent = l.rest ++ cr := by
    have skipped : ∀ d ∈ more.takeWhile isIndent, isIndent d := fun d => List.mem_takeWhile_imp
    rw [split, List.append_assoc, List.dropWhile_append_of_pos skipped, first]
    exact List.dropWhile_cons_of_neg (by simp [solid])
  have bare : dropCarriageReturn (l.rest ++ cr) = l.rest := by
    have filled : l.rest ++ cr ≠ [] := by simp [first]
    have cutOff := dropCarriageReturn_append (cut ++ more.takeWhile isIndent) filled
    rw [List.append_assoc, ← List.append_assoc (more.takeWhile isIndent), ← split, ← standing,
      whole, List.append_assoc] at cutOff
    have line : more.takeWhile isIndent ++ dropCarriageReturn (l.rest ++ cr) =
        more.takeWhile isIndent ++ l.rest :=
      (List.append_cancel_left cutOff).symm.trans split
    exact List.append_cancel_left line
  rw [BeginsMarker, line, behind, bare]
  exact marked

end Line

/-! ## Errors of whole sources -/

theorem parse_eq_error {o : ParseOptions} {source : String} {position limit : Nat} :
    parse o source = .error (.nestingTooDeep position limit) ↔
      (readSource o source.toList).failure = some ⟨position, limit⟩ := by
  unfold parse Parsed.document Parsed.error?
  cases (readSource o source.toList).failure with
  | none => simp
  | some e =>
    cases e
    simp

/-- When a document nests too deep, the error has the limit that was given and the offset of the
line of a quote or list inside as many quotes and lists as the limit allows.  The offset counts the
bytes of the source in front of that line and those that the containers around it took off the line,
where tabs among the leading blanks are spaces by then.  If they took off no such tab, a character
of the source begins at the offset, and behind spaces and tabs the marker of the container stands
there. -/
theorem parse_nestingTooDeep {o : ParseOptions} {source : String} {position limit : Nat}
    (h : parse o source = .error (.nestingTooDeep position limit)) :
    limit = o.maxNesting ∧
      ∃ l ls before raw after cut,
        StopsAt o ⟨position, limit⟩ (Line.ofSource source.toList) limit l ls ∧
        CutFrom source.toList l before raw after cut ∧
        (cut <+: Line.dropCarriageReturn raw →
          ∃ left, sliceFrom? position source.toList = some left ∧ BeginsMarker left) := by
  obtain ⟨l, ls, stops⟩ := failure_meets (parse_eq_error.mp h)
  obtain ⟨rfl, rfl, met, container⟩ := stops
  obtain ⟨k, mem, cut, text, offset⟩ := met.endOf
  obtain ⟨before, raw, after, standing, rfl⟩ := Line.exists_isLineOf mem
  refine ⟨rfl, l, ls, before, raw, after, cut, ⟨rfl, rfl, met, container⟩,
    ⟨standing, text, offset⟩, ?_⟩
  rintro ⟨more, whole⟩
  obtain ⟨left, here, marker⟩ := Line.beginsMarker_left standing.oneLine standing.ends
    (Layout.startsContainer_of_take container) text whole.symm
  refine ⟨left ++ after, ?_, marker⟩
  have around : source.toList = (before ++ cut) ++ (left ++ after) := by
    rw [standing.split, here]
    simp only [List.append_assoc]
  show sliceFrom? l.offset source.toList = some (left ++ after)
  rw [around, offset, ← utf8Length_append]
  exact sliceFrom?_append _ _

/-- The offset counts the bytes of characters and of line breaks, and stops in front of the tab that
the item did not take off. -/
theorem parse_quote_in_item :
    parse { maxNesting := 1 } "é\r\n- ü\r\n  \t> b" = .error (.nestingTooDeep 12 1) ∧
      ∃ l ls before raw after cut,
        StopsAt { maxNesting := 1 } ⟨12, 1⟩ (Line.ofSource "é\r\n- ü\r\n  \t> b".toList) 1 l ls ∧
        CutFrom "é\r\n- ü\r\n  \t> b".toList l before raw after cut ∧
        (cut <+: Line.dropCarriageReturn raw →
          ∃ left, sliceFrom? 12 "é\r\n- ü\r\n  \t> b".toList = some left ∧ BeginsMarker left) := by
  have deep : parse { maxNesting := 1 } "é\r\n- ü\r\n  \t> b" = .error (.nestingTooDeep 12 1) := by
    decide +kernel
  exact ⟨deep, (parse_nestingTooDeep deep).2⟩

/-- The tab in front of the marker is four spaces when the item takes them off, and the offset is
beyond the end of the source. -/
theorem parse_behind_tab :
    parse { maxNesting := 1 } "-   a\n\t>" = .error (.nestingTooDeep 10 1) ∧
      "-   a\n\t>".utf8ByteSize = 8 ∧
      ¬ ∀ (o : ParseOptions) (source : String) (position limit : Nat),
        parse o source = .error (.nestingTooDeep position limit) →
          ∃ left, sliceFrom? position source.toList = some left ∧ BeginsMarker left := by
  have deep : parse { maxNesting := 1 } "-   a\n\t>" = .error (.nestingTooDeep 10 1) := by
    decide +kernel
  refine ⟨deep, by decide, fun points => ?_⟩
  obtain ⟨left, found, -⟩ := points _ _ _ _ deep
  have none : sliceFrom? 10 "-   a\n\t>".toList = none := by decide
  exact absurd (none.symm.trans found) nofun

end MarkdownForest
