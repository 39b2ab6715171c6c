/-
# MarkdownForest.Proofs.SourceLines -- the lines of sources made from others

Where a source is put together from pieces of another, its lines are known from
theirs:

* `ofSource_append`: a source after a line feed has the same lines, moved on by
  the bytes in front (`number_moved`);
* `number_elsewhere`: lines that are written with something in front of each are
  the same lines once it is taken off again;
* `exists_isLineOf`: a line stands in its source between two line feeds, at its
  offset.

`Line.texts` are the lines before the tabs in them are expanded.  A line without
a tab among its leading blanks (`Untabbed`) stays as it is.
-/
import MarkdownForest.Proofs.Relocation

namespace MarkdownForest

set_option autoImplicit false

open Text

namespace Line

variable {s t : List Char}

/-! ## Cutting at line feeds -/

theorem not_mem_of_mem_splitOn {c : Char} {k : List Char} (h : k ∈ s.splitOn c) : c ∉ k := by
  induction s generalizing k with
  | nil =>
    rw [List.splitOn_nil, List.mem_singleton] at h
    simp [h]
  | cons d s ih =>
    rw [List.splitOn_cons_eq_if_modifyHead] at h
    split at h
    · rcases List.mem_cons.mp h with rfl | h
      · simp
      · exact ih h
    · rename_i other
      obtain ⟨first, more, split⟩ := List.exists_cons_of_ne_nil (List.splitOn_ne_nil c s)
      rw [split] at h ih
      rcases List.mem_cons.mp h with rfl | h
      · have : c ≠ d := fun e => other (by simp [e])
        simp [this, ih List.mem_cons_self]
      · exact ih (List.mem_cons_of_mem _ h)

/-- The bytes of raw lines, each with its line feed. -/
def bytesOf : List (List Char) → Nat
  | [] => 0
  | raw :: raws => utf8Length raw + 1 + bytesOf raws

theorem bytesOf_splitOn (s : List Char) : bytesOf (s.splitOn '\n') = utf8Length s + 1 := by
  induction s with
  | nil => rfl
  | cons c s ih =>
    rw [List.splitOn_cons_eq_if_modifyHead]
    split
    · rename_i feed
      have one : '\n'.utf8Size = 1 := by decide
      rw [beq_iff_eq.mp feed]
      simp [bytesOf, utf8Length, one] at ih ⊢
      omega
    · obtain ⟨first, more, split⟩ := List.exists_cons_of_ne_nil (List.splitOn_ne_nil '\n' s)
      rw [split] at ih ⊢
      simp [bytesOf, utf8Length] at ih ⊢
      omega

theorem number_ne_nil {raws : List (List Char)} (h : raws ≠ []) (offset : Nat) :
    number offset raws ≠ [] := by
  cases raws with
  | nil => exact absurd rfl h
  | cons raw raws => exact List.cons_ne_nil _ _

theorem number_append (offset : Nat) (raws more : List (List Char)) :
    number offset (raws ++ more) = number offset raws ++ number (offset + bytesOf raws) more := by
  induction raws generalizing offset with
  | nil => rfl
  | cons raw raws ih =>
    rw [List.cons_append, number, number, ih, List.cons_append]
    simp [bytesOf, Nat.add_assoc]

theorem exists_raw {l : Line} {offset : Nat} {raws : List (List Char)}
    (h : l ∈ number offset raws) :
    ∃ raw ∈ raws, ∃ a, l = ⟨expandTabs 0 (dropCarriageReturn raw), a⟩ := by
  have mem : l.text ∈ (number offset raws).map text := List.mem_map_of_mem h
  rw [texts_number] at mem
  obtain ⟨raw, hr, here⟩ := List.mem_map.mp mem
  exact ⟨raw, hr, l.offset, by rw [here]⟩

/-- A source after another and a line feed has its lines after those of the other. -/
theorem ofSource_append (s t : List Char) :
    ofSource (s ++ '\n' :: t) = ofSource s ++ number (utf8Length s + 1) (t.splitOn '\n') := by
  rw [ofSource, List.splitOn_append_cons_self, number_append, bytesOf_splitOn, Nat.zero_add]
  rfl

/-- Lines that begin later are the same lines, moved on. -/
theorem number_moved (n offset : Nat) (raws : List (List Char)) :
    AllElsewhere (fun a b => b = a + n) (number offset raws) (number (offset + n) raws) := by
  induction raws generalizing offset with
  | nil => exact .nil
  | cons raw raws ih =>
    have next : offset + n + utf8Length raw + 1 = offset + utf8Length raw + 1 + n := by omega
    rw [number, number, next]
    exact .cons ⟨rfl, rfl⟩ (ih _)

/-! ## Lines as they are written -/

/-- The lines of a source, with the tabs that stand in them. -/
def texts (source : List Char) : List (List Char) :=
  (source.splitOn '\n').map dropCarriageReturn

/-- No tab stands among the blanks that a text begins with. -/
def Untabbed (s : List Char) : Prop :=
  '\t' ∉ s.takeWhile fun c => c == ' ' || c == '\t'

instance (s : List Char) : Decidable (Untabbed s) := by
  unfold Untabbed
  infer_instance

/-- Lines without tabs among their leading blanks are cut out as they stand. -/
theorem map_text_ofSource {source : List Char} (untabbed : ∀ s ∈ texts source, Untabbed s) :
    (ofSource source).map text = texts source := by
  rw [ofSource, texts_number, texts]
  refine List.map_congr_left fun raw hr => ?_
  exact expandTabs_eq (untabbed _ (List.mem_map_of_mem hr)) 0

theorem untabbed_spaces (n : Nat) (h : Untabbed s) : Untabbed (List.replicate n ' ' ++ s) := by
  unfold Untabbed at h ⊢
  rw [List.takeWhile_append_of_pos (by simp +contextual)]
  simp [h]

theorem dropCarriageReturn_append (front : List Char) (h : s ≠ []) :
    dropCarriageReturn (front ++ s) = front ++ dropCarriageReturn s := by
  unfold dropCarriageReturn
  rw [List.getLast?_append_of_ne_nil front h]
  split
  · rw [List.dropLast_append_of_ne_nil h]
  · rfl

/-- When `bare` takes off what `write` puts in front of each line, the lines are as they were. -/
theorem number_elsewhere {write : List Char → List Char} {bare : Line → Line}
    {raws : List (List Char)}
    (each : ∀ raw ∈ raws, ∀ offset,
      (bare ⟨expandTabs 0 (dropCarriageReturn (write raw)), offset⟩).text =
        expandTabs 0 (dropCarriageReturn raw)) (offset offset' : Nat) :
    AllElsewhere (fun _ _ => True) (number offset raws)
      ((number offset' (raws.map write)).map bare) := by
  induction raws generalizing offset offset' with
  | nil => exact .nil
  | cons raw raws ih =>
    obtain ⟨here, more⟩ := List.forall_mem_cons.mp each
    rw [List.map_cons, number, number, List.map_cons]
    exact .cons ⟨(here _).symm, trivial⟩ (ih more _ _)

end Line

/-! ## Lines where they stand -/

/-- The text `raw` is a line of the source, between `before` and `after`. -/
structure IsLineOf (source before raw after : List Char) : Prop where
  split : source = before ++ (raw ++ after)
  oneLine : '\n' ∉ raw
  begins : ∀ c ∈ before.getLast?, c = '\n'
  ends : ∀ c ∈ after.head?, c = '\n'

namespace Line

theorem exists_of_mem_number {l : Line} {offset : Nat} {raws : List (List Char)}
    (h : l ∈ number offset raws) :
    ∃ front raw back, raws = front ++ raw :: back ∧
      l = ⟨expandTabs 0 (dropCarriageReturn raw), offset + bytesOf front⟩ := by
  induction raws generalizing offset with
  | nil => cases h
  | cons raw raws ih =>
    rw [number] at h
    rcases List.mem_cons.mp h with rfl | h
    · exact ⟨[], raw, raws, rfl, rfl⟩
    · obtain ⟨front, raw', back, rfl, rfl⟩ := ih h
      refine ⟨raw :: front, raw', back, rfl, ?_⟩
      rw [bytesOf]
      congr 1
      omega

theorem utf8Length_endedLines (lines : List (List Char)) :
    utf8Length (endedLines lines) = bytesOf lines := by
  induction lines with
  | nil => rfl
  | cons s lines ih =>
    have one : utf8Length ['\n'] = 1 := by decide
    rw [endedLines] at ih ⊢
    rw [List.flatMap_cons, utf8Length_append, utf8Length_append, ih, one, bytesOf]

/-- Lines joined again, as they stand around one of them. -/
theorem intercalate_around (front : List (List Char)) (raw : List Char) (back : List (List Char)) :
    List.intercalate ['\n'] (front ++ raw :: back) =
      endedLines front ++ (raw ++ back.flatMap ('\n' :: ·)) := by
  induction front generalizing raw back with
  | nil =>
    rw [List.nil_append]
    induction back generalizing raw with
    | nil => simp [endedLines]
    | cons s back ih =>
      rw [List.intercalate_cons_cons, ih]
      simp [endedLines]
  | cons s front ih =>
    have more : front ++ raw :: back ≠ [] := by simp
    obtain ⟨t, ts, e⟩ := List.exists_cons_of_ne_nil more
    rw [List.cons_append, e, List.intercalate_cons_cons, ← e, ih]
    simp [endedLines]

/-- A line that is cut out of a source stands in it at its offset. -/
theorem exists_isLineOf {l : Line} {source : List Char} (h : l ∈ ofSource source) :
    ∃ before raw after, IsLineOf source before raw after ∧
      l = ⟨expandTabs 0 (dropCarriageReturn raw), utf8Length before⟩ := by
  obtain ⟨front, raw, back, cut, rfl⟩ := exists_of_mem_number h
  have whole : source = endedLines front ++ (raw ++ back.flatMap ('\n' :: ·)) := by
    rw [← intercalate_around, ← cut, List.intercalate_splitOn]
  refine ⟨endedLines front, raw, back.flatMap ('\n' :: ·), ⟨whole, ?_, ?_, ?_⟩, ?_⟩
  · exact not_mem_of_mem_splitOn (cut ▸ List.mem_append_right _ List.mem_cons_self)
  · intro c hc
    rcases getLast?_endedLines front with rfl | last
    · cases hc
    · exact Option.some.inj (hc.symm.trans last)
  · intro c hc
    cases back with
    | nil => cases hc
    | cons s back => exact (Option.some.inj hc).symm
  · rw [utf8Length_endedLines, Nat.zero_add]

end Line

end MarkdownForest
