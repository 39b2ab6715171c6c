/-
# MarkdownForest.Proofs.ItemNumbers -- the numbers that items are written with

The items of an ordered list are numbered on from its start, however many they are,
while a marker is read only if its number has at most nine digits.

* `Tree.PartOf`: the trees inside a tree; those of a document that was read are in
  normal form;
* `Marker.number?_written`: what the first line of a written item is read as, whatever
  the item holds;
* `parse_itemNumbers`: so every item of a list in a document that was read begins with
  its number, as long as that has nine digits.
-/
import MarkdownForest.Proofs.ContainedSources
import MarkdownForest.Proofs.NormalTrees

namespace MarkdownForest

set_option autoImplicit false

open Text CommonMark

/-! ## Trees inside a tree -/

namespace Tree

variable {smart : Bool} {t u : Tree} {ts : List Tree}

/-- The tree `u` is the given one or stands inside it. -/
inductive PartOf (u : Tree) : Tree → Prop
  | whole : PartOf u u
  | inside {c : Content} {ts : List Tree} {t : Tree} (child : t ∈ ts) (part : PartOf u t) :
      PartOf u (.node c ts)

theorem NormalList.of_mem (h : NormalList smart ts) (ht : t ∈ ts) : t.Normal smart := by
  induction ts with
  | nil => cases ht
  | cons s ts ih =>
    rcases List.mem_cons.mp ht with rfl | ht
    · exact h.1
    · exact ih h.2 ht

theorem PartOf.normal (part : PartOf u t) (h : t.Normal smart) : u.Normal smart := by
  induction part with
  | whole => exact h
  | inside child _ ih => exact ih (h.2.2.of_mem child)

end Tree

/-- A list in a document that was read starts at a number of at most nine digits. -/
theorem start_le_of_parse {o : ParseOptions} {source : String} {D : Tree} {type : ListType}
    {start : Nat} {tight : Bool} {items : List Tree} (made : parse o source = .ok D)
    (inside : Tree.PartOf (.node (.list type start tight) items) D) : start ≤ Marker.maxStart := by
  obtain ⟨-, rfl⟩ := parse_eq_ok.mp made
  exact (inside.normal (documentMade_normal o source.toList)).1

/-! ## Lines that begin with a number -/

namespace Marker

/-- The number of the ordered marker that a line begins with. -/
def number? (l : Line) : Option Nat :=
  (read? l).bind fun m => if m.type = .ordered then some m.start else none

/-- The number is read whatever stands behind the marker. -/
theorem number?_toString (k : Nat) {d : Char} (hd : d = '.' ∨ d = ')') {r : List Char}
    (hr : r = [] ∨ r.head? = some ' ') (offset : Nat) :
    number? ⟨(toString k).toList ++ d :: r, offset⟩ = if k ≤ maxStart then some k else none := by
  have head := head?_toString k hd r
  have stands : (r.isEmpty || r.head? = some ' ') = true := by simpa using hr
  obtain ⟨c, t, split⟩ := List.exists_cons_of_ne_nil (toString_ne_nil k)
  have digit : c.isDigit := isDigit_of_mem_toString (split ▸ List.mem_cons_self)
  have space : c ≠ ' ' := ne_of_class digit (by decide)
  rw [split, List.cons_append] at head ⊢
  rw [number?, read?, Line.indent_of_first space, Line.rest_of_first space, head,
    if_neg (by decide)]
  by_cases room : k ≤ maxStart
  · simp [room, stands]
  · simp [room]

end Marker

section Written

variable (start n : Nat) (alternate : Bool) (body : List Char)

/-- The first line of a written item, whatever the item holds. -/
theorem exists_firstLine :
    ∃ d r, (d = '.' ∨ d = ')') ∧ (r = [] ∨ r.head? = some ' ') ∧
      ((hang (itemMarker .ordered start alternate n) body).splitOn '\n').head? =
        some ((toString (start + n)).toList ++ d :: r) := by
  let d := if alternate then ')' else '.'
  have delimiter : d = '.' ∨ d = ')' := by
    cases alternate
    · exact .inl rfl
    · exact .inr rfl
  have marker : itemMarker .ordered start alternate n =
      (toString (start + n)).toList ++ [d, ' '] := rfl
  have line := oneLine_itemMarker .ordered start alternate n
  by_cases empty : body = []
  · refine ⟨d, [], delimiter, .inl rfl, ?_⟩
    have full : isSpace d = false := by
      rcases delimiter with h | h <;> rw [h] <;> decide
    have bare : trimEnd (itemMarker .ordered start alternate n) =
        (toString (start + n)).toList ++ [d] := by
      rw [marker, List.append_cons, trimEnd, dropEndWhile_concat (by decide)]
      exact Line.trimEnd_of_last full
    have written : hang (itemMarker .ordered start alternate n) body =
        (toString (start + n)).toList ++ [d] := by
      rw [hang, if_pos (by simpa using empty), bare]
    rw [marker, List.append_cons] at line
    rw [written, List.splitOn_eq_singleton fun feed => line (List.mem_append_left _ feed)]
    rfl
  · obtain ⟨raw, more, cut⟩ := List.exists_cons_of_ne_nil (List.splitOn_ne_nil '\n' body)
    refine ⟨d, ' ' :: raw, delimiter, .inr rfl, ?_⟩
    rw [splitOn_hang line empty cut, marker, List.append_assoc]
    rfl

/-- It begins with the number of the item, if that has at most nine digits, and else with none. -/
theorem Marker.number?_written {s : List Char}
    (first : s ∈ ((hang (itemMarker .ordered start alternate n) body).splitOn '\n').head?)
    (offset : Nat) :
    number? ⟨s, offset⟩ = if start + n ≤ maxStart then some (start + n) else none := by
  obtain ⟨d, r, hd, hr, written⟩ := exists_firstLine start n alternate body
  rw [written, Option.mem_some_iff] at first
  rw [← first, number?_toString (start + n) hd hr]

/-- The item at place `n` begins with its number, whatever it holds. -/
def ItemNumbered : Prop :=
  ∀ body, ∀ s ∈ ((hang (itemMarker .ordered start alternate n) body).splitOn '\n').head?,
    ∀ offset, Marker.number? ⟨s, offset⟩ = some (start + n)

variable {start n alternate}

theorem itemNumbered_iff : ItemNumbered start n alternate ↔ start + n ≤ Marker.maxStart := by
  constructor
  · intro numbered
    obtain ⟨d, r, -, -, written⟩ := exists_firstLine start n alternate []
    have read := numbered [] _ written 0
    rw [Marker.number?_written start n alternate [] written] at read
    by_contra long
    rw [if_neg long] at read
    cases read
  · intro room body s first offset
    rw [Marker.number?_written start n alternate body first, if_pos room]

end Written

/-- In a document that was read the item at place `n` of an ordered list is written with a number
that is read again exactly if that has at most nine digits, and if it has more, the line begins with
no number.  So the first item always is, and all are exactly if the number of the last has at most
nine digits. -/
theorem parse_itemNumbers {o : ParseOptions} {source : String} {D : Tree} {start : Nat}
    {tight : Bool} {items : List Tree} (made : parse o source = .ok D)
    (inside : Tree.PartOf (.node (.list .ordered start tight) items) D) (alternate : Bool) :
    (∀ n < items.length, ∀ body : List Char,
      ∀ s ∈ ((hang (itemMarker .ordered start alternate n) body).splitOn '\n').head?, ∀ offset,
        Marker.number? ⟨s, offset⟩ =
          if start + n ≤ Marker.maxStart then some (start + n) else none) ∧
      ItemNumbered start 0 alternate ∧
      ((∀ n < items.length, ItemNumbered start n alternate) ↔
        start + items.length ≤ Marker.maxStart + 1) := by
  have first := start_le_of_parse made inside
  refine ⟨fun n _ body s written => Marker.number?_written start n alternate body written,
    itemNumbered_iff.mpr first, fun numbered => ?_, fun room n here => ?_⟩
  · by_cases none : items.length = 0
    · omega
    · have last := itemNumbered_iff.mp (numbered (items.length - 1) (by omega))
      omega
  · exact itemNumbered_iff.mpr (by omega)

/-- An ordered list of two items. -/
def twoItems (start : Nat) : Tree :=
  .node (.list .ordered start true)
    [.node .item [.node .paragraph [.leaf (.text "a")]],
      .node .item [.node .paragraph [.leaf (.text "b")]]]

/-- A list inside a quote, the last number of which is the greatest of nine digits. -/
theorem parse_itemNumbers_greatest :
    parse {} "> 999999998) a\n> 7) b" =
        .ok (.node .document [.node .blockQuote [twoItems 999999998]]) ∧
      Tree.PartOf (twoItems 999999998) (.node .document [.node .blockQuote [twoItems 999999998]]) ∧
      ∀ n < 2, ItemNumbered 999999998 n true := by
  have made : parse {} "> 999999998) a\n> 7) b" =
      .ok (.node .document [.node .blockQuote [twoItems 999999998]]) := by
    decide +kernel
  have inside : Tree.PartOf (twoItems 999999998)
      (.node .document [.node .blockQuote [twoItems 999999998]]) :=
    .inside List.mem_cons_self (.inside List.mem_cons_self .whole)
  exact ⟨made, inside, (parse_itemNumbers made inside true).2.2.mpr (by decide)⟩

/-- Behind the greatest number that is read comes one that is not: the item is read back as text of
the item before it. -/
theorem parse_tenDigits :
    parse {} "999999999. a\n1. b" = .ok (.node .document [twoItems 999999999]) ∧
      write (.node .document [twoItems 999999999]) = "999999999. a\n1000000000. b\n" ∧
      Marker.read? ⟨"1000000000. b".toList, 0⟩ = none ∧
      parse {} "999999999. a\n1000000000. b\n" = .ok (.node .document
        [.node (.list .ordered 999999999 true)
          [.node .item [.node .paragraph [.leaf (.text "a"), .leaf .softbreak,
            .leaf (.text "1000000000. b")]]]]) ∧
      ¬ ∀ (o : ParseOptions) (source : String) (D : Tree) (start : Nat) (tight : Bool)
        (items : List Tree), parse o source = .ok D →
          Tree.PartOf (.node (.list .ordered start tight) items) D →
            ∀ n < items.length, ∀ alternate, ItemNumbered start n alternate := by
  have made : parse {} "999999999. a\n1. b" = .ok (.node .document [twoItems 999999999]) := by
    decide +kernel
  refine ⟨made, by decide +kernel, by decide +kernel, by decide +kernel, fun all => ?_⟩
  have second := all {} _ _ _ _ _ made (.inside List.mem_cons_self .whole) 1 (by decide) false
  have room := itemNumbered_iff.mp second
  revert room
  decide

end MarkdownForest
