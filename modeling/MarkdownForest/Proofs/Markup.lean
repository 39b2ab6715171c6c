/-
# MarkdownForest.Proofs.Markup -- what safe pages are written in

The vocabulary of pages is fixed: elements, voids, and one comment.  `Shape` is
what a text in this vocabulary is with its words, attributes and spaces left
out; `Markup ss s` says that the text `s` has the shapes `ss`: tags are nested
and closed, attribute values are in double quotes that they do not contain, and
no angle bracket stands outside a tag or inside a value.

* `Markup.append`, `Markup.ofWords`: texts one after the other;
* `Markup.angles`: every angle bracket that opens something begins a tag;
* `harmless_escapeText`, `harmless_escapeAddress`, `harmless_toString`: what
  may stand in a value, whatever it was made from.
-/
import Mathlib.Data.Bool.AllAny
import MarkdownForest.Html.Render

namespace MarkdownForest.Html

set_option autoImplicit false

/-! ## Characters that end no value and begin no tag -/

def Harmless (c : Char) : Prop :=
  c ≠ '\x22' ∧ c ≠ '<' ∧ c ≠ '>'

instance (c : Char) : Decidable (Harmless c) :=
  inferInstanceAs (Decidable (_ ∧ _ ∧ _))

theorem harmless_escapeChar (c : Char) : ∀ d ∈ escapeChar c, Harmless d := by
  unfold escapeChar
  split
  · exact List.all_iff_forall_prop.mp (by decide)
  split
  · exact List.all_iff_forall_prop.mp (by decide)
  split
  · exact List.all_iff_forall_prop.mp (by decide)
  split
  · exact List.all_iff_forall_prop.mp (by decide)
  · rename_i left right quote
    intro d hd
    rw [List.mem_singleton] at hd
    subst hd
    exact ⟨quote, left, right⟩

theorem harmless_escapeText (s : List Char) : ∀ c ∈ escapeText s, Harmless c := by
  intro c hc
  obtain ⟨b, -, hb⟩ := List.mem_flatMap.mp hc
  exact harmless_escapeChar b c hb

theorem harmless_hexDigit : ∀ n < 16, Harmless (hexDigit n) := by
  decide

theorem harmless_percentByte (b : UInt8) : ∀ c ∈ percentByte b, Harmless c := by
  intro c hc
  rcases mem_percentByte hc with rfl | ⟨n, hn, rfl⟩
  · decide
  · exact harmless_hexDigit n hn

theorem harmless_of_isAddressChar {c : Char} (h : isAddressChar c) : Harmless c := by
  refine ⟨?_, ?_, ?_⟩ <;> rintro rfl <;> exact absurd h (by decide)

theorem harmless_escapeAddressChar (c : Char) : ∀ d ∈ escapeAddressChar c, Harmless d := by
  unfold escapeAddressChar
  split
  · exact List.all_iff_forall_prop.mp (by decide)
  split
  · exact List.all_iff_forall_prop.mp (by decide)
  split
  · rename_i address
    intro d hd
    rw [List.mem_singleton] at hd
    rw [hd]
    exact harmless_of_isAddressChar address
  · intro d hd
    obtain ⟨byte, -, hd⟩ := List.mem_flatMap.mp hd
    exact harmless_percentByte byte d hd

theorem harmless_escapeAddress (url : List Char) : ∀ c ∈ escapeAddress url, Harmless c := by
  intro c hc
  obtain ⟨b, -, hb⟩ := List.mem_flatMap.mp hc
  exact harmless_escapeAddressChar b c hb

theorem harmless_toString (n : Nat) : ∀ c ∈ (toString n).toList, Harmless c := by
  intro c hc
  have digit : c.isDigit := by
    rw [Nat.toString_eq_repr, Nat.toList_repr] at hc
    exact Nat.isDigit_of_mem_toDigits (by decide) (by decide) hc
  refine ⟨?_, ?_, ?_⟩ <;> rintro rfl <;> exact absurd digit (by decide)

/-! ## Tags -/

structure Attribute where
  name : String
  value : List Char

def attributes : List String :=
  ["href", "src", "alt", "title", "class", "start"]

def Attribute.text (a : Attribute) : List Char :=
  ' ' :: a.name.toList ++ ['=', '\x22'] ++ a.value ++ ['\x22']

/-- An attribute of the vocabulary, with a value that stays between its quotes. -/
structure Attribute.Sound (a : Attribute) : Prop where
  named : a.name ∈ attributes
  value : ∀ c ∈ a.value, Harmless c

/-- The elements that have something inside. -/
def elements : List String :=
  ["p", "h1", "h2", "h3", "h4", "h5", "h6", "ul", "ol", "li", "blockquote", "pre", "code", "em",
    "strong", "a"]

/-- The elements that have nothing inside. -/
def voids : List String :=
  ["img", "br", "hr"]

inductive Tag where
  | opening (name : String) (given : List Attribute)
  | closing (name : String)
  | void (name : String) (given : List Attribute)
  /-- What stands for raw HTML. -/
  | omitted

namespace Tag

def text : Tag → List Char
  | opening name given => '<' :: name.toList ++ given.flatMap Attribute.text ++ ['>']
  | closing name => '<' :: '/' :: name.toList ++ ['>']
  | void name given => '<' :: name.toList ++ given.flatMap Attribute.text ++ " />".toList
  | omitted => Page.rawOmitted.toList

/-- A tag of the vocabulary. -/
def Sound : Tag → Prop
  | opening name given => name ∈ elements ∧ ∀ a ∈ given, a.Sound
  | closing name => name ∈ elements
  | void name given => name ∈ voids ∧ ∀ a ∈ given, a.Sound
  | omitted => True

end Tag

theorem Attribute.Sound.closed {a : Attribute} (h : a.Sound) : '<' ∉ a.text := by
  have name : ∀ name ∈ attributes, '<' ∉ name.toList := by decide
  have value : '<' ∉ a.value := fun bad => (h.value _ bad).2.1 rfl
  simp [Attribute.text, name _ h.named, value]

/-- A tag begins with an angle bracket, and has no other of that kind. -/
theorem Tag.Sound.text_eq {t : Tag} (h : t.Sound) : ∃ body, t.text = '<' :: body ∧ '<' ∉ body := by
  have element : ∀ name ∈ elements, '<' ∉ name.toList := by decide
  have void : ∀ name ∈ voids, '<' ∉ name.toList := by decide
  have given : ∀ {given : List Attribute}, (∀ a ∈ given, a.Sound) →
      '<' ∉ given.flatMap Attribute.text := by
    intro given sound bad
    obtain ⟨a, ha, bad⟩ := List.mem_flatMap.mp bad
    exact (sound a ha).closed bad
  cases t with
  | opening name as => exact ⟨_, rfl, by simp [element name h.1, given h.2]⟩
  | closing name => exact ⟨_, rfl, by simp [element name h]⟩
  | void name as => exact ⟨_, rfl, by simp [void name h.1, given h.2]⟩
  | omitted => exact ⟨_, rfl, by decide⟩

/-! ## Shapes -/

/-- What texts in the vocabulary are made of, apart from words, attributes and spaces. -/
inductive Shape where
  | element (name : String) (inside : List Shape)
  | void (name : String)
  | omitted

/-- A text has shapes. -/
inductive Markup : List Shape → List Char → Prop
  | nil : Markup [] []
  | char {ss : List Shape} {s : List Char} (c : Char) (plain : c ≠ '<' ∧ c ≠ '>')
      (more : Markup ss s) : Markup ss (c :: s)
  | element {ks ss : List Shape} {k s : List Char} {name : String} {given : List Attribute}
      (sound : (Tag.opening name given).Sound) (inside : Markup ks k) (more : Markup ss s) :
      Markup (.element name ks :: ss)
        ((Tag.opening name given).text ++ (k ++ ((Tag.closing name).text ++ s)))
  | void {ss : List Shape} {s : List Char} {name : String} {given : List Attribute}
      (sound : (Tag.void name given).Sound) (more : Markup ss s) :
      Markup (.void name :: ss) ((Tag.void name given).text ++ s)
  | omitted {ss : List Shape} {s : List Char} (more : Markup ss s) :
      Markup (.omitted :: ss) (Tag.omitted.text ++ s)

namespace Markup

variable {ss ts : List Shape} {s t : List Char}

theorem append (h : Markup ss s) (h' : Markup ts t) : Markup (ss ++ ts) (s ++ t) := by
  induction h with
  | nil => exact h'
  | char c plain _ ih => exact ih.char c plain
  | element sound inside _ _ ih =>
    simp only [List.append_assoc]
    exact inside.element sound ih
  | void sound _ ih =>
    rw [List.append_assoc]
    exact ih.void sound
  | omitted _ ih =>
    rw [List.append_assoc]
    exact ih.omitted

/-- A text without angle brackets has no shapes. -/
theorem ofWords (words : ∀ c ∈ s, c ≠ '<' ∧ c ≠ '>') : Markup [] s := by
  induction s with
  | nil => exact nil
  | cons c s ih =>
    exact (ih fun d hd => words d (List.mem_cons_of_mem c hd)).char c (words c List.mem_cons_self)

end Markup

/-! ## Angle brackets -/

/-- Every angle bracket that opens something begins a tag. -/
def Angles (s : List Char) : Prop :=
  ∀ r, '<' :: r <:+ s → ∃ t : Tag, t.Sound ∧ t.text <+: '<' :: r

namespace Angles

variable {s x : List Char} {ss : List Shape}

theorem cons {c : Char} (other : c ≠ '<') (h : Angles s) : Angles (c :: s) := by
  intro r hr
  rcases List.suffix_cons_iff.mp hr with e | hr
  · exact absurd (List.cons.inj e).1.symm other
  · exact h r hr

theorem append {body : List Char} (other : '<' ∉ body) (h : Angles s) : Angles (body ++ s) := by
  induction body with
  | nil => exact h
  | cons c body ih =>
    rw [List.mem_cons, not_or] at other
    exact (ih other.2).cons fun e => other.1 e.symm

theorem tag {t : Tag} (sound : t.Sound) (h : Angles s) : Angles (t.text ++ s) := by
  obtain ⟨body, e, other⟩ := sound.text_eq
  intro r hr
  rw [e, List.cons_append] at hr
  rcases List.suffix_cons_iff.mp hr with same | later
  · refine ⟨t, sound, ?_⟩
    rw [same, e]
    exact List.prefix_append ('<' :: body) s
  · exact h.append other r later

end Angles

/-- In a text that has shapes, before another such text, every angle bracket that opens something
begins a tag. -/
theorem Markup.angles_append {ss : List Shape} {s x : List Char} (h : Markup ss s)
    (hx : Angles x) : Angles (s ++ x) := by
  induction h generalizing x with
  | nil => exact hx
  | char c plain _ ih => exact (ih hx).cons plain.1
  | element sound _ _ inside more =>
    have close : (Tag.closing _).Sound := sound.1
    simp only [List.append_assoc]
    exact (inside ((more hx).tag close)).tag sound
  | void sound _ ih =>
    rw [List.append_assoc]
    exact (ih hx).tag sound
  | omitted _ ih =>
    rw [List.append_assoc]
    exact (ih hx).tag (t := .omitted) trivial

theorem Markup.angles {ss : List Shape} {s : List Char} (h : Markup ss s) : Angles s := by
  have none : Angles [] := by
    intro r hr
    cases List.suffix_nil.mp hr
  rw [← List.append_nil s]
  exact h.angles_append none

end MarkdownForest.Html
