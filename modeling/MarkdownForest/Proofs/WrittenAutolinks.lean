/-
# MarkdownForest.Proofs.WrittenAutolinks -- links between angle brackets read back

A link whose text is its own address is written between angle brackets.  Three
grammars meet there: the writer's, by which the form is chosen; the automaton's,
which looks for an autolink behind the bracket; and that of the lines that open raw
HTML.

* `angleRun_uri`, `angleRun_email`: the automaton finds every address with a scheme
  that the writer takes for one, and every mail address that does not begin with an
  exclamation mark;
* `opensTag_of_mark`: no address is a tag, since a colon or an at sign comes before a
  blank or a bracket;
* but a bracket with an exclamation or a question mark behind it opens raw HTML
  before anything else is looked at, and a mail address may begin so.

So such a link is read back as itself unless its text begins with one of the two
marks, and then as raw HTML (`autolink_reads_back`).
-/
import Mathlib.Data.Bool.AllAny
import MarkdownForest.Proofs.Autolinks
import MarkdownForest.Proofs.PlainDocuments

namespace MarkdownForest

set_option autoImplicit false

open Text CommonMark
open Line (Trimmed IsText)

/-! ## The grammar of the writer -/

namespace CommonMark

variable {c m : Char} {s t w url text : List Char}

theorem splitAt?_eq_some {before after : List Char} (h : splitAt? c s = some (before, after)) :
    s = before ++ c :: after := by
  unfold splitAt? at h
  split at h
  · cases h
  · rename_i d rest behind
    obtain ⟨rfl, rfl⟩ := Prod.mk.inj (Option.some.inj h)
    have first := List.head?_dropWhile_not (· != c) s
    rw [behind] at first
    obtain rfl : d = c := by simpa using first
    rw [← behind]
    exact List.takeWhile_append_dropWhile.symm

/-- The characters of a scheme behind its first. -/
def isSchemeChar (c : Char) : Bool :=
  c.isAlphanum || c == '+' || c == '.' || c == '-'

/-- The characters of an address behind its scheme. -/
def isAddressRest (c : Char) : Bool :=
  !(c == ' ' || c == '<' || c == '>' || c == '\n')

/-- An address that begins with a scheme of two characters or more. -/
inductive Uri : List Char → Prop
  | intro {a b : Char} {scheme rest : List Char} (first : a.isAlpha)
      (schemes : ∀ c ∈ b :: scheme, isSchemeChar c) (address : ∀ c ∈ rest, isAddressRest c) :
      Uri (a :: b :: scheme ++ ':' :: rest)

theorem uri_of_isUri (h : isUri url) : Uri url := by
  unfold isUri at h
  split at h
  · cases h
  · rename_i scheme rest split
    obtain rfl := splitAt?_eq_some split
    simp only [Bool.and_eq_true, decide_eq_true_eq, Bool.not_eq_true'] at h
    obtain ⟨⟨⟨first, long⟩, schemes⟩, address⟩ := h
    match scheme, long with
    | a :: b :: scheme, _ =>
      refine .intro (by simpa using first) (List.all_eq_true.mp schemes) fun c hc => ?_
      rw [isAddressRest, Bool.not_eq_true']
      simpa using List.any_eq_false.mp address c hc

/-- The characters of the labels of a domain. -/
def isLabelChar (c : Char) : Bool :=
  c.isAlphanum || c == '-'

/-- A mail address: labels with dots between them, behind a local part and an at sign. -/
inductive Email : List Char → Prop
  | intro {a : Char} {mailbox : List Char} {labels : List (List Char)}
      (mail : ∀ c ∈ a :: mailbox, isMailChar c) (some : labels ≠ [])
      (named : ∀ label ∈ labels, label ≠ [] ∧ ∀ c ∈ label, isLabelChar c) :
      Email (a :: mailbox ++ '@' :: List.intercalate ['.'] labels)

theorem email_of_isEmail (h : isEmail text) : Email text := by
  unfold isEmail at h
  split at h
  · cases h
  · rename_i mailbox domain split
    obtain rfl := splitAt?_eq_some split
    simp only [Bool.and_eq_true, Bool.not_eq_true', List.isEmpty_eq_false_iff] at h
    obtain ⟨⟨filled, mail⟩, labels⟩ := h
    obtain ⟨a, mailbox, rfl⟩ := List.exists_cons_of_ne_nil filled
    have joined : ['.'].intercalate (domain.splitOn '.') = domain := List.intercalate_splitOn '.'
    rw [← joined]
    refine .intro (List.all_eq_true.mp mail) (List.splitOn_ne_nil _ _) fun label hl => ?_
    have named := List.all_eq_true.mp labels label hl
    simp only [Bool.and_eq_true, Bool.not_eq_true', List.isEmpty_eq_false_iff] at named
    exact ⟨named.1, List.all_eq_true.mp named.2⟩

/-- A link in angle brackets is its text between them. -/
theorem autolink?_cases (h : autolink? url text = some w) :
    w = '<' :: text ++ ['>'] ∧
      (url = text ∧ Uri text ∨ url = "mailto:".toList ++ text ∧ Email text) := by
  unfold autolink? at h
  split at h
  · rename_i uri
    obtain ⟨rfl, uri⟩ : text = url ∧ isUri url := by simpa using uri
    exact ⟨(Option.some.inj h).symm, .inl ⟨rfl, uri_of_isUri uri⟩⟩
  · split at h
    · rename_i mail
      obtain ⟨address, mail⟩ := Bool.and_eq_true_iff.mp mail
      exact ⟨(Option.some.inj h).symm, .inr ⟨beq_iff_eq.mp address, email_of_isEmail mail⟩⟩
    · cases h

end CommonMark

/-! ## Runs of the automaton -/

/-- From the state `q` the automaton reads the characters `s` and is in the state `q'`. -/
def AngleReads (q : Nat) (s : List Char) (q' : Nat) : Prop :=
  ∀ taken rest, angleRun q taken (s ++ rest) = angleRun q' (s.reverse ++ taken) rest

/-- From each of the states a character of the class leads to one of the others. -/
def Leads (states : List Nat) (p : Char → Bool) (others : List Nat) : Prop :=
  ∀ q ∈ states, ∀ c, p c → ∃ q' ∈ others, (angleRow q).move? c = some (.move q')

section Automaton

variable {c : Char} {p : Char → Bool} {q q' q'' : Nat} {s t : List Char}
  {states others : List Nat}

theorem AngleReads.nil (q : Nat) : AngleReads q [] q := fun _ _ => rfl

theorem AngleReads.append (h : AngleReads q s q') (h' : AngleReads q' t q'') :
    AngleReads q (s ++ t) q'' := by
  intro taken rest
  rw [List.append_assoc, h, h', List.reverse_append, List.append_assoc]

/-- What the automaton finds when a bracket ends what it has read. -/
theorem AngleReads.accepts {found : AngleEnd} (h : AngleReads 0 s q)
    (closes : (angleRow q).move? '>' = some (.accept found)) (rest : List Char) :
    angleRun 0 ['<'] (s ++ '>' :: rest) = (found, ('<' :: s ++ ['>']).reverse, rest) := by
  rw [h, angleRun, closes]
  simp

theorem Leads.one (h : Leads states p others) (hq : q ∈ states) (hc : p c) :
    ∃ q' ∈ others, AngleReads q [c] q' := by
  obtain ⟨q', hq', moves⟩ := h q hq c hc
  refine ⟨q', hq', fun taken rest => ?_⟩
  rw [List.singleton_append, angleRun, moves]
  rfl

/-- A class of characters that does not lead away from some states. -/
theorem Leads.many (h : Leads states p states) (hq : q ∈ states) (hs : ∀ c ∈ s, p c) :
    ∃ q' ∈ states, AngleReads q s q' := by
  induction s generalizing q with
  | nil => exact ⟨q, hq, .nil q⟩
  | cons c s ih =>
    obtain ⟨here, more⟩ := List.forall_mem_cons.mp hs
    obtain ⟨next, hn, first⟩ := h.one hq here
    obtain ⟨last, hl, rest⟩ := ih hn more
    exact ⟨last, hl, first.append rest⟩

/-- Of a class inside ASCII this can be looked up, number by number. -/
theorem leads_of_ascii (ascii : ∀ c, p c → c.toNat < 128)
    (all : ∀ n < 128, p (Char.ofNat n) → ∀ q ∈ states,
      ∃ q' ∈ others, (angleRow q).move? (Char.ofNat n) = some (.move q')) :
    Leads states p others := by
  intro q hq c hc
  have here := all c.toNat (ascii c hc)
  rw [Char.ofNat_toNat] at here
  exact here hc q hq

end Automaton

/-! ### Classes inside ASCII -/

theorem ascii_of_isSchemeChar (c : Char) (h : isSchemeChar c) : c.toNat < 128 := by
  simp only [isSchemeChar, Bool.or_eq_true, beq_iff_eq] at h
  rcases h with ((h | rfl) | rfl) | rfl
  · exact ascii_of_isAlphanum h
  all_goals decide

theorem ascii_of_isMailChar (c : Char) (h : isMailChar c) : c.toNat < 128 := by
  have marks : ∀ d ∈ ".!#$%&\x27*+/=?^_\x7b|\x7d~-".toList, d.toNat < 128 :=
    List.all_iff_forall_prop.mp (by decide)
  rcases Bool.or_eq_true_iff.mp h with h | h
  · exact ascii_of_isAlphanum h
  · exact marks c (List.contains_iff_mem.mp h)

theorem isMailChar_of_isLabelChar {c : Char} (h : isLabelChar c) : isMailChar c := by
  rcases Bool.or_eq_true_iff.mp h with h | h
  · simp [isMailChar, h]
  · rw [beq_iff_eq.mp h]
    decide

theorem ascii_of_isLabelChar (c : Char) (h : isLabelChar c) : c.toNat < 128 :=
  ascii_of_isMailChar c (isMailChar_of_isLabelChar h)

theorem ascii_of_eq {d : Char} (ascii : d.toNat < 128) (c : Char) (h : c == d) : c.toNat < 128 :=
  beq_iff_eq.mp h ▸ ascii

/-! ### Addresses with a scheme -/

/-- The states inside a scheme, behind its first character. -/
def schemeStates : List Nat := [10, 11]

/-- The first character of a scheme, the second, those behind it, and the colon. -/
theorem leads_scheme :
    Leads [0] Char.isAlpha [4] ∧ Leads [4] isSchemeChar schemeStates ∧
      Leads schemeStates isSchemeChar schemeStates ∧ Leads schemeStates (· == ':') [19] := by
  have letter : ∀ c : Char, c.isAlpha → c.toNat < 128 := fun c hc =>
    ascii_of_isAlphanum (by simp [Char.isAlphanum, hc])
  have colon : ∀ c : Char, c == ':' → c.toNat < 128 := ascii_of_eq (by decide)
  refine ⟨leads_of_ascii letter ?_, leads_of_ascii ascii_of_isSchemeChar ?_,
    leads_of_ascii ascii_of_isSchemeChar ?_, leads_of_ascii colon ?_⟩ <;> decide +kernel

/-- Behind the scheme may stand characters of any kind. -/
theorem leads_address : Leads [19] isAddressRest [19] := by
  intro q hq c hc
  rw [List.mem_singleton] at hq
  subst hq
  have apart : ∀ d, isAddressRest d = false → c.toNat ≠ d.toNat := fun d hd same =>
    ne_of_class hc hd (Char.toNat_inj.mp same)
  have space : c.toNat ≠ 0x20 := apart ' ' (by decide)
  have opens : c.toNat ≠ 0x3C := apart '<' (by decide)
  have closes : c.toNat ≠ 0x3E := apart '>' (by decide)
  have feed : c.toNat ≠ 0x0A := apart '\n' (by decide)
  have last : c.toNat ≤ 0x10FFFF := by
    have valid : c.toNat.isValidChar := c.valid
    rcases valid with low | ⟨-, high⟩ <;> omega
  have here : within
      [(0x00, 0x09), (0x0B, 0x1F), (0x21, 0x3B), (0x3D, 0x3D), (0x3F, 0x10FFFF)] c.toNat := by
    simp only [within, List.any_cons, List.any_nil, Bool.or_false, Bool.or_eq_true,
      Bool.and_eq_true, decide_eq_true_eq]
    omega
  have row : (angleRow 19).moves =
      [([(0x00, 0x09), (0x0B, 0x1F), (0x21, 0x3B), (0x3D, 0x3D), (0x3F, 0x10FFFF)], .move 19),
        ([(0x3E, 0x3E)], .accept .uri)] := rfl
  exact ⟨19, List.mem_singleton_self 19, by simp [AngleRow.move?, row, here]⟩

/-! ### Mail addresses -/

/-- The states inside a local part that does not begin with an exclamation mark, and those behind
an at sign or a dot. -/
def mailStates : List Nat := [2, 3, 4, 8, 10, 11, 12, 20]

def labelStates : List Nat := [6, 7, 16, 21]

/-- The first character of a local part, those behind it, and the at sign. -/
theorem leads_mailbox :
    Leads [0] (fun c => isMailChar c && c != '!') mailStates ∧
      Leads mailStates isMailChar mailStates ∧ Leads mailStates (· == '@') labelStates := by
  have first : ∀ c : Char, (isMailChar c && c != '!') → c.toNat < 128 := fun c hc =>
    ascii_of_isMailChar c (Bool.and_eq_true_iff.mp hc).1
  have at_sign : ∀ c : Char, c == '@' → c.toNat < 128 := ascii_of_eq (by decide)
  refine ⟨leads_of_ascii first ?_, leads_of_ascii ascii_of_isMailChar ?_,
    leads_of_ascii at_sign ?_⟩ <;> decide +kernel

/-- The first character of a label, those behind it, and the dot. -/
theorem leads_label :
    Leads labelStates isLabelChar [14] ∧ Leads [14] isLabelChar [14] ∧
      Leads [14] (· == '.') labelStates := by
  have dot : ∀ c : Char, c == '.' → c.toNat < 128 := ascii_of_eq (by decide)
  refine ⟨leads_of_ascii ascii_of_isLabelChar ?_, leads_of_ascii ascii_of_isLabelChar ?_,
    leads_of_ascii dot ?_⟩ <;> decide +kernel

/-! ### Lexemes -/

section Lexemes

variable {s : List Char}

/-- A row of labels with dots between them leads behind its last label. -/
theorem reads_labels {labels : List (List Char)} (filled : labels ≠ [])
    (named : ∀ label ∈ labels, label ≠ [] ∧ ∀ c ∈ label, isLabelChar c) {q : Nat}
    (hq : q ∈ labelStates) : AngleReads q (List.intercalate ['.'] labels) 14 := by
  obtain ⟨leads_first, leads_more, leads_dot⟩ := leads_label
  -- a label leads from any of the states to its end
  have reads_label : ∀ {q : Nat} {label : List Char}, q ∈ labelStates → label ≠ [] →
      (∀ c ∈ label, isLabelChar c) → AngleReads q label 14 := by
    intro q label hq some named
    obtain ⟨c, s, rfl⟩ := List.exists_cons_of_ne_nil some
    obtain ⟨here, more⟩ := List.forall_mem_cons.mp named
    obtain ⟨next, hn, first⟩ := leads_first.one hq here
    obtain ⟨last, hl, rest⟩ := leads_more.many hn more
    rw [List.mem_singleton.mp hl] at rest
    exact first.append rest
  induction labels generalizing q with
  | nil => exact absurd rfl filled
  | cons label labels ih =>
    obtain ⟨⟨some, here⟩, more⟩ := List.forall_mem_cons.mp named
    have first := reads_label hq some here
    cases labels with
    | nil => rwa [List.intercalate_singleton]
    | cons label' labels =>
      obtain ⟨next, hn, dot⟩ := leads_dot.one (List.mem_singleton_self 14) (c := '.') rfl
      rw [List.intercalate_cons_cons, List.append_assoc]
      exact first.append (dot.append (ih (List.cons_ne_nil _ _) more hn))

/-- The automaton finds an address with a scheme between brackets. -/
theorem angleRun_uri (h : Uri s) (rest : List Char) :
    angleRun 0 ['<'] (s ++ '>' :: rest) = (.uri, ('<' :: s ++ ['>']).reverse, rest) := by
  obtain ⟨first, schemes, address⟩ := h
  obtain ⟨second, more⟩ := List.forall_mem_cons.mp schemes
  obtain ⟨leads_first, leads_second, leads_more, leads_colon⟩ := leads_scheme
  obtain ⟨q₁, h₁, r₁⟩ := leads_first.one (List.mem_singleton_self 0) first
  obtain ⟨q₂, h₂, r₂⟩ := leads_second.one h₁ second
  obtain ⟨q₃, h₃, r₃⟩ := leads_more.many h₂ more
  obtain ⟨q₄, h₄, r₄⟩ := leads_colon.one h₃ (c := ':') rfl
  obtain ⟨q₅, h₅, r₅⟩ := leads_address.many h₄ address
  rw [List.mem_singleton.mp h₅] at r₅
  have reads := r₁.append (r₂.append (r₃.append (r₄.append r₅)))
  simpa using reads.accepts rfl rest

/-- It finds a mail address that does not begin with an exclamation mark. -/
theorem angleRun_email (h : Email s) (bang : s.head? ≠ some '!') (rest : List Char) :
    angleRun 0 ['<'] (s ++ '>' :: rest) = (.email, ('<' :: s ++ ['>']).reverse, rest) := by
  obtain ⟨mail, some, named⟩ := h
  rename_i a mailbox labels
  obtain ⟨first, more⟩ := List.forall_mem_cons.mp mail
  have start : isMailChar a && a != '!' := by simpa [first] using bang
  obtain ⟨leads_first, leads_more, leads_at⟩ := leads_mailbox
  obtain ⟨q₁, h₁, r₁⟩ := leads_first.one (List.mem_singleton_self 0) start
  obtain ⟨q₂, h₂, r₂⟩ := leads_more.many h₁ more
  obtain ⟨q₃, h₃, r₃⟩ := leads_at.one h₂ (c := '@') rfl
  have reads := r₁.append (r₂.append (r₃.append (reads_labels some named h₃)))
  simpa using reads.accepts rfl rest

theorem lex_uri (h : Uri s) (rest : List Char) :
    lex '<' (s ++ '>' :: rest) = ⟨.uriAutolink s, '<' :: s ++ ['>'], rest⟩ := by
  have found := angleRun_uri h rest
  simp [lex, Lexeme.ofAngle, found, Lexeme.angleToken]

theorem lex_email (h : Email s) (bang : s.head? ≠ some '!') (rest : List Char) :
    lex '<' (s ++ '>' :: rest) = ⟨.emailAutolink s, '<' :: s ++ ['>'], rest⟩ := by
  have found := angleRun_email h bang rest
  simp [lex, Lexeme.ofAngle, found, Lexeme.angleToken]

end Lexemes

/-! ## Lines -/

section Lines

variable {k s u : List Char} {m : Char}

/-- The characters of a tag's name. -/
def isNameChar (c : Char) : Bool :=
  c.isAlphanum || c == '-'

/-- The characters that end a tag's name, alone or behind a slash. -/
def endsName (c : Char) : Bool :=
  c == ' ' || c == '\t' || c == '>'

/-- The marks behind the scheme of an address and behind the local part of a mail address. -/
def isAddressMark (c : Char) : Bool :=
  c == ':' || c == '@'

theorem endsTagName_cons {c : Char} {t : List Char} (here : endsName c = false)
    (slash : c = '/' → t.head? ≠ some '>') : endsTagName (c :: t) = false := by
  simp only [endsName, Bool.or_eq_false_iff, beq_eq_false_iff_ne] at here
  obtain ⟨⟨space, tab⟩, angle⟩ := here
  unfold endsTagName
  split
  all_goals simp_all

/-- No tag's name ends before a colon or an at sign. -/
theorem endsTagName_of_mark (clear : ∀ c ∈ k, endsName c = false) (mark : isAddressMark m)
    (u : List Char) : endsTagName ((k ++ m :: u).dropWhile isNameChar) = false := by
  have outside : isNameChar m = false ∧ endsName m = false ∧ m ≠ '/' ∧ m ≠ '>' := by
    rcases Bool.or_eq_true_iff.mp mark with h | h
    · rw [beq_iff_eq.mp h]
      decide
    · rw [beq_iff_eq.mp h]
      decide
  obtain ⟨noName, noEnd, noSlash, noAngle⟩ := outside
  obtain ⟨name, t, rfl, names, ht⟩ := exists_span isNameChar k
  rw [List.append_assoc, List.dropWhile_append_of_pos names]
  cases t with
  | nil =>
    rw [List.nil_append, List.dropWhile_cons_of_neg (by simp [noName])]
    exact endsTagName_cons noEnd fun e => absurd e noSlash
  | cons d t =>
    have other : isNameChar d = false := by simpa using ht
    rw [List.cons_append, List.dropWhile_cons_of_neg (by simp [other])]
    refine endsTagName_cons (clear d (by simp)) fun _ angle => ?_
    cases t with
    | nil => exact noAngle (by simpa using angle)
    | cons e t =>
      have ends := clear e (by simp)
      rw [show e = '>' by simpa using angle] at ends
      cases ends

/-- What is no end of a name up to a colon or an at sign is no tag. -/
theorem opensTag_of_mark (clear : ∀ c ∈ k, endsName c = false) (mark : isAddressMark m)
    (u : List Char) : opensTag (k ++ m :: u) = false := by
  have name : (fun c : Char => c.isAlphanum || c == '-') = isNameChar := rfl
  unfold opensTag
  dsimp only
  rw [name]
  split
  · rename_i s slash
    -- behind a slash of the address itself: the mark is none
    cases k with
    | nil =>
      obtain ⟨rfl, -⟩ := List.cons.inj slash
      cases mark
    | cons c k =>
      rw [List.cons_append] at slash
      obtain ⟨-, rfl⟩ := List.cons.inj slash
      have more := endsTagName_of_mark (fun d hd => clear d (List.mem_cons_of_mem c hd)) mark u
      rw [more]
      simp
  · rw [endsTagName_of_mark clear mark u]
    simp

/-- The marks behind which every bracket opens raw HTML. -/
def isRawMark (c : Char) : Bool :=
  c == '!' || c == '?'

theorem opensHtml_of_raw (raw : s.head?.any isRawMark) : opensHtml ('<' :: s) := by
  cases s with
  | nil => cases raw
  | cons c s =>
    rcases Bool.or_eq_true_iff.mp (show isRawMark c from raw) with h | h
    · rw [beq_iff_eq.mp h]
      rfl
    · rw [beq_iff_eq.mp h]
      rfl

theorem opensHtml_of_not_raw (plain : s.head?.any isRawMark = false) :
    opensHtml ('<' :: s) = opensTag s := by
  unfold opensHtml
  split
  · rename_i e
    cases e
    cases plain
  · rename_i e
    cases e
    cases plain
  · rename_i e
    cases e
    rfl
  · rename_i other
    exact absurd rfl (other s)

/-- Labels with dots between them consist of dots and of characters of the labels. -/
theorem mem_dotted {c : Char} {labels : List (List Char)}
    (h : c ∈ List.intercalate ['.'] labels) : c = '.' ∨ ∃ label ∈ labels, c ∈ label := by
  induction labels with
  | nil => cases h
  | cons label labels ih =>
    cases labels with
    | nil => exact .inr ⟨label, List.mem_cons_self, by simpa using h⟩
    | cons next labels =>
      rw [List.intercalate_cons_cons, List.append_assoc] at h
      rcases List.mem_append.mp h with here | further
      · exact .inr ⟨label, List.mem_cons_self, here⟩
      · rcases List.mem_append.mp further with dot | further
        · exact .inl (List.mem_singleton.mp dot)
        · exact (ih further).imp_right fun ⟨l, hl, hc⟩ => ⟨l, List.mem_cons_of_mem _ hl, hc⟩

/-- The part of an address up to its mark. -/
theorem exists_mark (h : Uri s ∨ Email s) : ∃ k m u, s = k ++ m :: u ∧ isAddressMark m ∧
    (∀ c ∈ k, endsName c = false) ∧ ∀ c ∈ s, c ≠ '\n' := by
  rcases h with uri | mail
  · obtain ⟨first, schemes, address⟩ := uri
    rename_i a b scheme rest
    have chars : ∀ c ∈ a :: b :: scheme, isSchemeChar c :=
      List.forall_mem_cons.mpr ⟨by simp [isSchemeChar, Char.isAlphanum, first], schemes⟩
    refine ⟨_, ':', rest, rfl, rfl, fun c hc => ?_, fun c hc => ?_⟩
    · have apart : ∀ d, isSchemeChar d = false → c ≠ d := fun d hd =>
        ne_of_class (chars c hc) hd
      simp [endsName, apart ' ' (by decide), apart '\t' (by decide), apart '>' (by decide)]
    · rcases List.mem_append.mp hc with hc | hc
      · exact ne_of_class (chars c hc) (by decide)
      · rcases List.mem_cons.mp hc with rfl | hc
        · decide
        · exact ne_of_class (address c hc) (by decide)
  · obtain ⟨chars, some, named⟩ := mail
    rename_i a mailbox labels
    refine ⟨_, '@', _, rfl, rfl, fun c hc => ?_, fun c hc => ?_⟩
    · have apart : ∀ d, isMailChar d = false → c ≠ d := fun d hd => ne_of_class (chars c hc) hd
      simp [endsName, apart ' ' (by decide), apart '\t' (by decide), apart '>' (by decide)]
    · rcases List.mem_append.mp hc with hc | hc
      · exact ne_of_class (chars c hc) (by decide)
      · rcases List.mem_cons.mp hc with rfl | hc
        · decide
        · rcases mem_dotted hc with rfl | ⟨label, hl, hc⟩
          · decide
          · exact ne_of_class ((named label hl).2 c hc) (by decide)

theorem trimmed_bracketed (h : Uri s ∨ Email s) : Trimmed ('<' :: s ++ ['>']) := by
  obtain ⟨-, -, -, -, -, -, line⟩ := exists_mark h
  have feed : '\n' ∉ s := fun feed => line _ feed rfl
  exact ⟨by simp [feed], ⟨'<', _, rfl, by decide⟩, ⟨'>', _, rfl, by decide⟩⟩

/-- A line that begins with a bracket opens nothing that begins with another character. -/
theorem opens_bracket (s : List Char) (offset : Nat) :
    let l : Line := ⟨'<' :: s, offset⟩
    l.rest = '<' :: s ∧ l.indent = 0 ∧ Fence.open? ('<' :: s) = none ∧ header? ('<' :: s) = none ∧
      isRule ('<' :: s) = false ∧ Marker.read? l = none := by
  intro l
  have rest : l.rest = '<' :: s := Line.rest_of_first (by decide)
  have indent : l.indent = 0 := Line.indent_of_first (by decide)
  refine ⟨rest, indent, Line.open?_of_first (by decide) (by decide),
    Line.header?_of_first (by decide), Line.isRule_of_mem List.mem_cons_self (by decide), ?_⟩
  rw [Marker.read?, indent, rest]
  simp [Marker.head?]

/-- Unless it opens raw HTML, it is text. -/
theorem isText_bracket (html : opensHtml ('<' :: s) = false) (offset : Nat) :
    (⟨'<' :: s, offset⟩ : Line).IsText := by
  obtain ⟨rest, indent, fence, header, rule, marker⟩ := opens_bracket s offset
  constructor
  · rw [indent]
    decide
  · rwa [rest]
  · rwa [rest]
  · rw [rest]
    simp
  · rwa [rest]
  · exact marker
  · rwa [rest]

/-- And raw HTML goes on up to a blank line. -/
theorem take_bracket (html : opensHtml ('<' :: s)) (offset : Nat) {ls : List Line}
    (blank : ∀ l ∈ ls, l.isBlank) :
    Layout.take ⟨'<' :: s, offset⟩ ls = { layout := .html ('<' :: s ++ ['\n']), rest := ls } := by
  obtain ⟨rest, indent, fence, header, rule, marker⟩ := opens_bracket s offset
  have alone : ls.takeWhile (fun k => !k.isBlank) = [] ∧
      ls.dropWhile (fun k => !k.isBlank) = ls := by
    cases ls with
    | nil => exact ⟨rfl, rfl⟩
    | cons l ls => simp [blank l List.mem_cons_self]
  rw [Layout.take, if_neg (by rw [indent]; decide), rest, fence]
  simp [header, rule, marker, html, Layout.takeHtml, alone, endedLines]

/-- An address between brackets is text, unless its first character is a mark of raw HTML. -/
theorem opensHtml_bracketed (h : Uri s ∨ Email s) (plain : s.head?.any isRawMark = false) :
    opensHtml ('<' :: s ++ ['>']) = false := by
  obtain ⟨k, m, u, same, mark, clear, -⟩ := exists_mark h
  have first : (s ++ ['>']).head?.any isRawMark = false := by
    rw [same] at plain ⊢
    cases k <;> exact plain
  rw [List.cons_append, opensHtml_of_not_raw first, same, List.append_assoc]
  exact opensTag_of_mark clear mark _

end Lines

/-! ## Documents of one link -/

/-- A document of a link without a title and with one text. -/
def linkDocument (url text : String) : Tree :=
  .node .document [.node .paragraph [.node (.link url "") [.leaf (.text text)]]]

/-- The document of a bracketed text as raw HTML. -/
def rawDocument (text : String) : Tree :=
  .node .document [.leaf (.html ("<" ++ text ++ ">\n"))]

section Documents

variable {m : Nat} {url text : String} {w : List Char}

theorem parseInlines_uri {s : List Char} (h : Uri s) :
    parseInlines ('<' :: s ++ ['>']) = [.link s [] [.text s]] := by
  refine Scan.parseInlines_of_becomes_inline
    (Scan.becomes_lexeme (.uriAutolink s) ?_ fun _ _ => rfl)
  rw [List.append_nil]
  exact lex_uri h []

theorem parseInlines_email {s : List Char} (h : Email s) (bang : s.head? ≠ some '!') :
    parseInlines ('<' :: s ++ ['>']) = [.link ("mailto:".toList ++ s) [] [.text s]] := by
  refine Scan.parseInlines_of_becomes_inline
    (Scan.becomes_lexeme (.emailAutolink s) ?_ fun _ _ => rfl)
  rw [List.append_nil]
  exact lex_email h bang []

theorem write_linkDocument (chosen : autolinkOf? url "" [.leaf (.text text)] = some w) :
    write (linkDocument url text) = String.ofList ('<' :: text.toList ++ ['>'] ++ ['\n']) := by
  obtain ⟨rfl, -⟩ := autolink?_cases (show autolink? url.toList text.toList = some w from chosen)
  have block : blockText false (linkDocument url text) = '<' :: text.toList ++ ['>'] := by
    simp [linkDocument, blockText, blocksText, inlineText, writeInlines, writeInline, chosen]
  have ended := endLine_of_last (s := '<' :: text.toList ++ ['>']) (c := '>')
    (List.getLast?_concat ..) (by decide)
  rw [write, writeBefore, ← ended, ← block]
  rfl

/-- Text that begins with no mark of raw HTML is read as the link. -/
theorem parse_linkDocument (chosen : autolinkOf? url "" [.leaf (.text text)] = some w)
    (plain : text.toList.head?.any isRawMark = false) :
    parse ⟨false, m⟩ (write (linkDocument url text)) = .ok (linkDocument url text) := by
  obtain ⟨-, form⟩ := autolink?_cases (show autolink? url.toList text.toList = some w from chosen)
  have address : Uri text.toList ∨ Email text.toList := form.imp And.right And.right
  have inlines : parseInlines ('<' :: text.toList ++ ['>']) =
      [.link url.toList [] [.text text.toList]] := by
    rcases form with ⟨same, uri⟩ | ⟨same, mail⟩
    · rw [parseInlines_uri uri, same]
    · have bang : text.toList.head? ≠ some '!' := by
        intro bang
        rw [bang] at plain
        cases plain
      rw [parseInlines_email mail bang, same]
  rw [write_linkDocument chosen, parse_line (trimmed_bracketed address)
    (isText_bracket (opensHtml_bracketed address plain) 0) (.inr rfl), inlineTrees, inlines]
  simp [linkDocument, Inline.toTrees, Inline.toTree]

/-- Other text is read as raw HTML. -/
theorem parse_rawDocument (chosen : autolinkOf? url "" [.leaf (.text text)] = some w)
    (raw : text.toList.head?.any isRawMark) :
    parse ⟨false, m⟩ (write (linkDocument url text)) = .ok (rawDocument text) := by
  obtain ⟨-, form⟩ := autolink?_cases (show autolink? url.toList text.toList = some w from chosen)
  have trimmed := trimmed_bracketed (form.imp And.right And.right)
  have html : opensHtml ('<' :: (text.toList ++ ['>'])) := by
    refine opensHtml_of_raw ?_
    cases h : text.toList with
    | nil => simp [h] at raw
    | cons c s => simpa [h] using raw
  rw [write_linkDocument chosen, parse_leafLine trimmed.verbatim (trimmed.not_blank 0)
    (fun ls blank => take_bracket html 0 blank) (by simp) (by simp) (.inr rfl)]
  have literal : String.ofList ('<' :: text.toList ++ ['>'] ++ ['\n']) = "<" ++ text ++ ">\n" := by
    rw [← String.toList_inj]
    simp
  rw [rawDocument, ← literal]
  rfl

end Documents

namespace Forest

/-- **A link in angle brackets is read back** if its text does not begin with an exclamation or a
question mark, which a mail address may do.  Then the line opens raw HTML, before anyone looks for
a mail address in it. -/
theorem autolink_reads_back {m : Nat} {url text : String} {w : List Char}
    (chosen : autolinkOf? url "" [.leaf (.text text)] = some w) :
    ReadsBackAs ⟨false, m⟩ (linkDocument url text)
        (if text.toList.head? = some '!' ∨ text.toList.head? = some '?' then rawDocument text
          else linkDocument url text) ∧
      (parse ⟨false, m⟩ (write (linkDocument url text)) = .ok (linkDocument url text) ↔
        ¬ (text.toList.head? = some '!' ∨ text.toList.head? = some '?')) := by
  have marks : text.toList.head?.any isRawMark ↔
      text.toList.head? = some '!' ∨ text.toList.head? = some '?' := by
    cases text.toList <;> simp [isRawMark]
  by_cases raw : text.toList.head? = some '!' ∨ text.toList.head? = some '?'
  · have parsed := parse_rawDocument (m := m) chosen (marks.mpr raw)
    rw [if_pos raw]
    refine ⟨readsBackAs_of_parse rfl parsed, iff_of_false ?_ (not_not_intro raw)⟩
    rw [parsed]
    simp [rawDocument, linkDocument, Tree.leaf]
  · have parsed := parse_linkDocument (m := m) chosen
      (Bool.eq_false_iff.mpr fun h => raw (marks.mp h))
    rw [if_neg raw]
    exact ⟨readsBackAs_of_parse rfl parsed, iff_of_true parsed raw⟩

/-- A mail address with slashes, marks and hyphens. -/
theorem autolink_reads_back_thorny :
    let text := "/a!?-@-b.c--d"
    autolinkOf? ("mailto:" ++ text) "" [.leaf (.text text)] = some ("<" ++ text ++ ">").toList ∧
      parse ⟨false, 0⟩ (write (linkDocument ("mailto:" ++ text) text)) =
        .ok (linkDocument ("mailto:" ++ text) text) := by
  intro text
  have chosen : autolinkOf? ("mailto:" ++ text) "" [.leaf (.text text)] =
      some ("<" ++ text ++ ">").toList := by decide +kernel
  exact ⟨chosen, (autolink_reads_back chosen).2.mpr (by decide)⟩

/-- A mail address that begins with an exclamation mark, read from a source. -/
theorem autolink_of_bang :
    parse {} "[!a@b](mailto:!a@b)" = .ok (linkDocument "mailto:!a@b" "!a@b") ∧
      write (linkDocument "mailto:!a@b" "!a@b") = "<!a@b>\n" ∧
      parse {} "<!a@b>\n" = .ok (rawDocument "!a@b") ∧
      ¬ ∀ (url text : String) (w : List Char),
        autolinkOf? url "" [.leaf (.text text)] = some w →
          parse {} (write (linkDocument url text)) = .ok (linkDocument url text) := by
  have written : write (linkDocument "mailto:!a@b" "!a@b") = "<!a@b>\n" := by decide +kernel
  have read : parse {} "<!a@b>\n" = .ok (rawDocument "!a@b") := by decide +kernel
  refine ⟨by decide +kernel, written, read, fun all => ?_⟩
  have whole := all "mailto:!a@b" "!a@b" "<!a@b>".toList (by decide +kernel)
  rw [written, read] at whole
  revert whole
  decide

end Forest

end MarkdownForest
