/-
# MarkdownForest.Proofs.Matching -- which delimiters match, one step at a time

* `resolve_pass`, `resolve_match`: the two steps of `resolve`;
* `resolve_pair`: two runs of equally many marks become nested emphasis;
* `mem_text_of_left`, `mem_text_of_right`: the marks of a run that cannot match,
  and what is text already, are text in the end.
-/
import MarkdownForest.Html.Render
import MarkdownForest.Inline.Build
import Mathlib.Tactic.Common

namespace MarkdownForest.Emphasis

set_option autoImplicit false

open Text

section Steps

variable {p : Piece} {ps left right more above below : List Piece} {opener closer : Delim}

theorem resolve_nil (left : List Piece) : resolve left [] = left.reverse := by
  rw [resolve]

/-- A piece is passed by unless it closes something. -/
theorem resolve_pass (h : ∀ d, closer? p = some d → findOpener d left = none) :
    resolve left (p :: more) = resolve (p :: left) more := by
  rw [resolve]
  split
  · rfl
  · rename_i d hd
    split
    · rfl
    · rename_i ho
      cases (h d hd).symm.trans ho

/-- A run that nothing before it opens is passed by. -/
theorem resolve_unopened {d : Delim} (h : findOpener d left = none) :
    resolve left (.delim d :: more) = resolve (.delim d :: left) more :=
  resolve_pass fun e he => by
    cases (closer?_eq_some he).1
    exact h

theorem resolve_match (hc : closer? p = some closer)
    (ho : findOpener closer left = some (above, opener, below)) :
    resolve left (p :: more) =
      resolve (.inline (wrap (marksUsed opener closer) (finish above.reverse)) ::
          (remaining opener (marksUsed opener closer) ++ below))
        (remaining closer (marksUsed opener closer) ++ more) := by
  rw [resolve]
  split
  · rename_i hn
    cases hc.symm.trans hn
  · rename_i d hd
    cases hc.symm.trans hd
    split
    · rename_i hn
      cases ho.symm.trans hn
    · rename_i ho'
      cases ho.symm.trans ho'
      rfl

theorem findOpener_delim (d closer : Delim) (left : List Piece) :
    findOpener closer (.delim d :: left) =
      if d.opens closer then some ([], d, left)
      else (findOpener closer left).map fun (a, o, b) => (.delim d :: a, o, b) :=
  rfl

/-- No run of marks. -/
def Silent (p : Piece) : Prop :=
  ∀ d, p ≠ .delim d

theorem findOpener_silent (silent : ∀ p ∈ ps, Silent p) :
    findOpener closer (ps ++ left) =
      (findOpener closer left).map fun (a, o, b) => (ps ++ a, o, b) := by
  induction ps with
  | nil =>
    rw [List.nil_append]
    cases findOpener closer left <;> rfl
  | cons p ps ih =>
    have step : findOpener closer (p :: (ps ++ left)) =
        (findOpener closer (ps ++ left)).map fun (a, o, b) => (p :: a, o, b) := by
      cases p with
      | delim d => exact absurd rfl (silent _ List.mem_cons_self d)
      | _ => rfl
    rw [List.cons_append, step, ih fun q hq => silent q (List.mem_cons_of_mem _ hq)]
    cases findOpener closer left <;> rfl

theorem closer?_silent (silent : Silent p) : closer? p = none := by
  cases p with
  | delim d => exact absurd rfl (silent d)
  | _ => rfl

/-- Pieces that are no runs are passed by. -/
theorem resolve_silent (silent : ∀ p ∈ ps, Silent p) :
    resolve left (ps ++ right) = resolve (ps.reverse ++ left) right := by
  induction ps generalizing left with
  | nil => rfl
  | cons p ps ih =>
    have pass : closer? p = none := closer?_silent (silent p List.mem_cons_self)
    rw [List.cons_append, resolve_pass (by simp [pass]),
      ih fun q hq => silent q (List.mem_cons_of_mem _ hq)]
    simp

theorem findOpener_all_silent (silent : ∀ p ∈ ps, Silent p) : findOpener closer ps = none := by
  rw [← List.append_nil ps, findOpener_silent silent]
  rfl

theorem resolve_all_silent (silent : ∀ p ∈ ps, Silent p) : resolve left ps = left.reverse ++ ps := by
  rw [← List.append_nil ps, resolve_silent silent, resolve_nil]
  simp

end Steps

/-! ## Runs beside words and marks -/

section Flanking

variable {c m : Char} {other : Option Char}

theorem leftFlanking_before_word (hc : isWord c) : Delim.leftFlanking other (some c) = true := by
  obtain ⟨space, punctuation⟩ := (isWord_iff c).mp hc
  simp [Delim.leftFlanking, Delim.spaceAt, Delim.punctuationAt, space, punctuation]

theorem leftFlanking_after_word (hc : isWord c) :
    Delim.leftFlanking (some c) other = other.any isWord := by
  obtain ⟨space, punctuation⟩ := (isWord_iff c).mp hc
  cases other <;>
    simp [Delim.leftFlanking, Delim.spaceAt, Delim.punctuationAt, space, punctuation, isWord]

theorem leftFlanking_before_mark (hm : m = '*' ∨ m = '_') :
    Delim.leftFlanking other (some m) = !other.any isWord := by
  have mark : isSpace m = false ∧ isPunctuation m := by
    rcases hm with rfl | rfl <;> decide
  cases other <;>
    simp [Delim.leftFlanking, Delim.spaceAt, Delim.punctuationAt, mark, isWord]

/-- Runs that were equally long may match. -/
theorem oddMatch_of_orig_eq {opener closer : Delim} (h : opener.orig = closer.orig) :
    Delim.oddMatch opener closer = false := by
  unfold Delim.oddMatch
  rw [h]
  by_cases three : closer.orig % 3 = 0
  · simp [three]
  · have : (closer.orig + closer.orig) % 3 ≠ 0 := by omega
    simp [this]

end Flanking

/-! ## Two runs of equally many marks -/

/-- A level of nested emphasis. -/
inductive Level where
  | emph
  | strong
  deriving DecidableEq, Repr

namespace Level

/-- The marks on either side of a level. -/
def marks : Level → Nat
  | emph => 1
  | strong => 2

def around : Level → List Inline → Inline
  | emph, is => .emph is
  | strong, is => .strong is

theorem marks_pos (l : Level) : 0 < l.marks := by
  cases l <;> decide

theorem around_not_text (l : Level) (is : List Inline) (t : List Char) : l.around is ≠ .text t := by
  cases l <;> rintro ⟨⟩

end Level

/-- Inlines inside levels of emphasis, of which the outermost comes first. -/
def nested : List Level → List Inline → List Inline
  | [], is => is
  | l :: ls, is => [l.around (nested ls is)]

theorem nested_append (ks ls : List Level) (is : List Inline) :
    nested (ks ++ ls) is = nested ks (nested ls is) := by
  induction ks with
  | nil => rfl
  | cons k ks ih => rw [List.cons_append, nested, ih, nested]

/-- The levels that `n` marks on either side make: a mark left over is outermost. -/
def levelsOf (n : Nat) : List Level :=
  (if n % 2 = 1 then [.emph] else []) ++ List.replicate (n / 2) .strong

theorem levelsOf_add_two (n : Nat) : levelsOf (n + 2) = levelsOf n ++ [.strong] := by
  have half : (n + 2) / 2 = n / 2 + 1 := by omega
  rw [levelsOf, levelsOf, half, List.replicate_succ', Nat.add_mod_right, List.append_assoc]

theorem levelsOf_marks (l : Level) : levelsOf l.marks = [l] := by
  cases l <;> rfl

/-- Marks make one inline. -/
theorem nested_levelsOf_eq {n : Nat} (hn : 0 < n) (is : List Inline) :
    ∃ i, nested (levelsOf n) is = [i] := by
  unfold levelsOf
  split
  · exact ⟨_, rfl⟩
  · obtain ⟨k, hk⟩ := Nat.exists_eq_add_of_le' (show 1 ≤ n / 2 by omega)
    rw [hk, List.replicate_succ]
    exact ⟨_, rfl⟩

theorem nested_levelsOf_step {n : Nat} (hn : 0 < n) (is : List Inline) :
    nested (levelsOf n) is = nested (levelsOf (n - min n 2)) [wrap (min n 2) is] := by
  match n with
  | 1 => rfl
  | n + 2 =>
    have two : min (n + 2) 2 = 2 := by omega
    rw [levelsOf_add_two, nested_append, two, Nat.add_sub_cancel]
    rfl

/-- A run with `n` marks left. -/
def leftover (d : Delim) (n : Nat) : List Piece :=
  if n = 0 then [] else [.delim { d with count := n }]

theorem leftover_count {d : Delim} (h : 0 < d.count) : leftover d d.count = [.delim d] := by
  rw [leftover, if_neg (Nat.pos_iff_ne_zero.mp h)]

theorem remaining_eq (d : Delim) (n used : Nat) :
    remaining { d with count := n } used = leftover d (n - used) := by
  unfold remaining leftover
  by_cases h : n ≤ used
  · simp [h, Nat.sub_eq_zero_of_le h]
  · simp [h, Nat.sub_eq_zero_iff_le]

/-- The first run may open what the second closes, however many marks are left. -/
structure Pairs (opener closer : Delim) : Prop where
  mark : opener.mark = closer.mark
  opens : opener.canOpen
  closes : closer.canClose
  fits : Delim.oddMatch opener closer = false

section Pair

variable {opener closer : Delim} {content before after : List Piece} {n : Nat}

/-- One step of the match of two runs with `n` marks left each. -/
theorem Pairs.step (h : Pairs opener closer) (silent : ∀ p ∈ content, Silent p) (hn : 0 < n) :
    resolve (content ++ (leftover opener n ++ before)) (leftover closer n ++ after) =
      resolve (.inline (wrap (min n 2) (finish content.reverse)) ::
          (leftover opener (n - min n 2) ++ before)) (leftover closer (n - min n 2) ++ after) := by
  have ne : n ≠ 0 := Nat.pos_iff_ne_zero.mp hn
  have used : marksUsed { opener with count := n } { closer with count := n } = min n 2 := by
    unfold marksUsed
    by_cases two : 2 ≤ n
    · simp [two]
    · simp [two]
      omega
  have closes : closer? (.delim { closer with count := n }) = some { closer with count := n } := by
    simp [closer?, Delim.closes, h.closes, hn]
  have opens : Delim.opens { opener with count := n } { closer with count := n } := by
    have fits : Delim.oddMatch { opener with count := n } { closer with count := n } = false :=
      h.fits
    rw [Delim.opens, fits]
    simp [h.mark, h.opens, hn]
  have found : findOpener { closer with count := n } (content ++ (leftover opener n ++ before)) =
      some (content, { opener with count := n }, before) := by
    rw [findOpener_silent silent]
    simp [leftover, ne, findOpener_delim, opens]
  have one : leftover closer n ++ after = .delim { closer with count := n } :: after := by
    simp [leftover, ne]
  rw [one, resolve_match closes found, used, remaining_eq, remaining_eq]

theorem silent_inline (i : Inline) : Silent (.inline i) := by
  rintro d ⟨⟩

theorem finish_inline (i : Inline) : finish [.inline i] = [i] := by
  cases i <;> rfl

theorem Pairs.resolve_inline (h : Pairs opener closer) (i : Inline) :
    resolve (.inline i :: (leftover opener n ++ before)) (leftover closer n ++ after) =
      resolve ((nested (levelsOf n) [i]).map .inline ++ before) after := by
  induction n using Nat.strongRecOn generalizing i with
  | ind n ih =>
    by_cases hn : n = 0
    · subst hn
      rfl
    · have pos : 0 < n := Nat.pos_of_ne_zero hn
      have silent : ∀ p ∈ [Piece.inline i], Silent p := by
        simp [silent_inline]
      rw [← List.singleton_append, h.step silent pos, ih (n - min n 2) (by omega),
        nested_levelsOf_step pos, List.reverse_singleton, finish_inline]

/-- Two runs of `n` marks that may match become emphasis around what is between them. -/
theorem resolve_pair (h : Pairs opener closer) (silent : ∀ p ∈ content, Silent p) (hn : 0 < n) :
    resolve (content ++ (leftover opener n ++ before)) (leftover closer n ++ after) =
      resolve ((nested (levelsOf n) (finish content.reverse)).map .inline ++ before) after := by
  rw [h.step silent hn, h.resolve_inline, nested_levelsOf_step hn]

end Pair

/-! ## Texts among inlines -/

/-- A text, unless it is empty. -/
def texts (t : List Char) : List Inline :=
  if t = [] then [] else [.text t]

/-- Texts as pieces. -/
def textPieces (ts : List (List Char)) : List Piece :=
  ts.map fun t => .inline (.text t)

theorem silent_textPieces (ts : List (List Char)) : ∀ p ∈ textPieces ts, Silent p := by
  intro p hp
  obtain ⟨t, -, rfl⟩ := List.mem_map.mp hp
  exact silent_inline _

theorem finish_textPieces_append {ts : List (List Char)} (full : [] ∉ ts) {ps : List Piece}
    (apart : ∀ t more, finish ps ≠ .text t :: more) :
    finish (textPieces ts ++ ps) = texts ts.flatten ++ finish ps := by
  induction ts with
  | nil => rfl
  | cons t ts ih =>
    have ht : t ≠ [] := fun e => full (by simp [e])
    have step : finish (textPieces (t :: ts) ++ ps) =
        joinInline (.text t) (finish (textPieces ts ++ ps)) := rfl
    rw [step, ih fun h => full (List.mem_cons_of_mem _ h)]
    by_cases more : ts.flatten = []
    · simp only [texts, more, List.flatten_cons, List.append_nil, ht, if_true, if_false,
        List.nil_append, List.singleton_append]
      unfold joinInline
      split
      · rename_i e
        exact absurd e (apart _ _)
      · rfl
    · simp [texts, more, ht, joinInline]

theorem finish_textPieces {ts : List (List Char)} (full : [] ∉ ts) :
    finish (textPieces ts) = texts ts.flatten := by
  have nothing : finish [] = [] := rfl
  rw [← List.append_nil (textPieces ts), finish_textPieces_append full (by simp [nothing]), nothing,
    List.append_nil]

/-- An inline between texts. -/
theorem finish_between {ts us : List (List Char)} {i : Inline} (hts : [] ∉ ts) (hus : [] ∉ us)
    (notText : ∀ t, i ≠ .text t) :
    finish (textPieces ts ++ .inline i :: textPieces us) =
      texts ts.flatten ++ i :: texts us.flatten := by
  have step : finish (.inline i :: textPieces us) = i :: texts us.flatten := by
    rw [← finish_textPieces hus]
    change joinInline i _ = _
    unfold joinInline
    split
    · exact absurd rfl (notText _)
    · rfl
  rw [finish_textPieces_append hts, step]
  intro t more e
  rw [step, List.cons.injEq] at e
  exact notText t e.1

/-- Two matching runs with text around them, once what is between them is resolved. -/
theorem resolve_enclosed {opener closer : Delim} (h : Pairs opener closer)
    (same : opener.count = closer.count) (pos : 0 < closer.count)
    {middle content : List Piece} {ts us : List (List Char)} (silent : ∀ p ∈ content, Silent p)
    (resolved : resolve (.delim opener :: (textPieces ts).reverse)
        (middle ++ .delim closer :: textPieces us) =
      resolve (content.reverse ++ .delim opener :: (textPieces ts).reverse)
        (.delim closer :: textPieces us)) :
    resolve [] (textPieces ts ++ .delim opener :: (middle ++ .delim closer :: textPieces us)) =
      textPieces ts ++ ((nested (levelsOf closer.count) (finish content)).map .inline ++
        textPieces us) := by
  have opening : Piece.delim opener :: (textPieces ts).reverse =
      leftover opener closer.count ++ (textPieces ts).reverse := by
    rw [← same, leftover_count (same ▸ pos)]
    rfl
  have closing : Piece.delim closer :: textPieces us =
      leftover closer closer.count ++ textPieces us := by
    rw [leftover_count pos]
    rfl
  have unopened : ∀ d, findOpener d (textPieces ts).reverse = none := fun d =>
    findOpener_all_silent fun p hp => silent_textPieces ts p (List.mem_reverse.mp hp)
  obtain ⟨i, made⟩ := nested_levelsOf_eq pos (finish content)
  rw [resolve_silent (silent_textPieces ts), List.append_nil, resolve_unopened (unopened opener),
    resolved, opening, closing, resolve_pair h (fun p hp => silent p (List.mem_reverse.mp hp)) pos,
    List.reverse_reverse, resolve_all_silent (silent_textPieces us), made]
  simp

/-! ## What is text in the end -/

/-- The plain text of a piece that stays as it is. -/
def plain (p : Piece) : List Char :=
  Html.plainText (p.toInline.toTree false)

theorem plainTexts_join (i : Inline) (is : List Inline) :
    Html.plainTexts (Inline.toTrees false (joinInline i is)) =
      Html.plainText (i.toTree false) ++ Html.plainTexts (Inline.toTrees false is) := by
  unfold joinInline
  split
  · simp [Inline.toTrees, Inline.toTree, Html.plainTexts, Html.plainText, Html.plainContent,
      Tree.leaf, Content.kind, Kind.isLeaf]
  · rfl

/-- Joining texts changes no text. -/
theorem plainTexts_finish (ps : List Piece) :
    Html.plainTexts (Inline.toTrees false (finish ps)) = ps.flatMap plain := by
  induction ps with
  | nil => rfl
  | cons p ps ih =>
    rw [finish, List.map_cons, joinTexts, plainTexts_join, List.flatMap_cons, ← ih]
    rfl

theorem plain_wrap (used : Nat) (ps : List Piece) :
    plain (.inline (wrap used (finish ps))) = ps.flatMap plain := by
  rw [← plainTexts_finish]
  unfold plain wrap
  split <;> simp [Piece.toInline, Inline.toTree, Html.plainText, Html.plainContent, Content.kind,
    Kind.isLeaf]

theorem plain_delim (d : Delim) : plain (.delim d) = List.replicate d.count d.mark := by
  simp [plain, Piece.toInline, Inline.toTree, Html.plainText, Html.plainContent, Tree.leaf,
    Content.kind, Kind.isLeaf]

section Text

variable {c : Char} {p : Piece} {before after : List Piece}

/-- What is text among the pieces gone through stays text, and so does a run that opens
nothing. -/
theorem mem_text_of_left (hp : p ∈ before) (hc : c ∈ plain p)
    (stuck : ∀ d, p = .delim d → d.canOpen = false) :
    c ∈ (resolve before after).flatMap plain := by
  fun_induction resolve before after generalizing p with
  | case1 before =>
    exact List.mem_flatMap.mpr ⟨p, by simpa using hp, hc⟩
  | case2 before q more hq ih => exact ih (by simp [hp]) hc stuck
  | case3 before q more closer hq ho ih => exact ih (by simp [hp]) hc stuck
  | case4 before q more closer hq above opener below ho _ used between =>
    rename_i ih
    obtain ⟨rfl, opens⟩ := findOpener_eq_some ho
    rcases List.mem_append.mp hp with inside | hp
    · -- it is in the contents of the emphasis
      refine ih List.mem_cons_self ?_ (by rintro d ⟨⟩)
      rw [show between = wrap used (finish above.reverse) from rfl, plain_wrap]
      exact List.mem_flatMap.mpr ⟨p, by simpa using inside, hc⟩
    · rcases List.mem_cons.mp hp with rfl | hp
      · have := stuck opener rfl
        simp [Delim.opens, this] at opens
      · exact ih (by simp [hp]) hc stuck

/-- A run that closes nothing, with no closer after it, stays text. -/
theorem mem_text_of_right {d : Delim} {between : List Piece} (hd : d.canClose = false)
    (hc : c ∈ plain (.delim d)) (silent : ∀ q ∈ after, Silent q) :
    c ∈ (resolve before (between ++ .delim d :: after)).flatMap plain := by
  generalize h : between ++ .delim d :: after = row
  fun_induction resolve before row generalizing between with
  | case1 before => simp at h
  | case2 before q more hq ih =>
    cases between with
    | nil =>
      -- the run itself is passed by, and all that comes after it
      cases h
      rw [resolve_all_silent silent]
      exact List.mem_flatMap.mpr ⟨.delim d, by simp, hc⟩
    | cons b between =>
      cases h
      exact ih rfl
  | case3 before q more closer hq ho ih =>
    cases between with
    | nil =>
      cases h
      simp [closer?, Delim.closes, hd] at hq
    | cons b between =>
      cases h
      exact ih rfl
  | case4 before q more closer hq above opener below ho _ used inside =>
    rename_i ih
    cases between with
    | nil =>
      cases h
      simp [closer?, Delim.closes, hd] at hq
    | cons b between =>
      cases h
      exact ih (List.append_assoc (remaining closer used) between _)

end Text

end MarkdownForest.Emphasis
