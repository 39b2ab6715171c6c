/-
# MarkdownForest.Proofs.SafeAddresses -- safe pages have no dangerous addresses

Whether an address is dropped is settled on the address as it was given, without
its leading white space and in lower case; what a reader of the page follows is
the value that was written, with its entities decoded.  The two agree on the
schemes: what is written of a character that does not stand for itself begins
with a percent sign, which no scheme has, so writing makes no scheme
(`prefix_keptAddress_iff`), and an address that begins with a scheme has no white
space before it.

* `SafeAddress v`: what an address may be;
* `safeAddress_urlValue`: the value for any address is one of those;
* `addressesIn s`: the addresses that a reader finds in a page.

`run_safe_addresses` is the statement on every live node of every forest that
requests lead to.
-/
import MarkdownForest.Proofs.DecodedAddresses
import MarkdownForest.Proofs.PageAttributes
import MarkdownForest.Proofs.Planting
import MarkdownForest.Proofs.Traversals

namespace MarkdownForest

set_option autoImplicit false

namespace Html

open Text

/-! ## Safe addresses -/

/-- An address without blanks and controls, whose scheme does no harm whatever the case of its
letters. -/
structure SafeAddress (v : List Char) : Prop where
  visible : ∀ c ∈ v, isSpace c = false ∧ isControl c = false
  scheme : ∀ scheme ∈ ["javascript:", "vbscript:", "file:"], ¬ scheme.toList <+: toAsciiLower v
  data : "data:".toList <+: toAsciiLower v →
    ∃ type ∈ ["image/png", "image/gif", "image/jpeg", "image/webp"],
      ("data:" ++ type).toList <+: toAsciiLower v

theorem safeAddress_nil : SafeAddress [] :=
  ⟨List.forall_mem_nil _, by decide, by decide⟩

/-! ## What is kept of an address -/

section Kept

variable {c : Char} {start url : List Char}

theorem visible_of_isAlphanum (h : c.isAlphanum) : isSpace c = false ∧ isControl c = false := by
  have bounds := toNat_of_isAlphanum h
  constructor
  · simp [isSpace, within, spaceRanges]
    omega
  · simp [isControl, within]
    omega

theorem visible_of_isAddressChar (h : isAddressChar c) :
    isSpace c = false ∧ isControl c = false := by
  have marks : ∀ d ∈ "-_.~!#$%()*+,/:;=?@".toList, isSpace d = false ∧ isControl d = false :=
    List.all_iff_forall_prop.mp (by decide)
  rcases Bool.or_eq_true_iff.mp h with h | h
  · exact visible_of_isAlphanum h
  · exact marks c (List.contains_iff_mem.mp h)

theorem visible_percentByte (b : UInt8) :
    ∀ c ∈ percentByte b, isSpace c = false ∧ isControl c = false := by
  have digit : ∀ n < 16, isSpace (hexDigit n) = false ∧ isControl (hexDigit n) = false := by decide
  intro c hc
  rcases mem_percentByte hc with rfl | ⟨n, hn, rfl⟩
  · decide
  · exact digit n hn

theorem visible_keptAddress (url : List Char) :
    ∀ c ∈ keptAddress url, isSpace c = false ∧ isControl c = false := by
  intro d hd
  obtain ⟨c, -, hd⟩ := List.mem_flatMap.mp hd
  rw [keptChar] at hd
  split at hd
  · rename_i kept
    obtain rfl := List.mem_singleton.mp hd
    simp only [isKept, Bool.or_eq_true, beq_iff_eq] at kept
    rcases kept with (rfl | rfl) | address
    · decide
    · decide
    · exact visible_of_isAddressChar address
  · obtain ⟨b, -, hd⟩ := List.mem_flatMap.mp hd
    exact visible_percentByte b d hd

/-- A character whose lower case stands for itself does so too. -/
theorem isAddressChar_of_toLower (h : isAddressChar c.toLower) : isAddressChar c := by
  by_cases upper : c.isUpper
  · have letter : c.isAlpha := Bool.or_eq_true_iff.mpr (.inl upper)
    have alphanum : c.isAlphanum := Bool.or_eq_true_iff.mpr (.inl letter)
    simp [isAddressChar, alphanum]
  · have same : c.toLower = c := dif_neg fun bounds => upper (decide_eq_true bounds)
    rwa [same] at h

/-- What is kept of a character that does not stand for itself. -/
theorem keptChar_other (other : ¬ isKept c) : ∃ w, keptChar c = '%' :: w := by
  have some : 0 < (String.utf8EncodeChar c).length := by
    rw [String.length_utf8EncodeChar]
    exact c.utf8Size_pos
  obtain ⟨b, bytes, e⟩ := List.exists_cons_of_length_pos some
  exact ⟨_, by rw [keptChar, if_neg other, e, List.flatMap_cons, percentByte]; rfl⟩

/-- **Writing neither makes nor hides a scheme.** -/
theorem prefix_keptAddress_iff (plain : start.all fun c => isAddressChar c && c != '%') :
    start <+: toAsciiLower (keptAddress url) ↔ start <+: toAsciiLower url := by
  induction start generalizing url with
  | nil => simp
  | cons d start ih =>
    simp only [List.all_cons, Bool.and_eq_true, bne_iff_ne] at plain
    obtain ⟨⟨address, percent⟩, later⟩ := plain
    cases url with
    | nil => rfl
    | cons c url =>
      rw [keptAddress, List.flatMap_cons]
      by_cases kept : isKept c
      · have one : keptChar c = [c] := if_pos kept
        rw [one]
        exact (List.cons_prefix_cons.trans (and_congr_right fun _ => ih later)).trans
          List.cons_prefix_cons.symm
      · -- the percent sign of what is kept on one side, a character that is no start on the other
        obtain ⟨w, e⟩ := keptChar_other kept
        rw [e]
        constructor
        · intro h
          exact absurd (List.cons_prefix_cons.mp h).1 percent
        · intro h
          have same : d = c.toLower := (List.cons_prefix_cons.mp h).1
          have itself : isAddressChar c := isAddressChar_of_toLower (same ▸ address)
          exact absurd (by simp [isKept, itself]) kept

end Kept

/-! ## Values -/

section Values

variable {o : RenderOptions} {start url : List Char}

/-- An address that begins with a letter has no white space before it. -/
theorem trimStart_of_prefix (letter : start.head?.any Char.isAlphanum)
    (h : start <+: toAsciiLower url) : trimStart url = url := by
  cases start with
  | nil => cases letter
  | cons d start =>
    cases url with
    | nil => rfl
    | cons c url =>
      have same : d = c.toLower := (List.cons_prefix_cons.mp h).1
      have alphanum : c.toLower.isAlphanum := same ▸ letter
      have address : isAddressChar c.toLower := by simp [isAddressChar, alphanum]
      have visible := (visible_of_isAddressChar (isAddressChar_of_toLower address)).1
      rw [trimStart, List.dropWhile_cons, visible, if_neg Bool.false_ne_true]

theorem startsWithAny_iff {starts : List String} {s : List Char} :
    startsWithAny starts s ↔ ∃ start ∈ starts, start.toList <+: s := by
  simp [startsWithAny, List.isPrefixOf_iff_prefix]

/-- An address that is not dropped has no unsafe scheme. -/
theorem not_unsafe_scheme (safe : isUnsafeUrl url = false) :
    ∀ scheme ∈ unsafeSchemes, ¬ scheme.toList <+: toAsciiLower url := by
  intro scheme listed h
  have letter : ∀ scheme ∈ unsafeSchemes, scheme.toList.head?.any Char.isAlphanum := by decide
  have whole := trimStart_of_prefix (letter scheme listed) h
  have found : startsWithAny unsafeSchemes (toAsciiLower url) :=
    startsWithAny_iff.mpr ⟨scheme, listed, h⟩
  rw [isUnsafeUrl, whole, found] at safe
  cases safe

/-- A data address that is not dropped is of a safe type. -/
theorem safe_data (safe : isUnsafeUrl url = false) (h : "data:".toList <+: toAsciiLower url) :
    ∃ type ∈ safeMediaTypes, ("data:" ++ type).toList <+: toAsciiLower url := by
  have whole := trimStart_of_prefix (by decide) h
  have found : startsWithAny ["data:"] (toAsciiLower url) :=
    startsWithAny_iff.mpr ⟨_, List.mem_singleton_self _, h⟩
  obtain ⟨rest, e⟩ := h
  have typed : startsWithAny safeMediaTypes rest := by
    have behind : (toAsciiLower url).drop "data:".length = rest := by
      rw [← e]
      rfl
    rw [isUnsafeUrl, whole, behind, found] at safe
    simpa using (Bool.or_eq_false_iff.mp safe).2
  obtain ⟨type, listed, prefixed⟩ := startsWithAny_iff.mp typed
  refine ⟨type, listed, ?_⟩
  rw [String.toList_append, ← e]
  exact (List.prefix_append_right_inj _).mpr prefixed

/-- The value for any address is safe, once a reader has decoded its entities. -/
theorem safeAddress_urlValue (names : EntityNames) (safe : o.safe = true) (url : String) :
    SafeAddress (decodeEntities names (urlValue o url)) := by
  rw [urlValue, safe, Bool.true_and]
  split
  · exact safeAddress_nil
  · rename_i kept
    have kept : isUnsafeUrl url.toList = false := Bool.eq_false_iff.mpr kept
    have schemes : ∀ scheme ∈ unsafeSchemes,
        scheme.toList.all fun c => isAddressChar c && c != '%' := by decide
    have data : "data:".toList.all fun c => isAddressChar c && c != '%' := by decide
    have types : ∀ type ∈ safeMediaTypes,
        ("data:" ++ type).toList.all fun c => isAddressChar c && c != '%' := by decide
    rw [decodeEntities_escapeAddress]
    refine ⟨visible_keptAddress url.toList, fun scheme listed h => ?_, fun h => ?_⟩
    · exact not_unsafe_scheme kept scheme listed
        ((prefix_keptAddress_iff (schemes scheme listed)).mp h)
    · obtain ⟨type, listed, found⟩ := safe_data kept ((prefix_keptAddress_iff data).mp h)
      exact ⟨type, listed, (prefix_keptAddress_iff (types type listed)).mpr found⟩

end Values

/-! ## Pages -/

/-- The values of the attributes that a reader follows or loads. -/
def addresses (as : List Attribute) : List (List Char) :=
  (as.filter fun a => a.name = "href" ∨ a.name = "src").map Attribute.value

theorem addresses_append (as bs : List Attribute) :
    addresses (as ++ bs) = addresses as ++ addresses bs := by
  simp [addresses]

/-- The addresses that a reader finds in a page. -/
def addressesIn (s : List Char) : List (List Char) :=
  addresses (Spot.outside.read s).2

example : addressesIn "1 < 2 <img alt=\"src='x'\" SRC = y><!-- <a href=z> -->".toList =
    ["y".toList] := by
  decide

/-- The value for the address of a node that has one. -/
def addressOf? (o : RenderOptions) : Content → Option (List Char)
  | .link url _ | .image url _ => some (urlValue o url)
  | _ => none

/-- With safe rendering the address of a node is safe, once a reader has decoded its entities. -/
theorem safeAddress_addressOf {o : RenderOptions} {c : Content} {v : List Char}
    (names : EntityNames) (safe : o.safe = true) (h : addressOf? o c = some v) :
    SafeAddress (decodeEntities names v) := by
  cases c with
  | link url title | image url title =>
    cases h
    exact safeAddress_urlValue names safe url
  | _ => cases h

/-- Of the attributes of a node only the one for its address is followed or loaded. -/
theorem addresses_givenBy (o : RenderOptions) (alt : List Char) (c : Content) :
    addresses (givenBy o alt c) = (addressOf? o c).toList := by
  have title : ∀ title, addresses (titleAttributes title) = [] := by
    intro title
    rw [titleAttributes]
    split <;> rfl
  cases c with
  | list type start tight =>
    cases type with
    | bullet => rfl
    | ordered =>
      rw [givenBy, startAttributes]
      split <;> rfl
  | codeBlock info literal =>
    rw [givenBy, languageAttributes]
    split <;> rfl
  | link url text =>
    show addresses ([⟨"href", urlValue o url⟩] ++ titleAttributes text) = _
    rw [addresses_append, title]
    rfl
  | image url text =>
    show addresses ([⟨"src", urlValue o url⟩, ⟨"alt", escapeText alt⟩] ++ titleAttributes text) = _
    rw [addresses_append, title]
    rfl
  | _ => rfl

end Html

/-! ## Forests -/

namespace Forest

open Html

variable {f : Forest} {o : RenderOptions}

/-- The addresses among the attributes of a walk are those of the nodes that it enters. -/
theorem addresses_givenAt (es : List WalkEvent) :
    addresses (es.flatMap (f.givenAt o)) =
      (entered es).filterMap fun x => addressOf? o (f.contentAt x) := by
  induction es with
  | nil => rfl
  | cons e es ih =>
    rw [List.flatMap_cons, addresses_append, ih]
    cases e with
    | exit x => rfl
    | enter x =>
      rw [givenAt, addresses_givenBy]
      cases h : addressOf? o (f.contentAt x) <;> simp [entered, WalkEvent.entered?, h]

/-- **Safe pages have no dangerous addresses.**  Every live node of a forest is rendered, along the
links and by a fold over its walk alike, and with safe rendering the addresses that a reader finds
in what is written are those of the links and images that the walk enters, in order.  Whatever was
set as their addresses, and whichever names of entities the reader knows, each of them is, with its
entities decoded, without white space and control characters, has none of the schemes that can run
code or read files, and is a data address only of four types of image. -/
theorem run_safe_addresses (names : EntityNames) (rs : List Request) (x : NodeId)
    (hardbreaks : Bool) (live : (run rs).contains x) :
    let o : RenderOptions := { hardbreaks, safe := true }
    ∃ s, (LinkWalk.html (run rs) o x).run = .some (.ok s) ∧ (run rs).html o x = .ok s ∧
      addressesIn s.toList = (entered ((run rs).walk (run rs).isImage x)).filterMap
        (fun y => addressOf? o ((run rs).contentAt y)) ∧
      ∀ v ∈ addressesIn s.toList, SafeAddress (decodeEntities names v) := by
  intro o
  have sound := sound_run rs
  have walk := sound.linked.walk_eq live (run rs).isImage
  have met : ∀ e ∈ (run rs).walk (run rs).isImage x, (run rs).contains e.node := by
    intro e he
    rw [walk] at he
    exact (mem_traversal sound.linked live e he).live live
  obtain ⟨text, written, reads⟩ := sound.gives_events (o := o) rfl {} met
  have html : (run rs).html o x = .ok (String.ofList text) := by
    rw [Forest.html, content_eq live]
    exact congrArg (fun s => Except.ok (String.ofList s)) written
  have found : addressesIn text = (entered ((run rs).walk (run rs).isImage x)).filterMap
      fun y => addressOf? o ((run rs).contentAt y) := by
    rw [addressesIn, reads, addresses_givenAt]
  refine ⟨_, by rw [sound.linked.linkHtml_eq live, html], html, ?_⟩
  rw [String.toList_ofList]
  refine ⟨found, fun v hv => ?_⟩
  rw [found] at hv
  obtain ⟨y, -, address⟩ := List.mem_filterMap.mp hv
  exact safeAddress_addressOf names rfl address

/-- A paragraph whose addresses try to be followed as scripts, and whose titles try to be
addresses. -/
def disguises : List Request :=
  [.newNode .paragraph, .newNode .link, .newNode .link, .newNode .image,
    .appendChild ⟨0, 0⟩ ⟨1, 0⟩, .appendChild ⟨0, 0⟩ ⟨2, 0⟩, .appendChild ⟨0, 0⟩ ⟨3, 0⟩,
    .set (.url " JavaScript:a") ⟨1, 0⟩, .set (.url "java\tscript&colon;%61") ⟨2, 0⟩,
    .set (.url "DATA:image/PNG,\x27") ⟨3, 0⟩, .set (.title " src=file:") ⟨3, 0⟩]

theorem disguises_safe_addresses :
    let o : RenderOptions := { hardbreaks := false, safe := true }
    let page := "<p><a href=\"\"></a><a href=\"java%09script&amp;colon;%61\"></a>" ++
      "<img src=\"DATA:image/PNG,&#x27;\" alt=\"\" title=\" src=file:\" /></p>\n"
    (run disguises).contains ⟨0, 0⟩ ∧ (run disguises).html o ⟨0, 0⟩ = .ok page ∧
      addressesIn page.toList =
        ["", "java%09script&amp;colon;%61", "DATA:image/PNG,&#x27;"].map String.toList ∧
      ∃ s, (LinkWalk.html (run disguises) o ⟨0, 0⟩).run = .some (.ok s) ∧
        (run disguises).html o ⟨0, 0⟩ = .ok s ∧
        addressesIn s.toList =
          (entered ((run disguises).walk (run disguises).isImage ⟨0, 0⟩)).filterMap
            (fun y => addressOf? o ((run disguises).contentAt y)) ∧
        ∀ v ∈ addressesIn s.toList, SafeAddress (decodeEntities basicNames v) := by
  intro o page
  have live : (run disguises).contains ⟨0, 0⟩ := by decide
  refine ⟨live, ?_, ?_, run_safe_addresses basicNames disguises ⟨0, 0⟩ false live⟩
  · decide +kernel
  · decide +kernel

end Forest

end MarkdownForest
