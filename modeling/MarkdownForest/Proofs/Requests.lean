/-
# MarkdownForest.Proofs.Requests -- forests after any requests

A request is a call that changes a forest, with any arguments.  A call that fails
changes nothing, except that a source that could not be read has made nodes and
freed them again.

* `Sound.after`: one request keeps a forest sound;
* `sound_run`: so every forest that requests lead to is sound;
* `Coherent` says the same of the links one by one, as they are stored.
-/
import MarkdownForest.Proofs.Growing

namespace MarkdownForest

set_option autoImplicit false

/-! ## Fields -/

/-- A value for a field. -/
inductive FieldValue where
  | literal (value : String)
  | url (value : String)
  | title (value : String)
  | headerLevel (value : Int)
  | listType (value : ListType)
  | listStart (value : Int)
  | listTight (value : Bool)
  | fenceInfo (value : String)
  deriving DecidableEq, Repr

namespace FieldValue

def write : FieldValue → Content → Except FieldError Content
  | literal s => Content.setLiteral s
  | url s => Content.setUrl s
  | title s => Content.setTitle s
  | headerLevel n => Content.setHeaderLevel n
  | listType t => Content.setListType t
  | listStart n => Content.setListStart n
  | listTight b => Content.setListTight b
  | fenceInfo s => Content.setFenceInfo s

/-- Writing a field keeps the kind, and leaves what is in range in range. -/
theorem write_ok {v : FieldValue} {c d : Content} (h : v.write c = .ok d) :
    d.kind = c.kind ∧ (c.InRange → d.InRange) := by
  cases v with
  | headerLevel value =>
    cases c <;> simp only [write, Content.setHeaderLevel, reduceCtorEq] at h
    split at h
    · rename_i range
      cases h
      refine ⟨rfl, fun _ => ?_⟩
      simp only [Content.InRange, Content.maxLevel] at range ⊢
      omega
    · cases h
  | listStart value =>
    cases c <;> simp only [write, Content.setListStart, reduceCtorEq] at h
    split at h
    · rename_i range
      cases h
      refine ⟨rfl, fun _ => ?_⟩
      simp only [Content.InRange] at range ⊢
      omega
    · cases h
  | literal _ | url _ | title _ | listType _ | listTight _ | fenceInfo _ =>
    cases c <;> cases h <;> exact ⟨rfl, id⟩

end FieldValue

/-- The kinds that have a field. -/
def Field.kinds : Field → List Kind
  | literal => [.text, .code, .html, .inlineHtml, .codeBlock]
  | url | title => [.link, .image]
  | headerLevel => [.header]
  | listType | listStart | listTight => [.list]
  | fenceInfo => [.codeBlock]

/-- A content lacks a field when reading it fails for the kind. -/
def Content.Lacks (c : Content) : Field → Prop
  | .literal => c.getLiteral = .error (.unavailable .literal c.kind)
  | .url => c.getUrl = .error (.unavailable .url c.kind)
  | .title => c.getTitle = .error (.unavailable .title c.kind)
  | .headerLevel => c.getHeaderLevel = .error (.unavailable .headerLevel c.kind)
  | .listType => c.getListType = .error (.unavailable .listType c.kind)
  | .listStart => c.getListStart = .error (.unavailable .listStart c.kind)
  | .listTight => c.getListTight = .error (.unavailable .listTight c.kind)
  | .fenceInfo => c.getFenceInfo = .error (.unavailable .fenceInfo c.kind)

/-- What a content holds is what its kind has. -/
theorem Content.lacks_iff (c : Content) (field : Field) :
    c.Lacks field ↔ c.kind ∉ field.kinds := by
  cases c with
  | list type start tight =>
    cases type <;> cases field <;>
      simp [Lacks, kind, Field.kinds, getLiteral, getUrl, getTitle, getHeaderLevel, getListType,
        getListStart, getListTight, getFenceInfo]
  | _ =>
    cases field <;>
      simp [Lacks, kind, Field.kinds, getLiteral, getUrl, getTitle, getHeaderLevel, getListType,
        getListStart, getListTight, getFenceInfo]

namespace Forest

/-! ## Requests -/

inductive Request where
  | newNode (kind : Kind)
  | read (options : ParseOptions) (source : String)
  | appendChild (parent child : NodeId)
  | prependChild (parent child : NodeId)
  | insertBefore (anchor node : NodeId)
  | insertAfter (anchor node : NodeId)
  | unlink (node : NodeId)
  | freeSubtree (node : NodeId)
  | set (value : FieldValue) (node : NodeId)

/-- The nodes that a request names. -/
def Request.nodes : Request → List NodeId
  | newNode _ | read _ _ => []
  | appendChild x y | prependChild x y | insertBefore x y | insertAfter x y => [x, y]
  | unlink x | freeSubtree x | set _ x => [x]

/-- What a request makes of a forest, or why it fails. -/
def perform (f : Forest) : Request → Except ForestError Forest
  | .newNode k => .ok (f.newNode (.new k)).2
  | .read o source => .ok (f.read o source).2
  | .appendChild p x => f.appendChild p x
  | .prependChild p x => f.prependChild p x
  | .insertBefore a x => f.insertBefore a x
  | .insertAfter a x => f.insertAfter a x
  | .unlink x => f.unlink x
  | .freeSubtree x => do return (← f.freeSubtree x).2
  | .set v x => f.set v.write x

/-- The forest after a request; one that fails leaves it as it is. -/
def after (f : Forest) (r : Request) : Forest :=
  match f.perform r with
  | .ok g => g
  | .error _ => f

/-- The forest after requests, from the empty one on. -/
def run (rs : List Request) : Forest :=
  rs.foldl after {}

section Runs

variable {f : Forest}

theorem linked_empty : Linked {} fun _ => [] where
  parent_iff hx := by simp at hx
  live hx := by simp at hx
  nodup _ := List.nodup_nil
  ends hx := by simp at hx
  sides row := by simp at row
  alone hx := by simp at hx
  ownership hx := by simp at hx
  path x := ⟨[x], .root (by simp [Forest.parent?])⟩

theorem sound_empty : Sound {} where
  linked := linked_empty.of_rows
  placed up := by simp [Forest.parent?] at up
  inRange hc := by simp [content?] at hc
  counted := rfl

/-- A request keeps a forest sound. -/
theorem Sound.after (s : Sound f) (r : Request) : Sound (f.after r) := by
  unfold Forest.after
  split
  · rename_i g h
    cases r with
    | newNode k => cases h; exact s.newNode (Content.inRange_new k)
    | read o source => cases h; exact s.read o source
    | appendChild p x => exact s.appendChild h
    | prependChild p x => exact s.prependChild h
    | insertBefore a x => exact s.insertBefore h
    | insertAfter a x => exact s.insertAfter h
    | unlink x => exact s.unlink h
    | freeSubtree x =>
      obtain ⟨freed, freeing, ⟨⟩⟩ := bind_eq_ok.mp h
      exact s.freeSubtree freeing
    | set v x => exact s.set FieldValue.write_ok h
  · exact s

theorem sound_run (rs : List Request) : Sound (run rs) := by
  suffices h : ∀ f, Sound f → Sound (rs.foldl Forest.after f) from h {} sound_empty
  induction rs with
  | nil => exact fun _ s => s
  | cons r rs ih => exact fun f s => ih (f.after r) (s.after r)

end Runs

/-! ## The links one by one -/

/-- What the records of a forest say about each other. -/
structure Coherent (f : Forest) : Prop where
  /-- Every link leads to a live node. -/
  live : ∀ {x y n}, f.nodes.get? x = some n →
    (n.parent = some y ∨ n.firstChild = some y ∨ n.lastChild = some y ∨ n.next = some y ∨
      n.previous = some y) → f.contains y
  /-- A node is before its next sibling, and after its previous one. -/
  inverse : ∀ {x y n m}, f.nodes.get? x = some n → f.nodes.get? y = some m →
    (n.next = some y ↔ m.previous = some x)
  /-- Siblings have the same parent. -/
  siblings : ∀ {x y n m}, f.nodes.get? x = some n → f.nodes.get? y = some m →
    n.next = some y → ∃ p, n.parent = some p ∧ m.parent = some p
  /-- The children of a node, each once, are the chain from its first to its last child. -/
  chain : ∀ {p n}, f.nodes.get? p = some n → (f.children p).Nodup ∧
    (∀ x, x ∈ f.children p ↔ f.parent? x = some p) ∧
    n.firstChild = (f.children p).head? ∧ n.lastChild = (f.children p).getLast? ∧
    ∀ before x after, f.children p = before ++ x :: after →
      ∃ m, f.nodes.get? x = some m ∧ m.previous = before.getLast? ∧ m.next = after.head?
  /-- A node without parent has no siblings. -/
  alone : ∀ {x n}, f.nodes.get? x = some n → n.parent = none → n.previous = none ∧ n.next = none
  /-- Going from parent to parent comes to an end. -/
  acyclic : ∀ x, ∃ path, Path f x path
  ownership : ∀ {x n}, f.nodes.get? x = some n → (n.ownership = .root ↔ n.parent = none)
  /-- Children stand under kinds that may contain them. -/
  placed : ∀ {x p n m}, f.nodes.get? x = some n → n.parent = some p → f.nodes.get? p = some m →
    m.content.kind.canContain n.content.kind
  leaf : ∀ {x n}, f.nodes.get? x = some n → n.content.kind.isLeaf →
    n.firstChild = none ∧ n.lastChild = none
  document : ∀ {x n}, f.nodes.get? x = some n → n.content.kind = .document → n.parent = none
  shape : ∀ {x n}, f.nodes.get? x = some n →
    ∀ field, n.content.Lacks field ↔ n.content.kind ∉ field.kinds
  inRange : ∀ {x n}, f.nodes.get? x = some n → n.content.InRange

theorem Sound.child_fits {f : Forest} (s : Sound f) {x p : NodeId} {n m : Node}
    (hn : f.nodes.get? x = some n) (up : n.parent = some p) (hm : f.nodes.get? p = some m) :
    m.content.kind.canContain n.content.kind :=
  s.placed (x := x) (p := p) (by rw [parent?_of_get? hn, up]) (by simp [content?, hn])
    (by simp [content?, hm])

theorem Sound.coherent {f : Forest} (s : Sound f) : Coherent f where
  live {x y n} hn link := by
    obtain ⟨first, last⟩ := s.linked.ends hn
    rcases link with link | link | link | link | link
    · exact s.linked.live_links hn (.inr (.inr link))
    · exact (s.linked.live (List.mem_of_head? (first ▸ link))).1
    · exact (s.linked.live (List.mem_of_getLast? (last ▸ link))).1
    · exact s.linked.live_links hn (.inr (.inl link))
    · exact s.linked.live_links hn (.inl link)
  inverse := s.linked.next_iff
  siblings hn hm next := by
    obtain ⟨p, hp, hy⟩ := s.linked.neighbour hn (.inr next)
    exact ⟨p, hp, (s.linked.parent_iff hm p).mpr hy⟩
  chain {p n} hn := by
    obtain ⟨first, last⟩ := s.linked.ends hn
    refine ⟨s.linked.nodup p, fun x => s.linked.parent?_iff.symm, first, last, ?_⟩
    intro before x after row
    obtain ⟨m, hm⟩ := contains_iff.mp (s.linked.live (p := p) (x := x) (by simp [row])).1
    exact ⟨m, hm, s.linked.sides row hm⟩
  alone := s.linked.alone
  acyclic := s.linked.path
  ownership := s.linked.ownership
  placed := s.child_fits
  leaf {x n} hn leaf := by
    have childless : f.children x = [] := List.eq_nil_iff_forall_not_mem.mpr fun y hy => by
      obtain ⟨m, hm⟩ := contains_iff.mp (s.linked.live hy).1
      have := s.child_fits hm ((s.linked.parent_iff hm x).mpr hy) hn
      simp [Kind.canContain_of_isLeaf leaf] at this
    obtain ⟨first, last⟩ := s.linked.ends hn
    simp [first, last, childless]
  document {x n} hn doc := by
    cases up : n.parent with
    | none => rfl
    | some p =>
      obtain ⟨m, hm⟩ := contains_iff.mp (s.linked.live_links hn (.inr (.inr up)))
      have := s.child_fits hn up hm
      simp [doc, Kind.canContain_document] at this
  shape {_ n} _ := n.content.lacks_iff
  inRange {x n} hn := s.inRange (x := x) (by simp [content?, hn])

/-! ## Stale nodes -/

/-- Freeing only fails when the node itself is stale. -/
theorem Sound.freeSubtree_stale {f : Forest} (s : Sound f) {x y : NodeId}
    (h : f.perform (.freeSubtree x) = .error (.stale y)) : y = x ∧ f.contains x = false := by
  rcases bind_eq_error.mp h with failed | ⟨_, -, ⟨⟩⟩
  obtain ⟨stale, ⟨⟩⟩ := s.linked.freeSubtree_error failed
  exact ⟨rfl, by simpa using stale⟩

/-- Setting a field finds no node stale but its own. -/
theorem set_stale {f : Forest} {v : FieldValue} {x y : NodeId}
    (h : f.perform (.set v x) = .error (.stale y)) : y = x ∧ f.contains x = false := by
  by_cases hx : f.contains x
  · obtain ⟨n, hn⟩ := contains_iff.mp hx
    cases written : v.write n.content with
    | ok d =>
      obtain ⟨g, hg, -⟩ := update_of_live hx ({ · with content := d })
      simp [perform, Forest.set, content, node_ok.mpr hn, written, hg] at h
    | error e => simp [perform, Forest.set, content, node_ok.mpr hn, written] at h
  · have stale : f.node x = .error (.stale x) := node_error.mpr ⟨by simpa using hx, rfl⟩
    simp only [perform, Forest.set, content, stale, error_bind, Except.error.injEq,
      ForestError.stale.injEq] at h
    exact ⟨h.symm, by simpa using hx⟩

/-- A node that a request finds stale was named in it. -/
theorem Sound.perform_stale {f : Forest} (s : Sound f) {r : Request} {y : NodeId}
    (h : f.perform r = .error (.stale y)) : y ∈ r.nodes ∧ f.contains y = false := by
  cases r with
  | newNode k => cases h
  | read o source => cases h
  | appendChild p x =>
    have := checkChild_stale (s.linked.appendChild_error.mp h)
    simpa [Request.nodes] using this
  | prependChild p x =>
    have := checkChild_stale (s.linked.prependChild_error.mp h)
    simpa [Request.nodes] using this
  | insertBefore a x =>
    have := checkSibling_stale s.linked (s.linked.insertBefore_error.mp h)
    simpa [Request.nodes] using this
  | insertAfter a x =>
    have := checkSibling_stale s.linked (s.linked.insertAfter_error.mp h)
    simpa [Request.nodes] using this
  | unlink x =>
    obtain ⟨stale, e⟩ := s.linked.unlink_error.mp h
    cases e
    exact ⟨List.mem_singleton_self _, stale⟩
  | freeSubtree x =>
    obtain ⟨rfl, stale⟩ := s.freeSubtree_stale h
    exact ⟨List.mem_singleton_self _, stale⟩
  | set v x =>
    obtain ⟨rfl, stale⟩ := set_stale h
    exact ⟨List.mem_singleton_self _, stale⟩

/-- After any requests the links form a forest, and no link that an operation goes along leads to a
node that is not live: only nodes named in a request are found stale, and neither the appends of a
reading nor the freeing after one that fails meet a stale node. -/
theorem run_coherent (rs : List Request) :
    Coherent (run rs) ∧
      (∀ r y, (run rs).perform r = .error (.stale y) →
        y ∈ r.nodes ∧ (run rs).contains y = false) ∧
      ∀ (o : ParseOptions) (source : String),
        let document := (readSource o source.toList).documentMade
        (run rs).tryPlant document = .ok ((run rs).plant document) ∧
          ∃ freed, ((run rs).plant document).2.freeSubtree ((run rs).plant document).1 =
            .ok freed := by
  have s := sound_run rs
  refine ⟨s.coherent, fun r y => s.perform_stale, fun o source => ?_⟩
  obtain ⟨accepted, sound, grown⟩ := plant_spec s _ (documentMade_wellFormed o source.toList)
  obtain ⟨_, count, g, hg, -⟩ := sound.linked.freeSubtree grown.contains_self
  exact ⟨accepted, (count, g), hg⟩

end Forest

end MarkdownForest
