/-
# MarkdownForest.Proofs.InPlace -- edits that write one record after another

An edit of a forest is given as a function to a new forest.  Carried out in
place it writes one record after another, and what was written before a failure
stays (`Editing`).  No reader sees a half-made edit all the same: in a forest
whose links fit together an edit fails only in its checks, before the first
write, so it is a single write (`Linked.inPlace_appendChild` and its
companions).
-/
import MarkdownForest.Proofs.Edits

namespace MarkdownForest.Forest

set_option autoImplicit false

/-- A computation that changes a forest as it goes; what it changed before a failure stays. -/
abbrev Editing (α : Type) : Type := EStateM ForestError Forest α

namespace Editing

/-- Reads the forest. -/
def look {α : Type} (read : Forest → Except ForestError α) : Editing α := fun f =>
  match read f with
  | .ok a => .ok a f
  | .error e => .error e f

/-- Changes the forest at once, or fails and leaves it. -/
def write (change : Forest → Except ForestError Forest) : Editing Unit := fun f =>
  match change f with
  | .ok g => .ok () g
  | .error e => .error e f

/-- `Forest.detach`, record by record. -/
def detach (x : NodeId) : Editing Unit := do
  let n ← look (·.node x)
  write (·.updateAt n.previous ({ · with next := n.next }))
  write (·.updateAt n.next ({ · with previous := n.previous }))
  write (·.updateAt n.parent fun p =>
    { p with
      firstChild := if p.firstChild = some x then n.next else p.firstChild
      lastChild := if p.lastChild = some x then n.previous else p.lastChild })
  write (·.update x ({ · with parent := none, previous := none, next := none, ownership := .root }))

/-- `Forest.attach`, record by record. -/
def attach (parent : NodeId) (previous next : Option NodeId) (x : NodeId) : Editing Unit := do
  write (·.update x ({ · with parent := some parent, previous, next, ownership := .attached }))
  match previous with
    | some y => write (·.update y ({ · with next := some x }))
    | none => write (·.update parent ({ · with firstChild := some x }))
  match next with
    | some y => write (·.update y ({ · with previous := some x }))
    | none => write (·.update parent ({ · with lastChild := some x }))

def unlink (x : NodeId) : Editing Unit :=
  detach x

def appendChild (parent child : NodeId) : Editing Unit := do
  look (·.checkChild parent child)
  detach child
  attach parent (← look (·.lastChild parent)) none child

def prependChild (parent child : NodeId) : Editing Unit := do
  look (·.checkChild parent child)
  detach child
  attach parent none (← look (·.firstChild parent)) child

def insertBefore (anchor node : NodeId) : Editing Unit := do
  let parent ← look (·.checkSibling anchor node)
  detach node
  attach parent (← look (·.previous anchor)) (some anchor) node

def insertAfter (anchor node : NodeId) : Editing Unit := do
  let parent ← look (·.checkSibling anchor node)
  detach node
  attach parent (some anchor) (← look (·.next anchor)) node

/-! ## Running -/

section Run

variable {ε σ α β : Type} {p : EStateM ε σ α} {k : α → EStateM ε σ β} {s t : σ} {a : α} {e : ε}

theorem bind_run_ok (h : p s = .ok a t) : (p >>= k) s = k a t := by
  simp [bind, EStateM.bind, h]

theorem bind_run_error (h : p s = .error e t) : (p >>= k) s = .error e t := by
  simp [bind, EStateM.bind, h]

end Run

section Steps

variable {α : Type} {f g : Forest} {x p anchor : NodeId} {a : α} {e : ForestError}

theorem look_ok {read : Forest → Except ForestError α} (h : read f = .ok a) :
    look read f = .ok a f := by
  simp [look, h]

theorem look_error {read : Forest → Except ForestError α} (h : read f = .error e) :
    look read f = .error e f := by
  simp [look, h]

theorem write_ok {change : Forest → Except ForestError Forest} (h : change f = .ok g) :
    write change f = .ok () g := by
  simp [write, h]

theorem detach_ok (h : f.detach x = .ok g) : detach x f = .ok () g := by
  obtain ⟨n, hn, h⟩ := bind_eq_ok.mp h
  obtain ⟨f₁, h₁, h⟩ := bind_eq_ok.mp h
  obtain ⟨f₂, h₂, h⟩ := bind_eq_ok.mp h
  obtain ⟨f₃, h₃, h₄⟩ := bind_eq_ok.mp h
  rw [detach, bind_run_ok (look_ok hn), bind_run_ok (write_ok h₁), bind_run_ok (write_ok h₂),
    bind_run_ok (write_ok h₃)]
  exact write_ok h₄

theorem attach_ok {previous next : Option NodeId} (h : f.attach p previous next x = .ok g) :
    attach p previous next x f = .ok () g := by
  obtain ⟨f₁, h₁, h⟩ := bind_eq_ok.mp h
  unfold attach
  rw [bind_run_ok (write_ok h₁)]
  cases previous <;> cases next <;>
  · obtain ⟨f₂, h₂, h₃⟩ := bind_eq_ok.mp h
    exact (bind_run_ok (write_ok h₂)).trans (write_ok h₃)

end Steps

end Editing

/-! ## An edit is one write -/

section OneWrite

open Editing

variable {f : Forest} {rows : NodeId → List NodeId} {x p anchor : NodeId}

theorem Linked.inPlace_unlink (h : Linked f rows) :
    Editing.unlink x f = write (·.unlink x) f := by
  by_cases hx : f.contains x
  · obtain ⟨g, hg, -⟩ := h.unlink hx
    exact (detach_ok hg).trans (write_ok hg).symm
  · have stale : f.node x = .error (.stale x) := node_error.mpr ⟨by simpa using hx, rfl⟩
    have failed : f.unlink x = .error (.stale x) := h.unlink_error.mpr ⟨by simpa using hx, rfl⟩
    rw [Editing.unlink, Editing.detach, bind_run_error (look_error stale), write, failed]

/-- An edit that passes its checks and then goes through, also in place, is one write. -/
theorem checked_inPlace {α : Type} {check : Forest → Except ForestError α}
    {edit : Forest → Except ForestError Forest} {rest : α → Editing Unit}
    (fails : ∀ e, edit f = .error e ↔ check f = .error e)
    (goes : ∀ a g, check f = .ok a → edit f = .ok g → rest a f = .ok () g) :
    (look check >>= rest) f = write edit f := by
  cases checked : check f with
  | error e =>
    rw [bind_run_error (look_error checked), write, (fails e).mpr checked]
  | ok a =>
    rw [bind_run_ok (look_ok checked)]
    cases edited : edit f with
    | error e => simp [checked] at fails; exact absurd edited (fails e)
    | ok g => exact (goes a g checked edited).trans (write_ok edited).symm

theorem Linked.inPlace_appendChild (h : Linked f rows) :
    Editing.appendChild p x f = write (·.appendChild p x) f :=
  checked_inPlace (fun _ => h.appendChild_error) fun _ g _ edited => by
    obtain ⟨_, -, edited⟩ := bind_eq_ok.mp edited
    obtain ⟨f', hf', edited⟩ := bind_eq_ok.mp edited
    obtain ⟨last, hl, edited⟩ := bind_eq_ok.mp edited
    rw [bind_run_ok (detach_ok hf'), bind_run_ok (look_ok hl)]
    exact attach_ok edited

theorem Linked.inPlace_prependChild (h : Linked f rows) :
    Editing.prependChild p x f = write (·.prependChild p x) f :=
  checked_inPlace (fun _ => h.prependChild_error) fun _ g _ edited => by
    obtain ⟨_, -, edited⟩ := bind_eq_ok.mp edited
    obtain ⟨f', hf', edited⟩ := bind_eq_ok.mp edited
    obtain ⟨first, hl, edited⟩ := bind_eq_ok.mp edited
    rw [bind_run_ok (detach_ok hf'), bind_run_ok (look_ok hl)]
    exact attach_ok edited

theorem Linked.inPlace_insertBefore (h : Linked f rows) :
    Editing.insertBefore anchor x f = write (·.insertBefore anchor x) f :=
  checked_inPlace (fun _ => h.insertBefore_error) fun q g checked edited => by
    simp only [Forest.insertBefore, checked, ok_bind] at edited
    obtain ⟨f', hf', edited⟩ := bind_eq_ok.mp edited
    obtain ⟨previous, hl, edited⟩ := bind_eq_ok.mp edited
    rw [bind_run_ok (detach_ok hf'), bind_run_ok (look_ok hl)]
    exact attach_ok edited

theorem Linked.inPlace_insertAfter (h : Linked f rows) :
    Editing.insertAfter anchor x f = write (·.insertAfter anchor x) f :=
  checked_inPlace (fun _ => h.insertAfter_error) fun q g checked edited => by
    simp only [Forest.insertAfter, checked, ok_bind] at edited
    obtain ⟨f', hf', edited⟩ := bind_eq_ok.mp edited
    obtain ⟨next, hl, edited⟩ := bind_eq_ok.mp edited
    rw [bind_run_ok (detach_ok hf'), bind_run_ok (look_ok hl)]
    exact attach_ok edited

end OneWrite

end MarkdownForest.Forest
