/-
# MarkdownForest.Proofs.LinkLoops -- loops along the links of a forest

A forest is gone through along the links of its records, and nothing in a record
says that this comes to an end.  The functions that do it are bounded by what a
forest can hold; here are the same loops without a bound: from sibling to sibling
(`along`), over the nodes at and below one (`sizeLoop`), and freeing these one by
one (`freeLoop`), where the links of children are read after their parent is gone.

In a forest whose links fit together all of them end, with what the bounded
functions give (`Linked.sizeLoop_eq`, `Linked.freeLoop_eq`).  The nodes are freed
in an order that does not depend on the links left over (`Pending.released`).
-/
import MarkdownForest.Proofs.Branches
import MarkdownForest.Proofs.Freeing
import MarkdownForest.Proofs.Rounds

namespace MarkdownForest

set_option autoImplicit false

/-! ## Rows of branches -/

namespace Branch

theorem sizeList_append (bs cs : List Branch) :
    sizeList (bs ++ cs) = sizeList bs + sizeList cs := by
  induction bs with
  | nil => simp [sizeList]
  | cons b bs ih => simp [sizeList, ih, Nat.add_assoc]

theorem sizeList_reverse (bs : List Branch) : sizeList bs.reverse = sizeList bs := by
  induction bs with
  | nil => rfl
  | cons b bs ih => simp [sizeList_append, sizeList, ih, Nat.add_comm]

theorem freeOrderList_eq_flatMap (bs : List Branch) :
    freeOrderList bs = bs.reverse.flatMap freeOrder := by
  induction bs with
  | nil => rfl
  | cons b bs ih => simp [freeOrderList, ih]

end Branch

namespace Forest

/-! ## Siblings -/

section Along

variable {σ : Type} {f : Forest} {row : List NodeId}

/-- One sibling, and on to the next one. -/
def stride (f : Forest) (visit : σ → NodeId → σ) :
    σ × Option NodeId → Part (σ ⊕ σ × Option NodeId)
  | (s, none) => .some (.inl s)
  | (s, some x) => .some (.inr (visit s x, f.next? x))

/-- Visits a node and its siblings after it. -/
def along (f : Forest) (visit : σ → NodeId → σ) (s : σ) (first : Option NodeId) : Part σ :=
  Loop.run (f.stride visit) (s, first)

/-- A row in which every node leads to the one after it is visited from its first one on. -/
theorem along_row (steps : ∀ before x after, row = before ++ x :: after → f.next? x = after.head?)
    (visit : σ → NodeId → σ) (s : σ) : f.along visit s row.head? = .some (row.foldl visit s) := by
  induction row generalizing s with
  | nil => exact Loop.run_over rfl
  | cons x row ih =>
    have next : f.next? x = row.head? := steps [] x row rfl
    have rest := ih (fun before y after e => steps (x :: before) y after (by rw [e]; rfl))
    calc f.along visit s (some x)
        = f.along visit (visit s x) (f.next? x) := Loop.run_next rfl
      _ = .some ((x :: row).foldl visit s) := by rw [next, rest, List.foldl_cons]

/-- Puts a node and its siblings after it on a stack. -/
def pushed (f : Forest) (stack : List NodeId) (first : Option NodeId) : Part (List NodeId) :=
  f.along (fun stack x => x :: stack) stack first

theorem pushed_row (steps : ∀ before x after, row = before ++ x :: after → f.next? x = after.head?)
    (stack : List NodeId) : f.pushed stack row.head? = .some (row.reverse ++ stack) := by
  rw [pushed, along_row steps, List.foldl_flip_cons_eq_append, List.map_id']

/-- The children of a node, one after the other. -/
theorem Linked.along_children {rows : NodeId → List NodeId} (h : Linked f rows)
    (visit : σ → NodeId → σ) (s : σ) {x : NodeId} {n : Node} (hx : f.nodes.get? x = some n) :
    f.along visit s n.firstChild = .some ((rows x).foldl visit s) := by
  rw [(h.ends hx).1]
  exact along_row (fun _ _ _ row => h.next?_eq row) visit s

end Along

/-! ## Counting -/

section Size

variable {f : Forest} {rows : NodeId → List NodeId} {x : NodeId} {stack : List NodeId}

/-- Takes a node off the stack, counts it, and puts its children on. -/
def sizeRound (f : Forest) : List NodeId × Nat → Part (Nat ⊕ List NodeId × Nat)
  | ([], count) => .some (.inl count)
  | (x :: stack, count) =>
    (f.pushed stack ((f.nodes.get? x).bind (·.firstChild))).map fun stack =>
      .inr (stack, count + 1)

/-- Counts the nodes at and below a live node. -/
def sizeLoop (f : Forest) (x : NodeId) : Part (Except ForestError Nat) :=
  match f.node x with
  | .error e => .some (.error e)
  | .ok _ => (Loop.run f.sizeRound ([x], 0)).map .ok

/-- A node on the stack is counted with those below it before what is below it on the stack. -/
theorem Linked.run_sizeRound (h : Linked f rows) : ∀ x, f.contains x → ∀ stack count,
    Loop.run f.sizeRound (x :: stack, count) =
      Loop.run f.sizeRound (stack, count + (f.branch x).size) := by
  refine h.induction_below fun x hx ih stack count => ?_
  obtain ⟨n, hn⟩ := contains_iff.mp hx
  have children : f.pushed stack n.firstChild = .some ((rows x).reverse ++ stack) := by
    rw [(h.ends hn).1]
    exact pushed_row (fun _ _ _ row => h.next?_eq row) stack
  have each : ∀ ys, (∀ y ∈ ys, y ∈ rows x) → ∀ count,
      Loop.run f.sizeRound (ys ++ stack, count) =
        Loop.run f.sizeRound (stack, count + Branch.sizeList (ys.map f.branch)) := by
    intro ys
    induction ys with
    | nil => exact fun _ _ => rfl
    | cons y ys more =>
      intro sub count
      rw [List.cons_append, ih y (sub y List.mem_cons_self), List.map_cons, Branch.sizeList,
        more fun z hz => sub z (List.mem_cons_of_mem y hz), Nat.add_assoc]
  have size : (f.branch x).size = 1 + Branch.sizeList ((rows x).reverse.map f.branch) := by
    rw [h.branch_eq hx, Branch.size, List.map_reverse, Branch.sizeList_reverse]
  calc Loop.run f.sizeRound (x :: stack, count)
      = Loop.run f.sizeRound ((rows x).reverse ++ stack, count + 1) := by
        apply Loop.run_next
        rw [sizeRound, hn, Option.bind_some, children, Part.map_some]
    _ = Loop.run f.sizeRound (stack, count + (f.branch x).size) := by
        rw [each _ (fun y hy => List.mem_reverse.mp hy), size, Nat.add_assoc]

/-- Counting comes to an end. -/
theorem Linked.sizeLoop_eq (h : Linked f rows) (x : NodeId) :
    f.sizeLoop x = .some (f.subtreeSize x) := by
  unfold sizeLoop subtreeSize
  cases hx : f.node x with
  | error e => rfl
  | ok n =>
    have live : f.contains x := contains_iff.mpr ⟨n, node_ok.mp hx⟩
    have ends : Loop.run f.sizeRound ([], 0 + (f.branch x).size) =
        .some (0 + (f.branch x).size) := Loop.run_over rfl
    rw [h.run_sizeRound x live, ends, Nat.zero_add, Part.map_some, branch?_eq live]
    rfl

end Size

/-! ## Freeing -/

section Free

variable {f g : Forest} {rows : NodeId → List NodeId} {x : NodeId} {stack : List NodeId}

/-- Takes a node off the stack; if it is live, frees it, counts it, and puts its children on. -/
def freeRound : Forest × List NodeId × Nat → Part (Nat × Forest ⊕ Forest × List NodeId × Nat)
  | (f, [], count) => .some (.inl (count, f))
  | (f, x :: stack, count) =>
    match f.nodes.get? x with
    | none => .some (.inr (f, stack, count))
    | some n =>
      ((f.without x).pushed stack n.firstChild).map fun stack =>
        .inr (f.without x, stack, count + 1)

/-- Frees a live node and those below it, and counts them. -/
def freeLoop (f : Forest) (x : NodeId) : Part (Except ForestError (Nat × Forest)) :=
  match f.detach x with
  | .error e => .some (.error e)
  | .ok f => (Loop.run freeRound (f, [x], 0)).map fun (count, g) =>
      .ok (count, { g with freed := g.freed + count })

/-- Freeing comes to an end with nodes on the stack that are not touched yet. -/
theorem Pending.run_freeRound (h : Linked f rows) (w : Pending f g stack) (count : Nat) :
    Loop.run freeRound (g, stack, count) =
      .some (count + (g.release stack).1, (g.release stack).2) := by
  induction g, stack using release.induct generalizing count with
  | case1 g =>
    rw [release_nil]
    exact Loop.run_over rfl
  | case2 g x stack hx ih =>
    obtain ⟨n, hn⟩ := w.top_live h
    cases hx.symm.trans hn
  | case3 g x stack n hx g' _ _ _ ih =>
    have hf : f.nodes.get? x = some n := (w.top h).symm.trans hx
    have children : (g.without x).onward n.firstChild = rows x := w.onward_eq h hf
    have pushed : (g.without x).pushed stack n.firstChild =
        .some ((rows x).reverse ++ stack) := by
      rw [(h.ends hf).1]
      exact pushed_row (fun _ _ _ row => w.next?_eq h row) stack
    rw [children] at ih
    rw [release_live hx, children, ← Nat.add_assoc, Nat.add_right_comm, ← ih (w.pop h)]
    apply Loop.run_next
    rw [freeRound, hx]
    dsimp only
    rw [pushed, Part.map_some]

/-- Freeing comes to an end. -/
theorem Linked.freeLoop_eq (h : Linked f rows) (x : NodeId) :
    f.freeLoop x = .some (f.freeSubtree x) := by
  unfold freeLoop Forest.freeSubtree
  cases hf : f.detach x with
  | error e => rfl
  | ok f' =>
    have hx : f.contains x := by
      obtain ⟨n, hn, -⟩ := bind_eq_ok.mp hf
      exact contains_iff.mpr ⟨n, node_ok.mp hn⟩
    obtain ⟨_, hf', moved, h'⟩ := h.unlink hx
    obtain rfl := Except.ok.inj (hf.symm.trans hf')
    have w := Pending.single (f := f') (moved.contains_eq x ▸ hx)
    dsimp only
    rw [w.run_freeRound h', Part.map_some, Nat.zero_add]
    rfl

end Free

end Forest

end MarkdownForest
