/-
# MarkdownForest.Proofs.EndlessRuns -- readers that nothing bounds

A step of a reader of which nothing says that it comes to an end: it works on a
forest like a `Reading`, but its outcome is a partial value (`Run`).  A read out
of bounds has no outcome either.  Loops run rounds until one ends them
(`Run.loop`), and a recursion is the least solution of what its body says, given
what it calls (`Part.fix`).

* `Run.loop_eq`: a loop is one round, and the loop again unless that ended it;
* `Run.loop_mono`: what the rounds of a loop do in more cases, so does the loop;
* `Recursion.fix_eq`: a recursion comes to an end, with a known outcome, if that
  is what its body makes of itself, and if the body calls only what is smaller.
-/
import MarkdownForest.Proofs.ReadingAlong
import MarkdownForest.Proofs.Rounds
import Mathlib.Control.LawfulFix

namespace MarkdownForest

set_option autoImplicit false

/-! ## Loops and recursions -/

namespace Loop

section Unfold

variable {σ β : Type} {round round' : σ → Part (β ⊕ σ)} {s : σ}

theorem mem_run_iff {b : β} :
    b ∈ run round s ↔ .inl b ∈ round s ∨ ∃ t, .inr t ∈ round s ∧ b ∈ run round t :=
  PFun.mem_fix_iff

/-- A loop is one round, and the loop again unless that ended it. -/
theorem run_eq_bind (round : σ → Part (β ⊕ σ)) (s : σ) :
    run round s = (round s).bind fun
      | .inl b => .some b
      | .inr t => run round t := by
  refine Part.ext fun b => ?_
  rw [mem_run_iff, Part.mem_bind_iff]
  constructor
  · rintro (last | ⟨t, next, rest⟩)
    · exact ⟨_, last, Part.mem_some b⟩
    · exact ⟨_, next, rest⟩
  · rintro ⟨ended | t, here, rest⟩
    · rw [Part.mem_some_iff.mp rest]
      exact .inl here
    · exact .inr ⟨t, here, rest⟩

/-- A loop whose rounds have an outcome in more cases has the same outcome, if it had one.  It is
enough to look at the rounds in states that are kept to. -/
theorem run_mono (kept : σ → Prop) (step : ∀ s, kept s → round s ≤ round' s)
    (keeps : ∀ s t, kept s → .inr t ∈ round s → kept t) (start : kept s) :
    run round s ≤ run round' s := by
  intro b hb
  refine PFun.fixInduction hb (C := fun s => kept s → b ∈ run round' s) (fun s hs ih start => ?_)
    start
  rcases mem_run_iff.mp hs with last | ⟨t, next, -⟩
  · exact mem_run_iff.mpr (.inl (step s start _ last))
  · exact mem_run_iff.mpr (.inr ⟨t, step s start _ next, ih t next (keeps s t start next)⟩)

/-- What the rounds of a loop keep to holds until the one that ends it. -/
theorem run_ends (kept : σ → Prop) (post : β → Prop)
    (keeps : ∀ s t, kept s → .inr t ∈ round s → kept t)
    (last : ∀ s b, kept s → .inl b ∈ round s → post b) (start : kept s) {b : β}
    (h : b ∈ run round s) : post b := by
  refine PFun.fixInduction h (C := fun s => kept s → post b) (fun s hs ih start => ?_) start
  rcases mem_run_iff.mp hs with ended | ⟨t, next, -⟩
  · exact last s b start ended
  · exact ih t next (keeps s t start next)

end Unfold

end Loop

namespace Recursion

variable {α β : Type} {body : (α → Part β) →o (α → Part β)} {outcome : α → Part β}

/-- Calls that are nested less deep than the size of an argument are never cut off. -/
theorem approx_eq (size : α → Nat) (solves : body outcome = outcome)
    (smaller : ∀ g x, (∀ y, size y < size x → g y = outcome y) → body g x = body outcome x)
    {n : Nat} {x : α} (enough : size x < n) : Part.Fix.approx body n x = outcome x := by
  induction n generalizing x with
  | zero => exact absurd enough (Nat.not_lt_zero _)
  | succ n ih =>
    have calls : ∀ y, size y < size x → Part.Fix.approx body n y = outcome y :=
      fun y less => ih (by omega)
    exact (smaller _ x calls).trans (congrFun solves x)

/-- A recursion whose body calls only what is smaller has the outcomes that solve it. -/
theorem fix_eq (size : α → Nat) (solves : body outcome = outcome)
    (smaller : ∀ g x, (∀ y, size y < size x → g y = outcome y) → body g x = body outcome x) :
    Part.fix body = outcome := by
  refine le_antisymm (Part.fix_le body (le_of_eq solves)) fun x => ?_
  rw [← approx_eq size solves smaller (Nat.lt_succ_self (size x))]
  exact Part.Fix.approx_le_fix body _ x

end Recursion

/-! ## Runs -/

/-- A step of a reader that may have no outcome. -/
def Run (α : Type) : Type :=
  Forest → Part (EStateM.Result Stop Forest α)

namespace Run

variable {α β σ : Type}

instance : PartialOrder (Run α) :=
  inferInstanceAs (PartialOrder (Forest → Part (EStateM.Result Stop Forest α)))

/-- What follows a step, unless the reader stops there. -/
def andThen (k : α → Run β) :
    EStateM.Result Stop Forest α → Part (EStateM.Result Stop Forest β)
  | .ok a g => k a g
  | .error e g => .some (.error e g)

instance : Monad Run where
  pure a := fun f => .some (.ok a f)
  bind m k := fun f => (m f).bind (andThen k)

theorem andThen_pure : @andThen α α pure = Part.some := by
  funext r
  cases r <;> rfl

theorem andThen_bind {γ : Type} (k : α → Run β) (l : β → Run γ) :
    andThen (fun a => k a >>= l) = fun r => (andThen k r).bind (andThen l) := by
  funext r
  cases r with
  | ok a g => rfl
  | error e g => exact (Part.bind_some ..).symm

instance : LawfulMonad Run := LawfulMonad.mk' Run
  (fun m => funext fun f =>
    (congrArg (Part.bind (m f)) andThen_pure).trans (Part.bind_some_right _))
  (fun a k => funext fun f => Part.bind_some ..)
  (fun m k l => funext fun f => (Part.bind_assoc ..).trans
    (congrArg (Part.bind (m f)) (andThen_bind k l).symm))

/-- A step that has an outcome. -/
def ofReading (m : Reading α) : Run α := fun f => .some (m f)

/-- A value that may be missing; without it there is no outcome. -/
def given : Option α → Run α
  | some a => pure a
  | none => fun _ => .none

/-- What a round leads to: the end of the loop, or a state to go on from. -/
def turned : EStateM.Result Stop Forest (β ⊕ σ) → EStateM.Result Stop Forest β ⊕ σ × Forest
  | .ok (.inl b) g => .inl (.ok b g)
  | .ok (.inr t) g => .inr (t, g)
  | .error e g => .inl (.error e g)

/-- Runs rounds until one ends with a result, or the reader stops. -/
def loop (round : σ → Run (β ⊕ σ)) (s : σ) : Run β := fun f =>
  Loop.run (fun t : σ × Forest => (round t.1 t.2).map turned) (s, f)

section Steps

variable {m m' : Run α} {k k' : α → Run β} {round round' : σ → Run (β ⊕ σ)} {s : σ}

@[simp] theorem ofReading_pure (a : α) : ofReading (pure a) = pure a := rfl

@[simp] theorem ofReading_bind (m : Reading α) (k : α → Reading β) :
    ofReading (m >>= k) = ofReading m >>= fun a => ofReading (k a) := by
  funext f
  change Part.some (EStateM.bind m k f) = (Part.some (m f)).bind (andThen _)
  rw [Part.bind_some, EStateM.bind]
  cases m f <;> rfl

@[simp] theorem given_some (a : α) : given (some a) = pure a := rfl

/-- A loop is one round, and the loop again unless that ended it. -/
theorem loop_eq (round : σ → Run (β ⊕ σ)) (s : σ) :
    loop round s = round s >>= fun
      | .inl b => pure b
      | .inr t => loop round t := by
  funext f
  rw [loop, Loop.run_eq_bind]
  change ((round s f).map turned).bind _ = (round s f).bind (andThen _)
  rw [Part.bind_map]
  refine congrArg (Part.bind (round s f)) (funext fun r => ?_)
  rcases r with ⟨b | t, g⟩ | ⟨e, g⟩ <;> rfl

theorem mem_bind_ok {f h : Forest} {b : β} :
    .ok b h ∈ (m >>= k) f ↔ ∃ a g, .ok a g ∈ m f ∧ .ok b h ∈ k a g := by
  refine Part.mem_bind_iff.trans ⟨?_, ?_⟩
  · rintro ⟨a | e, hm, hk⟩
    · exact ⟨a, _, hm, hk⟩
    · cases Part.mem_some_iff.mp hk
  · rintro ⟨a, g, hm, hk⟩
    exact ⟨_, hm, hk⟩

theorem mem_pure_ok {f g : Forest} {a b : α} :
    .ok b g ∈ (pure a : Run α) f ↔ b = a ∧ g = f := by
  refine Part.mem_some_iff.trans ?_
  rw [EStateM.Result.ok.injEq]

theorem mem_given_ok {f g : Forest} {a? : Option α} {a : α} :
    .ok a g ∈ given a? f ↔ a? = some a ∧ g = f := by
  cases a? with
  | none => exact ⟨fun h => absurd h (Part.notMem_none _), nofun⟩
  | some b => rw [given_some, mem_pure_ok, Option.some.injEq, eq_comm]

/-- What the rounds of a loop keep to holds until the one that ends it. -/
theorem loop_ends (kept : σ → Prop) (post : β → Prop)
    (keeps : ∀ s t f g, kept s → .ok (.inr t) g ∈ round s f → kept t)
    (last : ∀ s b f g, kept s → .ok (.inl b) g ∈ round s f → post b) (start : kept s)
    {f g : Forest} {b : β} (h : .ok b g ∈ loop round s f) : post b := by
  let outcome : EStateM.Result Stop Forest β → Prop
    | .ok b _ => post b
    | .error _ _ => True
  refine Loop.run_ends (fun t => kept t.1) outcome (fun t u ht hu => ?_) (fun t r ht hr => ?_)
    start h
  · obtain ⟨q, hq, e⟩ := (Part.mem_map_iff _).mp hu
    rcases q with ⟨b | v, g⟩ | ⟨_, g⟩ <;> cases e
    exact keeps t.1 v t.2 g ht hq
  · obtain ⟨q, hq, e⟩ := (Part.mem_map_iff _).mp hr
    rcases q with ⟨b | v, g⟩ | ⟨_, g⟩ <;> cases e
    · exact last t.1 b t.2 g ht hq
    · trivial

theorem bind_mono (first : m ≤ m') (then_ : ∀ a, k a ≤ k' a) : m >>= k ≤ m' >>= k' := by
  intro f b hb
  obtain ⟨r, hr, rest⟩ := Part.mem_bind_iff.mp hb
  refine Part.mem_bind_iff.mpr ⟨r, first f r hr, ?_⟩
  cases r with
  | ok a g => exact then_ a g b rest
  | error e g => exact rest

theorem loop_mono (kept : σ → Prop) (step : ∀ s, kept s → round s ≤ round' s)
    (keeps : ∀ s t f g, kept s → .ok (.inr t) g ∈ round s f → kept t) (start : kept s) :
    loop round s ≤ loop round' s := by
  intro f
  refine Loop.run_mono (fun t => kept t.1) (fun t ht r hr => ?_) (fun t u ht hu => ?_) start
  · obtain ⟨q, hq, e⟩ := (Part.mem_map_iff _).mp hr
    exact (Part.mem_map_iff _).mpr ⟨q, step t.1 ht t.2 q hq, e⟩
  · obtain ⟨q, hq, e⟩ := (Part.mem_map_iff _).mp hu
    rcases q with ⟨b | v, g⟩ | ⟨_, g⟩ <;> cases e
    exact keeps t.1 v t.2 g ht hq

end Steps

end Run

end MarkdownForest
