/-
# MarkdownForest.Proofs.Rounds -- loops that nothing bounds

A loop runs a round again and again, on the state the round before left, until
one ends it.  Nothing says that this will ever happen (`Loop.run` is a partial
value), so that a loop comes to an end is something to prove: by induction on
what makes its rounds fewer, with `run_over` for the round that ends it and
`run_next` for every other.
-/
import Mathlib.Data.PFun

namespace MarkdownForest.Loop

set_option autoImplicit false

section Rounds

variable {σ β : Type} {round : σ → Part (β ⊕ σ)} {s t : σ} {b : β}

/-- Runs rounds from a state until one ends with a result. -/
def run (round : σ → Part (β ⊕ σ)) (s : σ) : Part β :=
  PFun.fix round s

theorem run_over (h : round s = .some (.inl b)) : run round s = .some b := by
  apply Part.eq_some_iff.mpr
  apply PFun.fix_stop
  rw [h]
  exact Part.mem_some _

theorem run_next (h : round s = .some (.inr t)) : run round s = run round t := by
  apply PFun.fix_fwd_eq
  rw [h]
  exact Part.mem_some _

end Rounds

end MarkdownForest.Loop
