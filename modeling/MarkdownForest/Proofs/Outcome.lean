/-
# MarkdownForest.Proofs.Outcome -- computations that may fail

What a computation in `Except` gives is read off its steps: it succeeds when all
of them do (`bind_eq_ok`), and its failure is that of the first that fails
(`bind_eq_error`).
-/

namespace MarkdownForest

set_option autoImplicit false

section Outcome

variable {ε δ α β : Type}

@[simp] theorem ok_bind (a : α) (k : α → Except ε β) : (Except.ok a >>= k) = k a := rfl

@[simp] theorem error_bind (e : ε) (k : α → Except ε β) : (Except.error e >>= k) = .error e := rfl

@[simp] theorem pure_eq_ok (a : α) : (pure a : Except ε α) = .ok a := rfl

@[simp] theorem throw_eq_error (e : ε) : (throw e : Except ε α) = .error e := rfl

theorem bind_eq_ok {x : Except ε α} {k : α → Except ε β} {b : β} :
    (x >>= k) = .ok b ↔ ∃ a, x = .ok a ∧ k a = .ok b := by
  cases x <;> simp

theorem bind_eq_error {x : Except ε α} {k : α → Except ε β} {e : ε} :
    (x >>= k) = .error e ↔ x = .error e ∨ ∃ a, x = .ok a ∧ k a = .error e := by
  cases x <;> simp

@[simp] theorem mapError_ok (t : ε → δ) (a : α) : (Except.ok a : Except ε α).mapError t = .ok a :=
  rfl

@[simp] theorem mapError_error (t : ε → δ) (e : ε) :
    (Except.error e : Except ε α).mapError t = .error (t e) :=
  rfl

theorem mapError_eq_ok {t : ε → δ} {x : Except ε α} {a : α} :
    x.mapError t = .ok a ↔ x = .ok a := by
  cases x <;> simp

end Outcome

/-! ## Computations with corresponding results -/

/-- Both computations succeed, with results that `R` relates, or both fail alike. -/
inductive Alike {ε α β : Type} (R : α → β → Prop) : Except ε α → Except ε β → Prop
  | ok {a : α} {b : β} (h : R a b) : Alike R (.ok a) (.ok b)
  | error (e : ε) : Alike R (.error e) (.error e)

namespace Alike

variable {ε δ α β γ κ : Type} {R : α → β → Prop} {S : γ → κ → Prop} {x : Except ε α}
  {y : Except ε β}

protected theorem refl (x : Except ε α) : Alike Eq x x := by
  cases x with
  | ok a => exact .ok rfl
  | error e => exact .error e

theorem of_eq {x y : Except ε α} (h : y = x) : Alike Eq x y :=
  h ▸ .refl x

theorem bind {k : α → Except ε γ} {l : β → Except ε κ} (h : Alike R x y)
    (next : ∀ a b, R a b → Alike S (k a) (l b)) : Alike S (x >>= k) (y >>= l) := by
  cases h with
  | ok h => exact next _ _ h
  | error e => exact .error e

theorem mapError (t : ε → δ) (h : Alike R x y) : Alike R (x.mapError t) (y.mapError t) := by
  cases h with
  | ok h => exact .ok h
  | error e => exact .error (t e)

theorem map {k : α → γ} {l : β → κ} (h : Alike R x y) (next : ∀ a b, R a b → S (k a) (l b)) :
    Alike S (x.map k) (y.map l) := by
  cases h with
  | ok h => exact .ok (next _ _ h)
  | error e => exact .error e

theorem mono {S : α → β → Prop} (h : Alike R x y) (weaker : ∀ a b, x = .ok a → y = .ok b →
    R a b → S a b) : Alike S x y := by
  cases h with
  | ok h => exact .ok (weaker _ _ rfl rfl h)
  | error e => exact .error e

end Alike

end MarkdownForest
