import WeensyOS.CheckedRuns

/-!
# Two checked computations side by side

`Both R x y`: the computations stop with the same error, or end in values that
`R` relates.
-/

set_option autoImplicit false

namespace WeensyOS.PairedRuns

variable {ε α β α' β' : Type} {R R' : α → β → Prop} {S : α' → β' → Prop}
  {x : Except ε α} {y : Except ε β}

inductive Both (R : α → β → Prop) : Except ε α → Except ε β → Prop
  | ok {a : α} {b : β} (h : R a b) : Both R (.ok a) (.ok b)
  | error (e : ε) : Both R (.error e) (.error e)

theorem Both.mono (h : Both R x y) (hR : ∀ a b, R a b → R' a b) : Both R' x y := by
  cases h with
  | ok h => exact .ok (hR _ _ h)
  | error e => exact .error e

theorem Both.bind {f : α → Except ε α'} {g : β → Except ε β'} (h : Both R x y)
    (hf : ∀ a b, R a b → Both S (f a) (g b)) : Both S (x >>= f) (y >>= g) := by
  cases h with
  | ok h => exact hf _ _ h
  | error e => exact .error e

/-- The same computation in front. -/
theorem Both.after {γ : Type} (z : Except ε γ) {f : γ → Except ε α} {g : γ → Except ε β}
    (h : ∀ c, z = .ok c → Both R (f c) (g c)) : Both R (z >>= f) (z >>= g) := by
  cases z with
  | error e => exact .error e
  | ok c => exact h c rfl

theorem Both.ite (p : Prop) [Decidable p] {x' : Except ε α} {y' : Except ε β}
    (h : p → Both R x y) (h' : ¬p → Both R x' y') :
    Both R (if p then x else x') (if p then y else y') := by
  by_cases hp : p
  · rw [if_pos hp, if_pos hp]
    exact h hp
  · rw [if_neg hp, if_neg hp]
    exact h' hp

theorem Both.left {a : α} (h : Both R x y) (hx : x = .ok a) : ∃ b, y = .ok b ∧ R a b := by
  cases h with
  | ok h =>
    cases hx
    exact ⟨_,rfl,h⟩
  | error e => cases hx

theorem Both.stop {e : ε} (h : Both R x y) (hx : x = .error e) : y = .error e := by
  cases h with
  | ok h => cases hx
  | error e =>
    cases hx
    rfl

end WeensyOS.PairedRuns
