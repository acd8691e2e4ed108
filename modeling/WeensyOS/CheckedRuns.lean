import WeensyOS.KernelState

/-!
# Rules for checked computations

A computation that can stop reaches its end exactly when each part of it does.
-/

set_option autoImplicit false

namespace WeensyOS.CheckedRuns
open WeensyOS.KernelState

variable {ε α β : Type}

theorem bind_ok_iff (x : Except ε α) (f : α → Except ε β) (b : β) :
    (x >>= f) = .ok b ↔ ∃ a, x = .ok a ∧ f a = .ok b := by
  cases x with
  | error e => exact ⟨fun h => (by cases h),fun ⟨a,h,_⟩ => (by cases h)⟩
  | ok a => exact ⟨fun h => ⟨a,rfl,h⟩,fun ⟨a',h,h'⟩ => (by cases h; exact h')⟩

theorem seq_ok_iff (x : Except ε Unit) (y : Except ε β) (b : β) :
    (x >>= fun _ => y) = .ok b ↔ x = .ok () ∧ y = .ok b := by
  rw [bind_ok_iff]
  exact ⟨fun ⟨_,h,h'⟩ => ⟨h,h'⟩,fun ⟨h,h'⟩ => ⟨(),h,h'⟩⟩

theorem forM_ok_iff (l : List α) (f : α → Except ε Unit) :
    l.forM f = .ok () ↔ ∀ x ∈ l, f x = .ok () := by
  induction l with
  | nil => exact ⟨fun _ x hx => (by cases hx),fun _ => rfl⟩
  | cons x l ih =>
    change (f x >>= fun _ => l.forM f) = .ok () ↔ _
    rw [seq_ok_iff, ih, List.forall_mem_cons]

theorem kassert_ok_iff (p : Prop) [Decidable p] (msg : String) : kassert p msg = .ok () ↔ p := by
  rw [kassert]
  split
  · rename_i h
    exact ⟨fun _ => h,fun _ => rfl⟩
  · rename_i h
    exact ⟨fun hx => (by cases hx),fun hp => absurd hp h⟩

/-- A guarded check. -/
theorem if_ok_iff (p : Prop) [Decidable p] (x : Except ε Unit) :
    (if p then x else .ok ()) = .ok () ↔ (p → x = .ok ()) := by
  by_cases hp : p <;> simp [hp]

section Errors

variable {e : ε}

theorem ok_ne_error (a : α) : (.ok a : Except ε α) ≠ .error e := fun h => (by cases h)

/-- A sequence does not stop with `e` when neither part does. -/
theorem bind_ne_error {x : Except ε α} {f : α → Except ε β} (hx : x ≠ .error e)
    (hf : ∀ a, x = .ok a → f a ≠ .error e) : (x >>= f) ≠ .error e := by
  cases x with
  | error e' => exact fun h => hx (by cases h; rfl)
  | ok a => exact hf a rfl

theorem seq_ne_error {x : Except ε Unit} {y : Except ε β} (hx : x ≠ .error e)
    (hy : y ≠ .error e) : (x >>= fun _ => y) ≠ .error e := bind_ne_error hx fun _ _ => hy

theorem forM_ne_error {f : α → Except ε Unit} (hf : ∀ a, f a ≠ .error e) (l : List α) :
    l.forM f ≠ .error e := by
  induction l with
  | nil => exact fun h => (by cases h)
  | cons a l ih => exact seq_ne_error (hf a) ih

theorem ite_ne_error {p : Prop} [Decidable p] {x y : Except ε α} (hx : x ≠ .error e)
    (hy : y ≠ .error e) : (if p then x else y) ≠ .error e := by
  by_cases hp : p
  · rwa [if_pos hp]
  · rwa [if_neg hp]

theorem kassert_ne_error {e : Panic} {p : Prop} [Decidable p] {msg : String}
    (hmsg : e ≠ .assert_fail msg) : kassert p msg ≠ .error e := by
  rw [kassert]
  by_cases hp : p
  · rw [if_pos hp]
    exact fun h => (by cases h)
  · rw [if_neg hp]
    exact fun h => hmsg (by cases h; rfl)

end Errors

end WeensyOS.CheckedRuns
