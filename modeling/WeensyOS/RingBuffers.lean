import Mathlib.Data.Nat.ModEq
import Mathlib.Logic.Function.Basic

/-!
# Rings of cells

Values written one behind the other from a cell on, round a ring of `N` cells.
A cell holds the last value that reached it.
-/

set_option autoImplicit false

namespace WeensyOS.RingBuffers

/-- `f` after the values of the list, from the cell `first` on. -/
def ringFill {α : Type*} (N : ℕ) : ℕ → List α → (ℕ → α) → ℕ → α
  | _, [], f => f
  | first, x :: xs, f => ringFill N (first+1) xs (Function.update f (first % N) x)

variable {α : Type*} {N first i k : ℕ} {xs ys : List α} {f : ℕ → α}

theorem ringFill_append : ringFill N first (xs++ys) f = ringFill N (first+xs.length) ys (ringFill N first xs f) := by
  induction xs generalizing first f with
  | nil => rfl
  | cons x xs ih =>
    rw [List.cons_append, ringFill, ringFill, ih, List.length_cons]
    congr 1
    omega

/-- Where the ring is entered counts only up to full turns. -/
theorem ringFill_mod {first' : ℕ} (h : first % N = first' % N) :
    ringFill N first xs f = ringFill N first' xs f := by
  induction xs generalizing first first' f with
  | nil => rfl
  | cons x xs ih =>
    have hnext : (first+1) % N = (first'+1) % N := Nat.ModEq.add_right 1 h
    rw [ringFill, ringFill, h, ih hnext]

theorem ringFill_other (h : ∀ k < xs.length, i ≠ (first+k) % N) : ringFill N first xs f i = f i := by
  induction xs generalizing first f with
  | nil => rfl
  | cons x xs ih =>
    have hrest : ∀ k < xs.length, i ≠ (first+1+k) % N := by
      intro k hk
      have hi := h (k+1) (Nat.succ_lt_succ hk)
      rwa [← Nat.add_assoc, Nat.add_right_comm] at hi
    rw [ringFill, ih hrest]
    exact Function.update_of_ne (h 0 (Nat.succ_pos _)) _ _

/-- Fewer than `N` steps do not lead back. -/
theorem apart {d : ℕ} (hpos : 0 < d) (hd : d < N) : first % N ≠ (first+d) % N := by
  intro h
  have hzero : 0 % N = d % N := Nat.ModEq.add_left_cancel' first h
  rw [Nat.zero_mod, Nat.mod_eq_of_lt hd] at hzero
  omega

/-- A cell holds the value that reached it less than one turn before the end. -/
theorem ringFill_last (hk : k < xs.length) (hlast : xs.length ≤ k+N) :
    ringFill N first xs f ((first+k) % N) = xs[k] := by
  induction xs generalizing first f k with
  | nil => exact absurd hk (Nat.not_lt_zero k)
  | cons x xs ih =>
    rw [List.length_cons] at hk hlast
    rw [ringFill]
    cases k with
    | zero =>
      have hother : ∀ j < xs.length, (first+0) % N ≠ (first+1+j) % N := by
        intro j hj
        rw [Nat.add_zero, Nat.add_assoc]
        exact apart (by omega) (by omega)
      rw [ringFill_other hother]
      exact Function.update_self _ _ _
    | succ k =>
      have hstep : first+(k+1) = first+1+k := by omega
      rw [hstep, ih (by omega) (by omega)]
      rfl

end WeensyOS.RingBuffers
