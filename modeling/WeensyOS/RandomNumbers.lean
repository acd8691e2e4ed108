import WeensyOS.CongruentialGenerators

/-!
# `rand` and `srand`

The generator of lib.c. Its results run through all of 0 to `RAND_MAX` before
one of them comes again, from whatever seed.
-/

set_option autoImplicit false

namespace WeensyOS.RandomNumbers
open WeensyOS.CongruentialGenerators

abbrev RAND_MAX : UInt32 := 0x7FFFFFFF

structure rand_state where
  rand_seed_set : Bool
  rand_seed : UInt32
deriving DecidableEq

def srand (seed : UInt32) : rand_state := ⟨true,seed⟩

def rand (st : rand_state) : ℤ × rand_state :=
  let st := if st.rand_seed_set then st else srand 819234718
  let rand_seed := st.rand_seed*1664525+1013904223
  ((rand_seed &&& RAND_MAX).toNat,{ st with rand_seed := rand_seed })

/-- The result of the call after `n` others. -/
def result (st : rand_state) (n : ℕ) : ℤ := (rand ((fun st => (rand st).2)^[n] st)).1

example : (List.range 3).map (result (srand 1)) = [1015568748,1586005467,18219390] := by decide

variable {st : rand_state}

/-- The seed that the first call starts from. -/
abbrev start (st : rand_state) : UInt32 := if st.rand_seed_set then st.rand_seed else 819234718

theorem rand_seed_next (st : rand_state) :
    (rand st).2 = ⟨true,start st*1664525+1013904223⟩ := by
  obtain ⟨set,seed⟩ := st
  cases set <;> rfl

theorem rand_value (st : rand_state) :
    (rand st).1 = (((rand st).2.rand_seed.toNat % 2^31 : ℕ) : ℤ) := by
  have hand : (rand st).1 = (((rand st).2.rand_seed &&& RAND_MAX).toNat : ℤ) := rfl
  have hmask : RAND_MAX.toNat = 2^31-1 := rfl
  rw [hand, UInt32.toNat_and, hmask, Nat.and_two_pow_sub_one_eq_mod]

theorem advance_mod (a c x y : ℕ) (h : x % 2^32 = y % 2^32) :
    advance a c x % 2^32 = advance a c y % 2^32 :=
  Nat.ModEq.add_right c (Nat.ModEq.mul_left a h)

/-- The seed after some calls, as a state of the generator. -/
theorem seed_iterate (st : rand_state) (n : ℕ) :
    ((fun st => (rand st).2)^[n+1] st).rand_seed.toNat =
      (advance 1664525 1013904223)^[n+1] (start st).toNat % 2^32 := by
  have hstep : ∀ seed : UInt32, (seed*1664525+1013904223).toNat =
      advance 1664525 1013904223 seed.toNat % 2^32 := by
    intro seed
    rw [UInt32.toNat_add, UInt32.toNat_mul, advance, mul_comm 1664525]
    simp
  induction n with
  | zero =>
    rw [Function.iterate_one, Function.iterate_one, rand_seed_next, hstep]
  | succ n ih =>
    rw [Function.iterate_succ_apply', rand_seed_next, Function.iterate_succ_apply' _ (n+1)]
    have hset : ((fun st => (rand st).2)^[n+1] st).rand_seed_set = true := by
      rw [Function.iterate_succ_apply', rand_seed_next]
    simp only [start, hset, if_true, hstep]
    exact advance_mod _ _ _ _ (by rw [ih, Nat.mod_mod])

theorem result_iterate (st : rand_state) (n : ℕ) : result st n =
    (((advance 1664525 1013904223)^[n+1] (start st).toNat % 2^31 : ℕ) : ℤ) := by
  rw [result, rand_value, ← Function.iterate_succ_apply' (fun st => (rand st).2), seed_iterate,
    Nat.mod_mod_of_dvd _ (by decide)]

/-- Any `2^31` successive calls return each value from 0 to `RAND_MAX` exactly once. -/
theorem rand_full_period (st : rand_state) (m : ℕ) {v : ℤ} (hv : 0 ≤ v)
    (hmax : v ≤ RAND_MAX.toNat) : ∃ n < 2^31, result st (m+n) = v ∧
      ∀ k < 2^31, result st (m+k) = v → k = n := by
  have hmask : RAND_MAX.toNat = 2^31-1 := rfl
  obtain ⟨w,rfl⟩ := Int.eq_ofNat_of_zero_le hv
  obtain ⟨n,hn,hnv,huniq⟩ := iterate_full_period (a := 1664525) (c := 1013904223) (k := 31)
    (by decide) (by decide) (show w < 2^31 by omega) (m+1) (start st).toNat
  have hindex : ∀ k, m+k+1 = m+1+k := fun k => by omega
  refine ⟨n,hn,?_,fun k hk hkv => huniq k hk ?_⟩
  · rw [result_iterate, hindex, hnv]
  · rw [result_iterate, hindex] at hkv
    exact Int.ofNat.inj hkv

theorem rand_meets_zero : ∃ n < 2^31, result (srand 1) (5+n) = 0 := by
  obtain ⟨n,hn,h,-⟩ := rand_full_period (srand 1) 5 (v := 0) (by decide) (by decide)
  exact ⟨n,hn,h⟩

end WeensyOS.RandomNumbers
