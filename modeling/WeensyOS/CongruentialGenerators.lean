import Mathlib.Algebra.BigOperators.Intervals
import Mathlib.Algebra.Ring.GeomSum
import Mathlib.Data.Nat.ModEq
import Mathlib.Data.Nat.Prime.Basic
import Mathlib.Data.Fintype.Card
import Mathlib.Tactic.Ring

/-!
# Linear congruential generators modulo powers of two

The map `x ↦ a*x+c` with `a % 4 = 1` and odd `c` runs through all residues
modulo each power of two before it repeats itself.
-/

set_option autoImplicit false

namespace WeensyOS.CongruentialGenerators
open Finset

def advance (a c x : ℕ) : ℕ := a*x+c

/-- The powers of `a` below the exponent `d`, added up. -/
abbrev powers (a d : ℕ) : ℕ := ∑ i ∈ range d, a^i

variable {a c k d n x : ℕ}

theorem advance_iterate (a c x n : ℕ) : (advance a c)^[n] x = a^n*x+c*powers a n := by
  induction n with
  | zero => simp
  | succ n ih =>
    have hsum : powers a (n+1) = a*powers a n+1 := geom_sum_succ
    rw [Function.iterate_succ_apply', ih, advance, hsum]
    ring

theorem powers_add (a n d : ℕ) : powers a (n+d) = powers a n+a^n*powers a d := by
  rw [powers, sum_range_add]
  simp only [pow_add, ← mul_sum]

theorem pow_mod_one {m : ℕ} (ha : a % m = 1) (d : ℕ) : a^d % m = 1 := by
  have hm : 1 % m = 1 := by rw [← ha, Nat.mod_mod]
  rw [Nat.pow_mod, ha, one_pow, hm]

theorem powers_mod_two (ha : a % 2 = 1) (d : ℕ) : powers a d % 2 = d % 2 := by
  induction d with
  | zero => rfl
  | succ d ih =>
    have hpow := pow_mod_one ha d
    have hsum : powers a (d+1) = powers a d+a^d := sum_range_succ ..
    omega

/-- The sum of `d` powers is divisible by the powers of two that divide `d`, and no others. -/
theorem powers_dvd_iff (ha : a % 4 = 1) (k d : ℕ) : 2^k ∣ powers a d ↔ 2^k ∣ d := by
  induction k generalizing d with
  | zero => simp
  | succ k ih =>
    rcases Nat.even_or_odd' d with ⟨e,rfl | rfl⟩
    · -- the sum doubles with a second factor that is twice an odd number
      have hpow := pow_mod_one ha e
      obtain ⟨u,hu⟩ : ∃ u, a^e+1 = 2*u := ⟨(a^e+1) / 2,by omega⟩
      have hodd : Nat.Coprime (2^k) u :=
        Nat.Coprime.pow_left k (Nat.coprime_two_left.2 (Nat.odd_iff.2 (by omega)))
      have hdouble : powers a (2*e) = 2*(powers a e*u) := by
        rw [two_mul, powers_add, ← one_add_mul, add_comm 1, hu]
        ring
      rw [hdouble, pow_succ', Nat.mul_dvd_mul_iff_left two_pos, Nat.mul_dvd_mul_iff_left two_pos,
        hodd.dvd_mul_right, ih]
    · have htwo : 2 ∣ 2^(k+1) := Dvd.intro _ (pow_succ' 2 k).symm
      have hmod := powers_mod_two (show a % 2 = 1 by omega) (2*e+1)
      refine iff_of_false (fun h => ?_) fun h => ?_
      · have := htwo.trans h
        omega
      · have := htwo.trans h
        omega

/-- Two states of a sequence agree modulo `2^k` exactly when their distance is a multiple. -/
theorem iterate_mod_iff (ha : a % 4 = 1) (hc : c % 2 = 1) (k n d x : ℕ) :
    (advance a c)^[n+d] x % 2^k = (advance a c)^[n] x % 2^k ↔ 2^k ∣ d := by
  obtain ⟨b,rfl⟩ : ∃ b, a = b+1 := ⟨a-1,by omega⟩
  have hodd : Nat.Coprime (2^k) ((b+1)^n) :=
    Nat.Coprime.pow_left k (Nat.Coprime.pow_right n
      (Nat.coprime_two_left.2 (Nat.odd_iff.2 (by omega))))
  have hfirst : Nat.Coprime (2^k) (b*x+c) := by
    refine Nat.Coprime.pow_left k (Nat.coprime_two_left.2 (Nat.odd_iff.2 ?_))
    have heven : b*x % 2 = 0 := by rw [Nat.mul_mod, show b % 2 = 0 by omega, zero_mul, Nat.zero_mod]
    omega
  have hdiff : (advance (b+1) c)^[n+d] x =
      (advance (b+1) c)^[n] x+(b+1)^n*(powers (b+1) d*(b*x+c)) := by
    rw [advance_iterate, advance_iterate, powers_add, pow_add, ← geom_sum_mul_add b d]
    ring
  have hiff : (advance (b+1) c)^[n] x+(b+1)^n*(powers (b+1) d*(b*x+c)) ≡
      (advance (b+1) c)^[n] x [MOD 2^k] ↔ _ := Nat.add_modEq_left_iff
  rw [hdiff]
  refine hiff.trans ?_
  rw [hodd.dvd_mul_left, hfirst.dvd_mul_right, powers_dvd_iff ha]

/-- Every residue is met exactly once among `2^k` successive states. -/
theorem iterate_full_period (ha : a % 4 = 1) (hc : c % 2 = 1) {v : ℕ} (hv : v < 2^k) (n x : ℕ) :
    ∃ d < 2^k, (advance a c)^[n+d] x % 2^k = v ∧
      ∀ e < 2^k, (advance a c)^[n+e] x % 2^k = v → e = d := by
  have hinj : ∀ d e, d ≤ e → e < 2^k →
      (advance a c)^[n+d] x % 2^k = (advance a c)^[n+e] x % 2^k → d = e := by
    intro d e hde he heq
    have hsum : n+e = n+d+(e-d) := by omega
    rw [hsum, eq_comm, iterate_mod_iff ha hc] at heq
    have := Nat.eq_zero_of_dvd_of_lt heq (by omega)
    omega
  -- an injection of the residues into themselves meets each of them
  let f : Fin (2^k) → Fin (2^k) := fun d =>
    ⟨(advance a c)^[n+d] x % 2^k,Nat.mod_lt _ (Nat.two_pow_pos k)⟩
  have hf : Function.Injective f := by
    intro d e heq
    have hval := congrArg Fin.val heq
    rcases Nat.le_total d e with h | h
    · exact Fin.ext (hinj _ _ h e.isLt hval)
    · exact Fin.ext (hinj _ _ h d.isLt hval.symm).symm
  obtain ⟨d,hd⟩ := (Finite.injective_iff_surjective.1 hf) ⟨v,hv⟩
  have hdv : (advance a c)^[n+d] x % 2^k = v := congrArg Fin.val hd
  refine ⟨d,d.isLt,hdv,fun e he hev => ?_⟩
  have hsame : f ⟨e,he⟩ = f d := Fin.ext (hev.trans hdv.symm)
  exact congrArg Fin.val (hf hsame)

end WeensyOS.CongruentialGenerators
