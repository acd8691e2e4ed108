import Mathlib

/-!
# Packed words

A word made of consecutive fields, lowest first. A field is read back by its
position and width, and a value that was cut into slices is glued together.
-/

set_option autoImplicit false

namespace WeensyOS.PackedWords

/-- The `l` bits of `x` from bit `a` on. -/
def slice (x a l : ℕ) : ℕ := x / 2^a % 2^l

variable {x a k l w : ℕ}

theorem slice_lt (x a l : ℕ) : slice x a l < 2^l := Nat.mod_lt _ (Nat.two_pow_pos l)

theorem testBit_slice (x a l i : ℕ) :
    (slice x a l).testBit i = (decide (i < l) && x.testBit (i+a)) := by
  rw [slice, Nat.testBit_mod_two_pow, Nat.testBit_div_two_pow]

theorem slice_whole (h : x < 2^l) : slice x 0 l = x := by
  rw [slice, pow_zero, Nat.div_one, Nat.mod_eq_of_lt h]

/-- The low slices of a number and what is above them. -/
theorem slice_glue (x a l l' : ℕ) :
    slice x a l+2^l*slice x (a+l) l' = slice x a (l+l') := by
  rw [slice, slice, slice, pow_add, ← Nat.div_div_eq_div_mul, ← Nat.mod_mul, ← pow_add]

/-- A number in three pieces. -/
theorem slice_thirds {b c : ℕ} (h : x < 2^(a+b+c)) :
    slice x 0 a+2^a*slice x a b+2^(a+b)*slice x (a+b) c = x := by
  have hlow := slice_glue x 0 a b
  have hall := slice_glue x 0 (a+b) c
  rw [Nat.zero_add] at hlow hall
  rw [hlow, hall, slice_whole h]

/-- A mask of consecutive ones keeps a slice in its place. -/
theorem mask_slice (x a l : ℕ) : x &&& (2^l-1) <<< a = slice x a l <<< a := by
  apply Nat.eq_of_testBit_eq
  intro i
  rw [Nat.testBit_and, Nat.testBit_shiftLeft, Nat.testBit_shiftLeft, testBit_slice,
    Nat.testBit_two_pow_sub_one]
  by_cases hi : a ≤ i
  · rw [Nat.sub_add_cancel hi, Bool.and_comm, Bool.and_assoc]
  · simp [hi]

/-- A shift that keeps the slice inside the word. -/
theorem slice_shifted (h : a+l+k ≤ w) : slice x a l <<< a <<< k % 2^w = slice x a l <<< (a+k) := by
  rw [← Nat.shiftLeft_add, Nat.mod_eq_of_lt]
  rw [Nat.shiftLeft_eq]
  calc slice x a l*2^(a+k) < 2^l*2^(a+k) :=
        Nat.mul_lt_mul_of_pos_right (slice_lt x a l) (Nat.two_pow_pos _)
    _ = 2^(a+l+k) := by rw [← pow_add]; congr 1; omega
    _ ≤ 2^w := Nat.pow_le_pow_right two_pos h

/-- A shift that moves the slice out of the word. -/
theorem slice_shifted_out (h : w ≤ a+k) : slice x a l <<< a <<< k % 2^w = 0 := by
  rw [← Nat.shiftLeft_add, Nat.shiftLeft_eq]
  exact Nat.mod_eq_zero_of_dvd ((pow_dvd_pow 2 h).mul_left _)

section Words

variable {v mask shift : UInt64}

theorem masked (h : mask.toNat = (2^l-1) <<< a) : (v &&& mask).toNat = slice v.toNat a l <<< a := by
  rw [UInt64.toNat_and, h, mask_slice]

/-- The masked part of a word at its new place. -/
theorem masked_shift {p : ℕ} (h : mask.toNat = (2^l-1) <<< a) (hs : a+shift.toNat = p)
    (hfit : p+l ≤ 64) (hk : shift.toNat < 64) :
    ((v &&& mask) <<< shift).toNat = slice v.toNat a l <<< p := by
  rw [UInt64.toNat_shiftLeft, masked h, Nat.mod_eq_of_lt hk, ← hs]
  exact slice_shifted (by omega)

/-- The masked part of a word leaves it. -/
theorem masked_shift_out (h : mask.toNat = (2^l-1) <<< a) (hout : 64 ≤ a+shift.toNat)
    (hk : shift.toNat < 64) : ((v &&& mask) <<< shift).toNat = 0 := by
  rw [UInt64.toNat_shiftLeft, masked h, Nat.mod_eq_of_lt hk]
  exact slice_shifted_out hout

/-- A small number at its place. -/
theorem small_shift (hv : v.toNat < 2^l) (hs : shift.toNat = k) (hfit : l+k ≤ 64) (hk : k < 64) :
    (v <<< shift).toNat = v.toNat <<< k := by
  have h := slice_shifted (x := v.toNat) (a := 0) (k := k) (w := 64) (l := l) (by omega)
  rw [slice_whole hv, Nat.shiftLeft_zero, Nat.zero_add] at h
  rw [UInt64.toNat_shiftLeft, hs, Nat.mod_eq_of_lt hk, h]

theorem high_word (v : UInt64) : (v >>> 32).toNat = slice v.toNat 32 32 := by
  have hv : v.toNat / 2^32 < 2^32 := by
    have := v.toNat_lt
    omega
  rw [UInt64.toNat_shiftRight, slice, Nat.mod_eq_of_lt hv, Nat.shiftRight_eq_div_pow]
  rfl

end Words

structure Field where
  width : ℕ
  value : ℕ
  fits : value < 2^width

/-- A slice of a value, as a field. -/
def cut (x a l : ℕ) : Field := ⟨l,slice x a l,slice_lt x a l⟩

def pack : List Field → ℕ
  | [] => 0
  | f :: fs => f.value ||| pack fs <<< f.width

/-- The position of the field `i`. -/
def offset : List Field → ℕ → ℕ
  | f :: fs, i+1 => f.width+offset fs i
  | _, _ => 0

theorem pack_cons (f : Field) (fs : List Field) :
    pack (f :: fs) = f.value+2^f.width*pack fs := by
  rw [pack, Nat.or_comm, ← Nat.shiftLeft_add_eq_or_of_lt f.fits, Nat.shiftLeft_eq, mul_comm,
    add_comm]

theorem slice_above {v : ℕ} (h : v < 2^k) (y p : ℕ) : slice (v+2^k*y) (k+p) l = slice y p l := by
  rw [slice, slice, pow_add, ← Nat.div_div_eq_div_mul,
    Nat.add_mul_div_left v y (Nat.two_pow_pos k), Nat.div_eq_of_lt h, zero_add]

/-- Every field is read back from its place. -/
theorem slice_pack (fs : List Field) (i : ℕ) (h : i < fs.length) :
    slice (pack fs) (offset fs i) fs[i].width = fs[i].value := by
  induction fs generalizing i with
  | nil => exact absurd h (Nat.not_lt_zero i)
  | cons f fs ih =>
    rw [pack_cons]
    cases i with
    | zero =>
      show slice (f.value+2^f.width*pack fs) 0 f.width = f.value
      rw [slice, pow_zero, Nat.div_one, Nat.add_mul_mod_self_left, Nat.mod_eq_of_lt f.fits]
    | succ i =>
      have hi : i < fs.length := Nat.lt_of_succ_lt_succ h
      show slice (f.value+2^f.width*pack fs) (f.width+offset fs i) fs[i].width = fs[i].value
      rw [slice_above f.fits]
      exact ih i hi

end WeensyOS.PackedWords
