import Mathlib

/-!
# Flat byte memory

A memory is a total map from addresses to bytes. Words are little endian.
The block operations are stated by the bytes they leave behind, so a reader
of one word never has to look inside a loop.
-/

set_option autoImplicit false

namespace WeensyOS.FlatMemory

abbrev Memory := ℕ → UInt8

def loadLE (m : Memory) (a : ℕ) : ℕ → ℕ
  | 0 => 0
  | n+1 => (m a).toNat + 256 * loadLE m (a+1) n

def storeLE (m : Memory) (a v n : ℕ) : Memory := fun x =>
  if a ≤ x ∧ x < a+n then UInt8.ofNat (v / 256^(x-a)) else m x

def load64 (m : Memory) (a : ℕ) : ℕ := loadLE m a 8

def store64 (m : Memory) (a v : ℕ) : Memory := storeLE m a v 8

/-- The block `[a, a+n)` holds the byte `c`. -/
def fill (m : Memory) (a : ℕ) (c : UInt8) (n : ℕ) : Memory := fun x =>
  if a ≤ x ∧ x < a+n then c else m x

/-- The block `[d, d+n)` holds what `[s, s+n)` held before. -/
def copy (m : Memory) (d s n : ℕ) : Memory := fun x =>
  if d ≤ x ∧ x < d+n then m (s+(x-d)) else m x

/-- The block `[a, a+n)` holds the bytes of `src`. -/
def blit (m : Memory) (a n : ℕ) (src : ℕ → UInt8) : Memory := fun x =>
  if a ≤ x ∧ x < a+n then src (x-a) else m x

/-- The two memories agree on `[a, a+n)`. -/
def Agree (m m' : Memory) (a n : ℕ) : Prop := ∀ k < n, m' (a+k) = m (a+k)

theorem Agree.refl (m : Memory) (a n : ℕ) : Agree m m a n := fun _ _ => rfl

theorem Agree.trans {m m' m'' : Memory} {a n : ℕ}
    (h : Agree m m' a n) (h' : Agree m' m'' a n) : Agree m m'' a n :=
  fun k hk => (h' k hk).trans (h k hk)

/-- Equal bytes at two places make equal words. -/
theorem load_moved {m m' : Memory} {a a' : ℕ} (n : ℕ) (h : ∀ k < n, m' (a'+k) = m (a+k)) :
    loadLE m' a' n = loadLE m a n := by
  induction n generalizing a a' with
  | zero => rfl
  | succ n ih =>
    have hhead : m' a' = m a := h 0 (by omega)
    have htail : loadLE m' (a'+1) n = loadLE m (a+1) n := ih fun k hk => by
      simpa [add_assoc, add_comm 1] using h (k+1) (by omega)
    simp only [loadLE, hhead, htail]

theorem load_congr {m m' : Memory} {a : ℕ} (n : ℕ) (h : Agree m m' a n) :
    loadLE m' a n = loadLE m a n := load_moved n h

theorem load64_congr {m m' : Memory} {a : ℕ} (h : Agree m m' a 8) :
    load64 m' a = load64 m a := load_congr 8 h

/-- A stored word is read back from any of its bytes upwards. -/
theorem load_store_suffix (m : Memory) (a v n : ℕ) (j k : ℕ) (h : j+k = n) :
    loadLE (storeLE m a v n) (a+j) k = v / 256^j % 256^k := by
  induction k generalizing j with
  | zero => simp [loadLE, Nat.mod_one]
  | succ k ih =>
    have hrest := ih (j+1) (by omega)
    have hin : a ≤ a+j ∧ a+j < a+n := by omega
    have hbyte : (storeLE m a v n (a+j)).toNat = v / 256^j % 256 := by
      simp [storeLE, hin]
    have hdiv : v / 256^(j+1) = v / 256^j / 256 := by
      rw [pow_succ, Nat.div_div_eq_div_mul]
    rw [loadLE, hbyte, add_assoc, hrest, hdiv, pow_succ, mul_comm (256^k), Nat.mod_mul]

theorem load64_store64 (m : Memory) (a v : ℕ) (hv : v < 2^64) :
    load64 (store64 m a v) a = v := by
  have h := load_store_suffix m a v 8 0 8 rfl
  simp only [add_zero, pow_zero, Nat.div_one] at h
  rw [load64, store64, h]
  exact Nat.mod_eq_of_lt (by simpa using hv)

theorem store64_agree (m : Memory) (a v b n : ℕ) (h : b+n ≤ a ∨ a+8 ≤ b) :
    Agree m (store64 m a v) b n := by
  intro k hk
  have hout : ¬(a ≤ b+k ∧ b+k < a+8) := by omega
  simp [store64, storeLE, hout]

theorem fill_agree (m : Memory) (a : ℕ) (c : UInt8) (n b l : ℕ)
    (h : b+l ≤ a ∨ a+n ≤ b) : Agree m (fill m a c n) b l := by
  intro k hk
  have hout : ¬(a ≤ b+k ∧ b+k < a+n) := by omega
  simp [fill, hout]

theorem copy_agree (m : Memory) (d s n b l : ℕ)
    (h : b+l ≤ d ∨ d+n ≤ b) : Agree m (copy m d s n) b l := by
  intro k hk
  have hout : ¬(d ≤ b+k ∧ b+k < d+n) := by omega
  simp [copy, hout]

theorem copy_here (m : Memory) (d s n k : ℕ) (hk : k < n) :
    copy m d s n (d+k) = m (s+k) := by
  have hin : d ≤ d+k ∧ d+k < d+n := by omega
  simp [copy, hin]

theorem copy_nothing (m : Memory) (d s : ℕ) : copy m d s 0 = m := by
  funext x
  simp [copy]

/-- A copy may start with its lowest byte when no source byte above it is overwritten. -/
theorem copy_lowest (m : Memory) (d s n : ℕ) (h : d ≤ s ∨ s+n < d) :
    copy (Function.update m d (m s)) (d+1) (s+1) n = copy m d s (n+1) := by
  funext x
  by_cases hx : x = d
  · subst hx
    simp [copy]
  · have hrange : (d+1 ≤ x ∧ x < d+1+n) ↔ (d ≤ x ∧ x < d+(n+1)) := by omega
    simp only [copy, hrange, Function.update_of_ne hx]
    by_cases hin : d ≤ x ∧ x < d+(n+1)
    · have hsrc : s+1+(x-(d+1)) = s+(x-d) := by omega
      rw [if_pos hin, if_pos hin, hsrc, Function.update_of_ne (by omega)]
    · rw [if_neg hin, if_neg hin]

/-- A copy may start with its highest byte when no source byte below it is overwritten. -/
theorem copy_highest (m : Memory) (d s n : ℕ) (h : s ≤ d ∨ d+n < s) :
    copy (Function.update m (d+n) (m (s+n))) d s n = copy m d s (n+1) := by
  funext x
  by_cases hx : x = d+n
  · subst hx
    simp [copy]
  · have hrange : (d ≤ x ∧ x < d+n) ↔ (d ≤ x ∧ x < d+(n+1)) := by omega
    simp only [copy, hrange, Function.update_of_ne hx]
    by_cases hin : d ≤ x ∧ x < d+(n+1)
    · rw [if_pos hin, if_pos hin, Function.update_of_ne (by omega)]
    · rw [if_neg hin, if_neg hin]

theorem copy_outside (m : Memory) (d s n x : ℕ) (h : x < d ∨ d+n ≤ x) : copy m d s n x = m x := by
  have hout : ¬(d ≤ x ∧ x < d+n) := by omega
  simp [copy, hout]

theorem blit_zero (m : Memory) (a : ℕ) (src : ℕ → UInt8) : blit m a 0 src = m := by
  funext x
  rw [blit, if_neg]
  omega

theorem blit_succ (m : Memory) (a n : ℕ) (src : ℕ → UInt8) :
    blit (Function.update m a (src 0)) (a+1) n (fun k => src (k+1)) = blit m a (n+1) src := by
  funext x
  simp only [blit]
  by_cases hx : x = a
  · subst hx
    rw [if_neg (by omega), if_pos (by omega), Function.update_self, Nat.sub_self]
  · by_cases hin : a+1 ≤ x ∧ x < a+1+n
    · have hsub : x-(a+1)+1 = x-a := by omega
      rw [if_pos hin, if_pos (by omega), hsub]
    · rw [if_neg hin, if_neg (by omega), Function.update_of_ne hx]

theorem blit_here (m : Memory) (a n k : ℕ) (src : ℕ → UInt8) (hk : k < n) :
    blit m a n src (a+k) = src k := by
  rw [blit, if_pos (by omega), Nat.add_sub_cancel_left]

theorem blit_other (m : Memory) (a n x : ℕ) (src : ℕ → UInt8) (hx : x < a ∨ a+n ≤ x) :
    blit m a n src x = m x := by
  rw [blit, if_neg]
  omega

/-- A block written behind a block. -/
theorem blit_append (m : Memory) (a n n' : ℕ) (src : ℕ → UInt8) :
    blit (blit m a n src) (a+n) n' (fun k => src (n+k)) = blit m a (n+n') src := by
  funext x
  rcases Nat.lt_or_ge x (a+n) with hlow | hhigh
  · rw [blit_other _ _ _ _ _ (Or.inl hlow)]
    by_cases hin : a ≤ x ∧ x < a+n
    · rw [blit, blit, if_pos hin, if_pos (by omega)]
    · rw [blit, blit, if_neg hin, if_neg (by omega)]
  · by_cases hin : a+n ≤ x ∧ x < a+n+n'
    · have hsub : n+(x-(a+n)) = x-a := by omega
      rw [blit, if_pos hin, blit, if_pos (by omega), hsub]
    · rw [blit_other _ _ _ _ _ (by omega), blit_other _ _ _ _ _ (by omega),
        blit_other _ _ _ _ _ (by omega)]

theorem load_zero (m : Memory) (a n : ℕ) (h : ∀ k < n, m (a+k) = 0) :
    loadLE m a n = 0 := by
  induction n generalizing a with
  | zero => rfl
  | succ n ih =>
    have hhead : m a = 0 := h 0 (by omega)
    have htail := ih (a+1) fun k hk => by
      simpa [add_assoc, add_comm 1] using h (k+1) (by omega)
    simp [loadLE, hhead, htail]

theorem load64_fill_zero (m : Memory) (a n b : ℕ) (hb : a ≤ b) (hn : b+8 ≤ a+n) :
    load64 (fill m a 0 n) b = 0 := by
  apply load_zero
  intro k hk
  have hin : a ≤ b+k ∧ b+k < a+n := by omega
  simp [fill, hin]

-- from here on a word is known by the lemmas above, never by its bytes
attribute [irreducible] load64 store64

end WeensyOS.FlatMemory
