import WeensyOS.FlatMemory

/-!
# The memory routines of lib.c

The byte loops of `memcpy`, `memmove` and `memset`. Each is shown equal to a
block operation of the flat memory. A forward copy is exact unless it starts
inside its source, and `memmove` then copies downwards.
-/

set_option autoImplicit false

namespace WeensyOS.LibC
open WeensyOS.FlatMemory

def memcpy (m : Memory) (dst src : ℕ) : ℕ → Memory
  | 0 => m
  | n+1 => memcpy (Function.update m dst (m src)) (dst+1) (src+1) n

/-- `*--d = *--s` -/
def memmove_down (m : Memory) (d s : ℕ) : ℕ → Memory
  | 0 => m
  | n+1 =>
    let s' := (s+2^64-1) % 2^64
    let d' := (d+2^64-1) % 2^64
    memmove_down (Function.update m d' (m s')) d' s' n

/-- `*d++ = *s++` -/
def memmove_up (m : Memory) (d s : ℕ) : ℕ → Memory
  | 0 => m
  | n+1 => memmove_up (Function.update m d (m s)) ((d+1) % 2^64) ((s+1) % 2^64) n

def memmove (m : Memory) (dst src n : ℕ) : Memory :=
  if src < dst ∧ (src+n) % 2^64 > dst then
    memmove_down m ((dst+n) % 2^64) ((src+n) % 2^64) n
  else
    memmove_up m dst src n

def memset (m : Memory) (v : ℕ) (c : UInt8) : ℕ → Memory
  | 0 => m
  | n+1 => memset (Function.update m v c) (v+1) c n

theorem memset_fill (m : Memory) (v : ℕ) (c : UInt8) (n : ℕ) :
    memset m v c n = fill m v c n := by
  induction n generalizing m v with
  | zero => funext x; simp [memset, fill]
  | succ n ih =>
    rw [memset, ih]
    funext x
    by_cases hx : x = v
    · subst hx
      simp [fill]
    · have hrange : (v+1 ≤ x ∧ x < v+1+n) ↔ (v ≤ x ∧ x < v+(n+1)) := by omega
      simp only [fill, hrange, Function.update_of_ne hx]

/-- The forward copy reads no byte it has written unless it starts inside the source. -/
theorem memcpy_copy (m : Memory) (dst src n : ℕ) (h : dst ≤ src ∨ src+n ≤ dst) :
    memcpy m dst src n = copy m dst src n := by
  induction n generalizing m dst src with
  | zero => rw [memcpy, copy_nothing]
  | succ n ih =>
    rw [memcpy, ih _ _ _ (by omega)]
    exact copy_lowest m dst src n (by omega)

section Memmove

variable {m : Memory} {dst src n : ℕ}

/-- A region may end at the top of the address space; the pointer behind it is then 0. -/
theorem memmove_up_memcpy (hd : dst+n ≤ 2^64) (hs : src+n ≤ 2^64) :
    memmove_up m (dst % 2^64) (src % 2^64) n = memcpy m dst src n := by
  induction n generalizing m dst src with
  | zero => rfl
  | succ n ih =>
    rw [memmove_up, memcpy, Nat.mod_add_mod, Nat.mod_add_mod,
      @ih _ (dst+1) (src+1) (by omega) (by omega)]
    rw [Nat.mod_eq_of_lt (by omega : dst < 2^64), Nat.mod_eq_of_lt (by omega : src < 2^64)]

theorem pointer_below {a : ℕ} (h : a+(n+1) ≤ 2^64) :
    ((a+(n+1)) % 2^64+2^64-1) % 2^64 = a+n := by
  omega

theorem memmove_down_copy (hd : dst+n ≤ 2^64) (hs : src+n ≤ 2^64) (h : src ≤ dst) :
    memmove_down m ((dst+n) % 2^64) ((src+n) % 2^64) n = copy m dst src n := by
  induction n generalizing m with
  | zero => rw [memmove_down, copy_nothing]
  | succ n ih =>
    rw [← copy_highest m dst src n (Or.inl h), ← ih (by omega) (by omega)]
    rw [memmove_down, pointer_below hd, pointer_below hs]
    rw [Nat.mod_eq_of_lt (by omega : dst+n < 2^64), Nat.mod_eq_of_lt (by omega : src+n < 2^64)]

/-- The test picks the direction in which no unread byte is overwritten. -/
theorem memmove_copy (hd : dst+n ≤ 2^64) (hs : src+n ≤ 2^64) :
    memmove m dst src n = copy m dst src n := by
  rw [memmove]
  split
  · rename_i hdown
    exact memmove_down_copy hd hs (by omega)
  · rename_i hup
    by_cases hn : n = 0
    · subst hn
      rw [memmove_up, copy_nothing]
    · have hmove := memmove_up_memcpy (m := m) hd hs
      rw [Nat.mod_eq_of_lt (by omega : dst < 2^64), Nat.mod_eq_of_lt (by omega : src < 2^64)]
        at hmove
      rw [hmove]
      apply memcpy_copy
      omega

/-- However the two regions overlap, the bytes of the source arrive. -/
theorem memmove_exact (m : Memory) (dst src n : ℕ) (hd : dst+n ≤ 2^64) (hs : src+n ≤ 2^64) :
    (∀ i < n, memmove m dst src n (dst+i) = m (src+i)) ∧
    (∀ x, x < dst ∨ dst+n ≤ x → memmove m dst src n x = m x) ∧
    ((dst+n ≤ src ∨ src+n ≤ dst) ∨ dst ≤ src → memcpy m dst src n = memmove m dst src n) := by
  rw [memmove_copy hd hs]
  refine ⟨fun i hi => copy_here m dst src n i hi,fun x hx => copy_outside m dst src n x hx,
    fun hsafe => ?_⟩
  apply memcpy_copy
  omega

end Memmove

/-- Two bytes moved up by one. -/
theorem moved_up : memmove UInt8.ofNat 1 0 2 1 = 0 ∧ memmove UInt8.ofNat 1 0 2 2 = 1 ∧
    memmove UInt8.ofNat 1 0 2 3 = 3 := by
  obtain ⟨hin,hout,-⟩ := memmove_exact UInt8.ofNat 1 0 2 (by decide) (by decide)
  exact ⟨hin 0 two_pos,hin 1 one_lt_two,hout 3 (Or.inr (by decide))⟩

-- the loops are never run over a page: a comparison of two states must not unfold them
attribute [irreducible] memcpy memmove memset

end WeensyOS.LibC
