import Mathlib.Data.Nat.Digits.Defs
import Mathlib.Data.Nat.Digits.Lemmas
import Mathlib.Tactic

/-!
# Cursors in NUL-terminated text

A text is the list of its characters before the NUL. A cursor is an index into
it; reading behind the NUL is an error. Numerals are the base-`b` digits of a
number, most significant first.
-/

set_option autoImplicit false

namespace WeensyOS.TextCursors

/-- Characters that end at the first NUL. -/
abbrev Text := {l : List UInt8 // 0 ∉ l}

section Cursors

variable {ε : Type} {e : ε} {f rest : List UInt8} {i : ℕ} {c : UInt8}

/-- The character under a cursor. -/
def peek (e : ε) (f : List UInt8) (i : ℕ) : Except ε UInt8 :=
  if h : i < f.length then .ok (f.get ⟨i,h⟩)
  else if i = f.length then .ok 0
  else .error e

/-- The cursor `i` stands before `rest`. -/
structure At (f : List UInt8) (i : ℕ) (rest : List UInt8) : Prop where
  bound : i ≤ f.length
  split : f.drop i = rest

theorem at_drop (h : i ≤ f.length) : At f i (f.drop i) := ⟨h,rfl⟩

theorem At.length (A : At f i rest) : i+rest.length = f.length := by
  have hb := A.bound
  rw [← A.split, List.length_drop]
  omega

theorem At.next (A : At f i (c :: rest)) : At f (i+1) rest := by
  have hlen := A.length
  rw [List.length_cons] at hlen
  refine ⟨by omega,?_⟩
  rw [← List.drop_drop, A.split, List.drop_one, List.tail_cons]

theorem At.skip {l : List UInt8} (A : At f i (l++rest)) : At f (i+l.length) rest := by
  induction l generalizing i with
  | nil => exact A
  | cons c l ih =>
    rw [List.length_cons, Nat.add_comm l.length, ← Nat.add_assoc]
    exact ih (At.next A)

theorem At.peek_cons (A : At f i (c :: rest)) : peek e f i = .ok c := by
  have hlen := A.length
  rw [List.length_cons] at hlen
  have hi : i < f.length := by omega
  have hget := A.split
  rw [List.drop_eq_getElem_cons hi, List.cons.injEq] at hget
  rw [peek, dif_pos hi, List.get_eq_getElem, hget.1]

theorem At.peek_nil (A : At f i []) : peek e f i = .ok 0 := by
  have hlen := A.length
  rw [List.length_nil] at hlen
  rw [peek, dif_neg (by omega), if_pos (by omega)]

/-- Only a cursor behind the NUL cannot be read. -/
theorem peek_ok (h : i ≤ f.length) : ∃ c, peek e f i = .ok c := by
  rcases hrest : f.drop i with _ | ⟨c,rest⟩
  · exact ⟨0,At.peek_nil ⟨h,hrest⟩⟩
  · exact ⟨c,At.peek_cons ⟨h,hrest⟩⟩

theorem peek_lt (h : peek e f i = .ok c) (hc : c ≠ 0) : i < f.length := by
  rw [peek] at h
  split at h
  · assumption
  · split at h
    · cases h
      exact absurd rfl hc
    · cases h

end Cursors

section Numerals

/-- The digits of `v` in base `b`, with one zero for zero. -/
def numeral (digit : ℕ → UInt8) (b v : ℕ) : List UInt8 :=
  if v = 0 then [digit 0] else ((Nat.digits b v).reverse).map digit

variable {digit : ℕ → UInt8} {b v n : ℕ}

theorem numeral_small (h : v < b) : numeral digit b v = [digit v] := by
  rw [numeral]
  split_ifs with hv
  · rw [hv]
  · rw [Nat.digits_of_lt b v hv h]
    rfl

theorem numeral_step (hb : 1 < b) (h : b ≤ v) :
    numeral digit b v = numeral digit b (v/b)++[digit (v % b)] := by
  have hv : v ≠ 0 := by omega
  have hq : v/b ≠ 0 := by
    have hpos := Nat.div_pos h (by omega)
    omega
  rw [numeral, numeral, if_neg hv, if_neg hq, Nat.digits_def' hb (by omega), List.reverse_cons,
    List.map_append]
  rfl

/-- The numeral of a number below `b^n` has at most `n` digits. -/
theorem numeral_length (digit : ℕ → UInt8) (hb : 1 < b) (hn : 0 < n) (h : v < b^n) :
    (numeral digit b v).length ≤ n := by
  rw [numeral]
  split_ifs with hv
  · exact hn
  · rw [List.length_map, List.length_reverse]
    exact (Nat.digits_length_le_iff hb v).2 h

theorem numeral_mem (hb : 1 < b) {c : UInt8} (h : c ∈ numeral digit b v) :
    ∃ d < b, c = digit d := by
  rw [numeral] at h
  split_ifs at h with hv
  · exact ⟨0,by omega,List.mem_singleton.1 h⟩
  · obtain ⟨d,hd,rfl⟩ := List.mem_map.1 h
    exact ⟨d,Nat.digits_lt_base hb (List.mem_reverse.1 hd),rfl⟩

theorem numeral_congr {digit' : ℕ → UInt8} (hb : 1 < b) (h : ∀ d < b, digit d = digit' d) (v : ℕ) :
    numeral digit b v = numeral digit' b v := by
  rw [numeral, numeral, h 0 (by omega)]
  congr 1
  apply List.map_congr_left
  intro d hd
  exact h d (Nat.digits_lt_base hb (List.mem_reverse.1 hd))

/-- A numeral starts with a zero only when it is the one of zero. -/
theorem numeral_head (digit : ℕ → UInt8) (hb : 1 < b) (hv : v ≠ 0) :
    ∃ d rest, numeral digit b v = digit d :: rest ∧
    0 < d ∧ d < b := by
  induction v using Nat.strong_induction_on with
  | _ v ih =>
    by_cases h : v < b
    · exact ⟨v,[],numeral_small h,Nat.pos_of_ne_zero hv,h⟩
    · have hq : v/b ≠ 0 := (Nat.div_pos (by omega) (by omega)).ne'
      obtain ⟨d,rest,hd,hpos,hlt⟩ := ih (v/b) (Nat.div_lt_self (Nat.pos_of_ne_zero hv) hb) hq
      exact ⟨d,rest++[digit (v % b)],by rw [numeral_step hb (by omega), hd]; rfl,hpos,hlt⟩

end Numerals

end WeensyOS.TextCursors
