import Mathlib.Order.Basic
import WeensyOS.Boot
import WeensyOS.Printer

/-!
# Command lines

`strcmp` and `strchr` on the bytes of memory, and how `kernel` picks the
programs to start by comparing its command line with two literals.
-/

set_option autoImplicit false

namespace WeensyOS.CommandLines
open WeensyOS.FlatMemory WeensyOS.KernelState WeensyOS.Printer WeensyOS.Boot

section Source

variable (m : Memory)

/-- `(x > y) - (x < y)` -/
def byte_sign (x y : UInt8) : ℤ := (if y < x then 1 else 0)-(if x < y then 1 else 0)

/-- With `n` turns of the loop to go. -/
def strcmp (a b : ℕ) : ℕ → Option ℤ
  | 0 => none
  | n+1 =>
    if m a ≠ 0 ∧ m b ≠ 0 ∧ m a = m b then strcmp ((a+1) % 2^64) ((b+1) % 2^64) n
    else some (byte_sign (m a) (m b))

/-- With `n` turns of the loop to go. -/
def strchr (s : ℕ) (c : ℤ) : ℕ → Option ℕ
  | 0 => none
  | n+1 =>
    if m s ≠ 0 ∧ m s ≠ UInt8.ofInt c then strchr ((s+1) % 2^64) c n
    else some (if m s = UInt8.ofInt c then s else NULL)

/-- `command && strcmp(command, literal) == 0` -/
def is_command (command literal n : ℕ) : Option Bool :=
  if command = NULL then some false else (strcmp m command literal n).map fun r => r = 0

/-- The choice of `kernel`, with the literals at `fork` and `forkexit`. -/
def command_programs (fork forkexit command n : ℕ) : Option (List (ℕ × ℕ)) := do
  if ← is_command m command fork n then some [(1,4)]
  else if ← is_command m command forkexit n then some [(1,5)]
  else some [(1,0),(2,1),(3,2),(4,3)]

/-- `"fork"` -/
def fork_literal : List UInt8 := ['f','o','r','k'].map ascii

/-- `"forkexit"` -/
def forkexit_literal : List UInt8 := ['f','o','r','k','e','x','i','t'].map ascii

end Source

section Strings

variable {m : Memory} {a b n : ℕ} {c d : UInt8} {s t : List UInt8}

/-- The string `s` stands at `a`, with its NUL. -/
def CString (m : Memory) : ℕ → List UInt8 → Prop
  | a, [] => m a = 0
  | a, c :: s => m a = c ∧ c ≠ 0 ∧ CString m ((a+1) % 2^64) s

/-- The byte at the start of a string is its first character or the NUL. -/
theorem CString.first (A : CString m a s) : m a = s.headD 0 := by
  cases s with
  | nil => exact A
  | cons c s => exact A.1

/-- The sign of a comparison. -/
def sign (s t : List UInt8) : ℤ := if s < t then -1 else if t < s then 1 else 0

theorem sign_cons (c : UInt8) (s t : List UInt8) : sign (c :: s) (c :: t) = sign s t := by
  simp only [sign, List.cons_lt_cons_iff, UInt8.lt_irrefl, false_or, true_and]

theorem byte_sign_lt (h : c < d) : byte_sign c d = -1 := by
  rw [byte_sign, if_neg (UInt8.lt_asymm h), if_pos h]
  rfl

theorem byte_sign_gt (h : d < c) : byte_sign c d = 1 := by
  rw [byte_sign, if_pos h, if_neg (UInt8.lt_asymm h)]
  rfl

/-- Where the first bytes differ or a string ends, they decide. -/
theorem sign_first (hs : 0 ∉ s) (ht : 0 ∉ t)
    (h : ¬(s.headD 0 ≠ 0 ∧ t.headD 0 ≠ 0 ∧ s.headD 0 = t.headD 0)) :
    byte_sign (s.headD 0) (t.headD 0) = sign s t := by
  have hpos : ∀ {c : UInt8} {l : List UInt8}, 0 ∉ c :: l → 0 < c := fun h =>
    UInt8.pos_iff_ne_zero.2 fun hc => h (hc ▸ List.mem_cons_self)
  cases s with
  | nil =>
    cases t with
    | nil => rfl
    | cons d t => exact (byte_sign_lt (hpos ht)).trans (if_pos (List.nil_lt_cons d t)).symm
  | cons c s =>
    have hc := hpos hs
    cases t with
    | nil =>
      rw [sign, if_neg (List.not_lt_nil _), if_pos (List.nil_lt_cons c s)]
      exact byte_sign_gt hc
    | cons d t =>
      have hd := hpos ht
      have hne : c ≠ d := fun heq =>
        h ⟨UInt8.pos_iff_ne_zero.1 hc,UInt8.pos_iff_ne_zero.1 hd,heq⟩
      change byte_sign c d = _
      rw [sign]
      simp only [List.cons_lt_cons_iff, hne, hne.symm, false_and, or_false]
      by_cases hlt : c < d
      · rw [if_pos hlt, byte_sign_lt hlt]
      · have hgt : d < c := UInt8.lt_of_le_of_ne (UInt8.not_lt.1 hlt) hne.symm
        rw [if_neg hlt, if_pos hgt, byte_sign_gt hgt]

/-- The loop ends at the first difference or at the end of the shorter string. -/
theorem strcmp_sign (hs : 0 ∉ s) (ht : 0 ∉ t) (A : CString m a s) (B : CString m b t)
    (hn : min s.length t.length < n) : strcmp m a b n = some (sign s t) := by
  induction s generalizing t a b n with
  | nil =>
    cases n with
    | zero => exact absurd hn (Nat.not_lt_zero _)
    | succ n =>
      have hstop : ¬(m a ≠ 0 ∧ m b ≠ 0 ∧ m a = m b) := fun h => h.1 A
      rw [A.first, B.first] at hstop
      rw [strcmp, A.first, B.first, if_neg hstop, sign_first hs ht hstop]
  | cons c s ih =>
    cases n with
    | zero => exact absurd hn (Nat.not_lt_zero _)
    | succ n =>
      by_cases hgo : m a ≠ 0 ∧ m b ≠ 0 ∧ m a = m b
      · rw [strcmp, if_pos hgo]
        cases t with
        | nil => exact absurd B hgo.2.1
        | cons d t =>
          obtain ⟨hc,-,A'⟩ := A
          obtain ⟨hd,-,B'⟩ := B
          have heq : c = d := hc.symm.trans (hgo.2.2.trans hd)
          subst heq
          rw [sign_cons]
          refine ih (fun h => hs (List.mem_cons_of_mem _ h)) (fun h => ht (List.mem_cons_of_mem _ h))
            A' B' ?_
          rw [List.length_cons, List.length_cons] at hn
          omega
      · rw [strcmp, if_neg hgo]
        rw [A.first, B.first] at hgo ⊢
        rw [sign_first hs ht hgo]

theorem CString.clean (A : CString m a s) : 0 ∉ s := by
  induction s generalizing a with
  | nil => exact List.not_mem_nil
  | cons c s ih =>
    obtain ⟨-,hc,A'⟩ := A
    rw [List.mem_cons, not_or]
    exact ⟨hc.symm,ih A'⟩

theorem sign_cases (s t : List UInt8) :
    (sign s t = -1 ↔ s < t) ∧ (sign s t = 0 ↔ s = t) ∧ (sign s t = 1 ↔ t < s) := by
  rw [sign]
  by_cases hlt : s < t
  · have hgt : ¬t < s := List.lt_asymm hlt
    have hne : s ≠ t := fun h => List.lt_irrefl t (h ▸ hlt)
    simp only [hlt, hgt, hne, if_true]
    decide
  · by_cases hgt : t < s
    · have hne : s ≠ t := fun h => List.lt_irrefl t (h ▸ hgt)
      simp only [hlt, hgt, hne, if_true, if_false]
      decide
    · have heq : s = t := List.le_antisymm hgt hlt
      simp only [heq, List.lt_irrefl, if_false]
      decide

/-- The place of a character, where the NUL counts as the last one. -/
theorem strchr_index {c : ℤ} (A : CString m a s) (ha : a < 2^64) (hn : s.length < n) :
    strchr m a c n = some (if UInt8.ofInt c ∈ s++[0]
      then (a+(s++[0]).idxOf (UInt8.ofInt c)) % 2^64 else NULL) := by
  induction s generalizing a n with
  | nil =>
    cases n with
    | zero => exact absurd hn (Nat.not_lt_zero _)
    | succ n =>
      have hzero : m a = 0 := A
      rw [strchr, if_neg fun h => h.1 hzero, hzero, List.nil_append]
      by_cases hc : UInt8.ofInt c = 0
      · rw [if_pos hc.symm, hc, if_pos (List.mem_singleton.2 rfl), List.idxOf_cons_self, Nat.add_zero,
          Nat.mod_eq_of_lt ha]
      · rw [if_neg (Ne.symm hc), if_neg fun h => hc (List.mem_singleton.1 h)]
  | cons d s ih =>
    cases n with
    | zero => exact absurd hn (Nat.not_lt_zero _)
    | succ n =>
      obtain ⟨hd,hpos,A'⟩ := A
      rw [List.length_cons, Nat.add_lt_add_iff_right] at hn
      rw [strchr, hd, List.cons_append]
      by_cases hc : d = UInt8.ofInt c
      · rw [if_neg fun h => h.2 hc, if_pos hc, ← hc, if_pos List.mem_cons_self,
          List.idxOf_cons_self, Nat.add_zero, Nat.mod_eq_of_lt ha]
      · rw [if_pos ⟨hpos,hc⟩, ih A' (Nat.mod_lt _ (by norm_num)) hn]
        have hmem : UInt8.ofInt c ∈ d :: (s++[0]) ↔ UInt8.ofInt c ∈ s++[0] := by
          rw [List.mem_cons, or_iff_right (Ne.symm hc)]
        by_cases hin : UInt8.ofInt c ∈ s++[0]
        · rw [if_pos hin, if_pos (hmem.2 hin), List.idxOf_cons_ne _ hc, Nat.mod_add_mod]
          congr 2
          omega
        · rw [if_neg hin, if_neg fun h => hin (hmem.1 h)]

end Strings

section Results

variable {m : Memory} {a b n : ℕ} {s t : List UInt8}

/-- `strcmp` decides the lexicographic order of unsigned bytes, and `strchr` finds the first place
of a character; both come to an end with the strings. -/
theorem string_functions (A : CString m a s) (B : CString m b t) (ha : a < 2^64) (c : ℤ) :
    (∃ v, (∀ n, min s.length t.length < n → strcmp m a b n = some v) ∧
      (v = -1 ↔ s < t) ∧ (v = 0 ↔ s = t) ∧ (v = 1 ↔ t < s)) ∧
    ∀ n, s.length < n → strchr m a c n = some (if UInt8.ofInt c ∈ s++[0]
      then (a+(s++[0]).idxOf (UInt8.ofInt c)) % 2^64 else NULL) :=
  ⟨⟨sign s t,fun _ hn => strcmp_sign A.clean B.clean A B hn,sign_cases s t⟩,
    fun _ hn => strchr_index A ha hn⟩

/-- The two literals, one behind the other. -/
def sampleText : Memory := fun x => (fork_literal++0 :: forkexit_literal++[0]).getD (x-100) 0

theorem sample_strings : CString sampleText 100 fork_literal ∧
    CString sampleText 105 forkexit_literal := by
  simp only [CString, fork_literal, forkexit_literal, List.map_cons, List.map_nil]
  decide +kernel

/-- A prefix is the lesser string. -/
theorem fork_before_forkexit : strcmp sampleText 100 105 5 = some (-1) ∧
    strchr sampleText 100 114 5 = some 102 := by
  obtain ⟨⟨v,hv,hless,-⟩,hchr⟩ :=
    string_functions sample_strings.1 sample_strings.2 (by decide) 114
  have hlt : fork_literal < forkexit_literal := by decide +kernel
  have hfork : fork_literal.length < 5 := by decide +kernel
  refine ⟨?_,(hchr 5 hfork).trans (by decide +kernel)⟩
  rw [hv 5 ((Nat.min_le_left _ _).trans_lt hfork), hless.2 hlt]

/-- The bytes of a command line as a string. -/
def commandText (s : List UInt8) : String := String.ofList (s.map fun c => Char.ofNat c.toNat)

theorem commandText_inj (h : commandText s = commandText t) : s = t := by
  have hchar : ∀ c d : UInt8, Char.ofNat c.toNat = Char.ofNat d.toNat → c = d := by
    intro c d hcd
    have hvalid : ∀ c : UInt8, (Char.ofNat c.toNat).toNat = c.toNat := fun c => by
      have hlt := c.toNat_lt
      rw [Char.toNat_ofNat, if_pos (Or.inl (by omega))]
    rw [← UInt8.toNat_inj, ← hvalid c, ← hvalid d, hcd]
  exact List.map_injective_iff.2 (fun c d => hchar c d) (String.ofList_injective h)

theorem is_command_ok {literal command : ℕ} (C : CString m command s) (L : CString m literal t)
    (hne : command ≠ NULL) (hn : t.length < n) :
    is_command m command literal n = some (decide (s = t)) := by
  have hmin : min s.length t.length < n := (Nat.min_le_right _ _).trans_lt hn
  rw [is_command, if_neg hne, strcmp_sign C.clean L.clean C L hmin, Option.map_some]
  simp only [(sign_cases s t).2.1]

/-- `kernel` starts the programs of its command line, for a command line of any length. -/
theorem programs_by_command {fork forkexit command : ℕ} {line : Option (List UInt8)}
    (F : CString m fork fork_literal) (X : CString m forkexit forkexit_literal)
    (C : match line with
      | some s => command ≠ NULL ∧ CString m command s
      | none => command = NULL) (hn : 8 < n) :
    command_programs m fork forkexit command n = some (boot_programs (line.map commandText)) := by
  have hnames : commandText fork_literal = "fork" ∧ commandText forkexit_literal = "forkexit" := by
    decide +kernel
  have hlengths : fork_literal.length = 4 ∧ forkexit_literal.length = 8 := by decide +kernel
  cases line with
  | none =>
    have hnull : command = NULL := C
    have hno : ∀ literal, is_command m command literal n = some false := fun _ => if_pos hnull
    rw [command_programs, hno, hno]
    rfl
  | some s =>
    obtain ⟨hne,C⟩ := C
    have hiff : ∀ literal : List UInt8,
        some (commandText s) = some (commandText literal) ↔ s = literal := fun literal =>
      ⟨fun h => commandText_inj (Option.some.inj h),fun h => by rw [h]⟩
    rw [command_programs, is_command_ok C F hne (by rw [hlengths.1]; omega),
      is_command_ok C X hne (by rw [hlengths.2]; exact hn),
      boot_programs, Option.map_some, ← hnames.1, ← hnames.2]
    simp only [hiff, Option.bind_eq_bind, Option.bind_some, decide_eq_true_eq]
    split_ifs <;> rfl

end Results

end WeensyOS.CommandLines
