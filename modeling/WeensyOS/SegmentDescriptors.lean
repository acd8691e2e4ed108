import WeensyOS.PackedWords
import WeensyOS.ExceptionEntry

/-!
# Segment and gate descriptors

The two words that `set_sys_segment` and `set_gate` write, and the layout by
which the processor reads them. A gate keeps every bit of its handler. A
segment loses bits 16 to 19 of its limit: their shift leaves the word.
-/

set_option autoImplicit false

namespace WeensyOS.SegmentDescriptors
open WeensyOS.PackedWords

section Encoders

abbrev SEGSEL_KERN_CODE : UInt64 := 0x8

abbrev X86SEG_P : UInt64 := (1 : UInt64) <<< 47
abbrev X86SEG_TSS : UInt64 := (0x9 : UInt64) <<< 40
abbrev X86GATE_INTERRUPT : UInt64 := (0xE : UInt64) <<< 40

/-- `segment[0]` and `segment[1]` -/
def set_sys_segment (type : UInt64) (dpl : ℤ) (addr size : UInt64) : UInt64 × UInt64 :=
  (((addr &&& 0x0000000000FFFFFF) <<< (16 : UInt64))
    ||| ((addr &&& 0x00000000FF000000) <<< (32 : UInt64))
    ||| ((size-1) &&& (0x0FFFF : UInt64))
    ||| (((size-1) &&& (0xF0000 : UInt64)) <<< (48 : UInt64))
    ||| type
    ||| (UInt64.ofInt dpl <<< (45 : UInt64))
    ||| X86SEG_P,
   addr >>> 32)

/-- `gd_low` and `gd_high` -/
def set_gate (type : UInt64) (dpl : ℤ) (function : UInt64) : UInt64 × UInt64 :=
  ((function &&& 0x000000000000FFFF)
    ||| (SEGSEL_KERN_CODE <<< (16 : UInt64))
    ||| type
    ||| (UInt64.ofInt dpl <<< (45 : UInt64))
    ||| X86SEG_P
    ||| ((function &&& 0x00000000FFFF0000) <<< (32 : UInt64)),
   function >>> 32)

end Encoders

section Layouts

/-- A system descriptor as the processor reads it. -/
structure SystemDescriptor where
  base : ℕ
  limit : ℕ
  type : ℕ
  dpl : ℕ
  present : ℕ
deriving DecidableEq

def systemDescriptor (d : UInt64 × UInt64) : SystemDescriptor where
  base := slice d.1.toNat 16 24+2^24*slice d.1.toNat 56 8+2^32*slice d.2.toNat 0 32
  limit := slice d.1.toNat 0 16+2^16*slice d.1.toNat 48 4
  type := slice d.1.toNat 40 4
  dpl := slice d.1.toNat 45 2
  present := slice d.1.toNat 47 1

structure GateDescriptor where
  offset : ℕ
  selector : ℕ
  type : ℕ
  dpl : ℕ
  present : ℕ
deriving DecidableEq

def gateDescriptor (d : UInt64 × UInt64) : GateDescriptor where
  offset := slice d.1.toNat 0 16+2^16*slice d.1.toNat 48 16+2^32*slice d.2.toNat 0 32
  selector := slice d.1.toNat 16 16
  type := slice d.1.toNat 40 4
  dpl := slice d.1.toNat 45 2
  present := slice d.1.toNat 47 1

end Layouts

section Words

variable {type addr size function : UInt64} {dpl : ℤ}

theorem dpl_toNat (h : 0 ≤ dpl ∧ dpl ≤ 3) : (UInt64.ofInt dpl).toNat = dpl.toNat := by
  obtain ⟨h0,h3⟩ := h
  interval_cases dpl <;> rfl

theorem dpl_fits (h : 0 ≤ dpl ∧ dpl ≤ 3) : dpl.toNat < 2^2 := by
  omega

theorem type_word (h : type.toNat < 2^4) : (type <<< 40).toNat = type.toNat <<< 40 :=
  small_shift h rfl (by decide) (by decide)

theorem dpl_word (h : 0 ≤ dpl ∧ dpl ≤ 3) : (UInt64.ofInt dpl <<< 45).toNat = dpl.toNat <<< 45 := by
  have hfits : (UInt64.ofInt dpl).toNat < 2^2 := by
    rw [dpl_toNat h]
    exact dpl_fits h
  rw [← dpl_toNat h]
  exact small_shift hfits rfl (by decide) (by decide)

theorem present_word : X86SEG_P.toNat = 1 <<< 47 := rfl

/-- A field of a constant. -/
def const (width value : ℕ) (fits : value < 2^width) : Field := ⟨width,value,fits⟩

/-- The fields of a segment's low word. Nothing is at bits 48 to 51. -/
def segmentFields (addr size : UInt64) (type dpl : ℕ) (ht : type < 2^4) (hd : dpl < 2^2) :
    List Field :=
  [cut (size-1).toNat 0 16,cut addr.toNat 0 24,⟨4,type,ht⟩,const 1 0 (by decide),⟨2,dpl,hd⟩,
    const 1 1 (by decide),const 4 0 (by decide),const 4 0 (by decide),cut addr.toNat 24 8]

def gateFields (function : UInt64) (type dpl : ℕ) (ht : type < 2^4) (hd : dpl < 2^2) :
    List Field :=
  [cut function.toNat 0 16,const 16 8 (by decide),const 8 0 (by decide),⟨4,type,ht⟩,
    const 1 0 (by decide),⟨2,dpl,hd⟩,const 1 1 (by decide),cut function.toNat 16 16]

-- the order of the source against the order of the bits
theorem segment_order (a b c d e f : ℕ) :
    a ||| b ||| c ||| d ||| e ||| f = c ||| (a ||| (d ||| (e ||| (f ||| b)))) := by
  ac_rfl

theorem segment_word (ht : type.toNat < 2^4) (hd : 0 ≤ dpl ∧ dpl ≤ 3) :
    (set_sys_segment (type <<< 40) dpl addr size).1.toNat =
      pack (segmentFields addr size type.toNat dpl.toNat ht (dpl_fits hd)) := by
  have hbase : ((addr &&& 0x0000000000FFFFFF) <<< 16).toNat = slice addr.toNat 0 24 <<< 16 :=
    masked_shift rfl rfl (by decide) (by decide)
  have hhigh : ((addr &&& 0x00000000FF000000) <<< 32).toNat = slice addr.toNat 24 8 <<< 56 :=
    masked_shift rfl rfl (by decide) (by decide)
  have hlimit : ((size-1) &&& 0x0FFFF).toNat = slice (size-1).toNat 0 16 <<< 0 := masked rfl
  -- 16 + 48 is the width of the word
  have hlost : (((size-1) &&& 0xF0000) <<< 48).toNat = 0 :=
    masked_shift_out (a := 16) (l := 4) rfl (by decide) (by decide)
  rw [set_sys_segment]
  simp only [UInt64.toNat_or]
  rw [hbase, hhigh, hlimit, hlost, type_word ht, dpl_word hd, present_word]
  simp only [segmentFields, pack, cut, const, Nat.shiftLeft_or_distrib, ← Nat.shiftLeft_add,
    Nat.zero_shiftLeft, Nat.zero_or, Nat.or_zero, Nat.shiftLeft_zero, Nat.reduceAdd]
  exact segment_order _ _ _ _ _ _

theorem gate_word (ht : type.toNat < 2^4) (hd : 0 ≤ dpl ∧ dpl ≤ 3) :
    (set_gate (type <<< 40) dpl function).1.toNat =
      pack (gateFields function type.toNat dpl.toNat ht (dpl_fits hd)) := by
  have hlow : (function &&& 0x000000000000FFFF).toNat = slice function.toNat 0 16 <<< 0 :=
    masked rfl
  have hhigh : ((function &&& 0x00000000FFFF0000) <<< 32).toNat =
      slice function.toNat 16 16 <<< 48 := masked_shift rfl rfl (by decide) (by decide)
  have hselector : (SEGSEL_KERN_CODE <<< 16).toNat = 8 <<< 16 := rfl
  rw [set_gate]
  simp only [UInt64.toNat_or]
  rw [hlow, hhigh, hselector, type_word ht, dpl_word hd, present_word]
  simp only [gateFields, pack, cut, const, Nat.shiftLeft_or_distrib, ← Nat.shiftLeft_add,
    Nat.zero_shiftLeft, Nat.zero_or, Nat.or_zero, Nat.shiftLeft_zero, Nat.reduceAdd, Nat.or_assoc]

end Words

section Reading

variable {type addr size function : UInt64} {dpl : ℤ}

/-- The processor reads a limit of 16 bits. -/
theorem segment_read (ht : type.toNat < 2^4) (hd : 0 ≤ dpl ∧ dpl ≤ 3) :
    systemDescriptor (set_sys_segment (type <<< 40) dpl addr size) =
      ⟨addr.toNat,slice (size-1).toNat 0 16,type.toNat,dpl.toNat,1⟩ := by
  have hread := slice_pack (segmentFields addr size type.toNat dpl.toNat ht (dpl_fits hd))
  rw [← segment_word ht hd] at hread
  have hlength : (segmentFields addr size type.toNat dpl.toNat ht (dpl_fits hd)).length = 9 := rfl
  have htop : slice (set_sys_segment (type <<< 40) dpl addr size).2.toNat 0 32 =
      slice addr.toNat 32 32 := by
    rw [set_sys_segment, high_word, slice_whole (slice_lt _ _ _)]
  generalize set_sys_segment (type <<< 40) dpl addr size = d at hread htop
  have hlimit : slice d.1.toNat 0 16 = slice (size-1).toNat 0 16 := hread 0 (by omega)
  have hlow : slice d.1.toNat 16 24 = slice addr.toNat 0 24 := hread 1 (by omega)
  have htype : slice d.1.toNat 40 4 = type.toNat := hread 2 (by omega)
  have hring : slice d.1.toNat 45 2 = dpl.toNat := hread 4 (by omega)
  have hpresent : slice d.1.toNat 47 1 = 1 := hread 5 (by omega)
  have hnone : slice d.1.toNat 48 4 = 0 := hread 6 (by omega)
  have hmiddle : slice d.1.toNat 56 8 = slice addr.toNat 24 8 := hread 8 (by omega)
  have hbase : slice addr.toNat 0 24+2^24*slice addr.toNat 24 8+2^32*slice addr.toNat 32 32 =
      addr.toNat := slice_thirds (a := 24) (b := 8) (c := 32) addr.toNat_lt
  rw [systemDescriptor, hlimit, hlow, htype, hring, hpresent, hnone, hmiddle, htop, hbase,
    Nat.mul_zero, Nat.add_zero]

theorem gate_read (ht : type.toNat < 2^4) (hd : 0 ≤ dpl ∧ dpl ≤ 3) :
    gateDescriptor (set_gate (type <<< 40) dpl function) =
      ⟨function.toNat,SEGSEL_KERN_CODE.toNat,type.toNat,dpl.toNat,1⟩ := by
  have hread := slice_pack (gateFields function type.toNat dpl.toNat ht (dpl_fits hd))
  rw [← gate_word ht hd] at hread
  have hlength : (gateFields function type.toNat dpl.toNat ht (dpl_fits hd)).length = 8 := rfl
  have htop : slice (set_gate (type <<< 40) dpl function).2.toNat 0 32 =
      slice function.toNat 32 32 := by
    rw [set_gate, high_word, slice_whole (slice_lt _ _ _)]
  generalize set_gate (type <<< 40) dpl function = d at hread htop
  have hlow : slice d.1.toNat 0 16 = slice function.toNat 0 16 := hread 0 (by omega)
  have hselector : slice d.1.toNat 16 16 = SEGSEL_KERN_CODE.toNat := hread 1 (by omega)
  have htype : slice d.1.toNat 40 4 = type.toNat := hread 3 (by omega)
  have hring : slice d.1.toNat 45 2 = dpl.toNat := hread 5 (by omega)
  have hpresent : slice d.1.toNat 47 1 = 1 := hread 6 (by omega)
  have hmiddle : slice d.1.toNat 48 16 = slice function.toNat 16 16 := hread 7 (by omega)
  have hfunction : slice function.toNat 0 16+2^16*slice function.toNat 16 16+
      2^32*slice function.toNat 32 32 = function.toNat :=
    slice_thirds (a := 16) (b := 16) (c := 32) function.toNat_lt
  rw [gateDescriptor, hlow, hselector, htype, hring, hpresent, hmiddle, htop, hfunction]

/-- The limit survives when it has 16 bits. -/
theorem limit_kept_iff (hsize : 1 ≤ size.toNat) :
    slice (size-1).toNat 0 16 = size.toNat-1 ↔ size.toNat ≤ 2^16 := by
  have hle : (1 : UInt64) ≤ size := UInt64.le_iff_toNat_le.2 hsize
  have hlimit : (size-1).toNat = size.toNat-1 := UInt64.toNat_sub_of_le _ _ hle
  rw [hlimit, slice, pow_zero, Nat.div_one]
  constructor
  · intro h
    have := Nat.mod_lt (size.toNat-1) (Nat.two_pow_pos 16)
    omega
  · intro h
    exact Nat.mod_eq_of_lt (by omega)

end Reading

/-- Decoding gives back what was encoded exactly for the sizes up to 2^16. -/
theorem descriptors_lossless_iff (segment_type gate_type addr size function : UInt64)
    (segment_dpl gate_dpl : ℤ) (hst : segment_type.toNat < 2^4) (hgt : gate_type.toNat < 2^4)
    (hsd : 0 ≤ segment_dpl ∧ segment_dpl ≤ 3) (hgd : 0 ≤ gate_dpl ∧ gate_dpl ≤ 3)
    (hsize : 1 ≤ size.toNat ∧ size.toNat ≤ 2^20) :
    (systemDescriptor (set_sys_segment (segment_type <<< 40) segment_dpl addr size) =
        ⟨addr.toNat,size.toNat-1,segment_type.toNat,segment_dpl.toNat,1⟩ ∧
      gateDescriptor (set_gate (gate_type <<< 40) gate_dpl function) =
        ⟨function.toNat,SEGSEL_KERN_CODE.toNat,gate_type.toNat,gate_dpl.toNat,1⟩) ↔
    size.toNat ≤ 2^16 := by
  rw [segment_read hst hsd, gate_read hgt hgd, ← limit_kept_iff hsize.1]
  constructor
  · intro h
    exact congrArg SystemDescriptor.limit h.1
  · intro h
    rw [h]
    exact ⟨rfl,rfl⟩

/-- The task segment of `segments_init` (its structure has 96 bytes) and a system call gate. -/
theorem task_segment_lossless :
    systemDescriptor (set_sys_segment X86SEG_TSS 0 0x50000 96) = ⟨0x50000,95,9,0,1⟩ ∧
      gateDescriptor (set_gate X86GATE_INTERRUPT 3 0x40ABC) = ⟨0x40ABC,8,14,3,1⟩ :=
  (descriptors_lossless_iff 9 14 0x50000 96 0x40ABC 0 3 (by decide) (by decide) (by decide)
    (by decide) (by decide)).2 (by decide)

/-- A segment of 2^16+1 bytes is described as one byte. -/
theorem wide_limit_lost : ¬∀ (addr size : UInt64) (dpl : ℤ), 1 ≤ size.toNat ∧ size.toNat ≤ 2^20 →
    0 ≤ dpl ∧ dpl ≤ 3 → systemDescriptor (set_sys_segment X86SEG_TSS dpl addr size) =
      ⟨addr.toNat,size.toNat-1,9,dpl.toNat,1⟩ := by
  intro h
  have hwide := congrArg SystemDescriptor.limit (h 0 0x10001 0 (by decide) (by decide))
  exact absurd hwide (by decide)

section Installed
open ExceptionEntry (Gate Instr Descriptors set_gates)

def Rings (idt : Descriptors) : Prop := ∀ v gate, idt v = some gate → gate.dpl ≤ 3

theorem set_gate_rings {idt : Descriptors} (h : Rings idt) {dpl : ℕ} (hd : dpl ≤ 3) (v : ℕ)
    (function : List Instr) : Rings (ExceptionEntry.set_gate idt v dpl function) := by
  intro u gate hu
  rw [ExceptionEntry.set_gate] at hu
  by_cases huv : u = v
  · subst huv
    rw [Function.update_self] at hu
    cases hu
    exact hd
  · rw [Function.update_of_ne huv] at hu
    exact h u gate hu

theorem set_gates_rings {dpl : ℕ} (hd : dpl ≤ 3) (function : ℕ → List Instr) (first n : ℕ)
    {idt : Descriptors} (h : Rings idt) : Rings (set_gates dpl function first n idt) := by
  induction n generalizing first idt with
  | zero => exact h
  | succ n ih => exact ih _ (set_gate_rings h hd _ _)

theorem segments_init_rings : Rings ExceptionEntry.segments_init := by
  apply set_gates_rings (by decide)
  apply set_gate_rings _ (by decide)
  apply set_gate_rings _ (by decide)
  apply set_gate_rings _ (by decide)
  apply set_gates_rings (by decide)
  intro v gate h
  cases h

/-- The two words of an installed gate, for handlers at the addresses `code`. -/
def gateWords (code : List Instr → UInt64) (gate : Gate) : UInt64 × UInt64 :=
  set_gate X86GATE_INTERRUPT gate.dpl (code gate.function)

/-- Every gate that `segments_init` installs is read by the processor as that gate. -/
theorem installed_gate_read (code : List Instr → UInt64) {v : ℕ} {gate : Gate}
    (h : ExceptionEntry.segments_init v = some gate) :
    gateDescriptor (gateWords code gate) =
      ⟨(code gate.function).toNat,SEGSEL_KERN_CODE.toNat,14,gate.dpl,1⟩ := by
  have hd := segments_init_rings v gate h
  exact @gate_read 14 _ _ (by decide) ⟨by omega,by omega⟩

end Installed

end WeensyOS.SegmentDescriptors
