import WeensyOS.KernelState

/-!
# Entry and exit of the kernel

The handlers of k-exception.S as lists of instructions on the kernel stack, the
frame the processor pushes before them, and the gates that lead to them. The
structure `x86_64_registers` is what lies on the stack at the end.
-/

set_option autoImplicit false

namespace WeensyOS.ExceptionEntry
open WeensyOS.KernelState

section Machine

/-- The registers of the processor that an interrupt saves. Selectors have 16 bits. -/
@[ext]
structure machine_registers where
  rax : UInt64
  rcx : UInt64
  rdx : UInt64
  rbx : UInt64
  rbp : UInt64
  rsi : UInt64
  rdi : UInt64
  r8 : UInt64
  r9 : UInt64
  r10 : UInt64
  r11 : UInt64
  r12 : UInt64
  r13 : UInt64
  r14 : UInt64
  r15 : UInt64
  fs : UInt16
  gs : UInt16
  rip : UInt64
  cs : UInt16
  rflags : UInt64
  rsp : UInt64
  ss : UInt16

/-- The operands of `pushq` and `popq`. -/
inductive Operand where
  | rax | rcx | rdx | rbx | rbp | rsi | rdi | r8 | r9 | r10 | r11 | r12 | r13 | r14 | r15 | fs | gs
deriving DecidableEq, Repr

/-- A selector is pushed with zeros above it. -/
def machine_registers.get (r : machine_registers) : Operand → UInt64
  | .rax => r.rax | .rcx => r.rcx | .rdx => r.rdx | .rbx => r.rbx | .rbp => r.rbp
  | .rsi => r.rsi | .rdi => r.rdi | .r8 => r.r8 | .r9 => r.r9 | .r10 => r.r10
  | .r11 => r.r11 | .r12 => r.r12 | .r13 => r.r13 | .r14 => r.r14 | .r15 => r.r15
  | .fs => r.fs.toUInt64 | .gs => r.gs.toUInt64

def machine_registers.set (r : machine_registers) (w : UInt64) : Operand → machine_registers
  | .rax => { r with rax := w } | .rcx => { r with rcx := w } | .rdx => { r with rdx := w }
  | .rbx => { r with rbx := w } | .rbp => { r with rbp := w } | .rsi => { r with rsi := w }
  | .rdi => { r with rdi := w } | .r8 => { r with r8 := w } | .r9 => { r with r9 := w }
  | .r10 => { r with r10 := w } | .r11 => { r with r11 := w } | .r12 => { r with r12 := w }
  | .r13 => { r with r13 := w } | .r14 => { r with r14 := w } | .r15 => { r with r15 := w }
  | .fs => { r with fs := w.toUInt16 } | .gs => { r with gs := w.toUInt16 }

/-- The words of memory from the stack pointer upwards. -/
abbrev Stack := ℕ → UInt64

def push (w : UInt64) (s : Stack) : Stack
  | 0 => w
  | n+1 => s n

def drop (n : ℕ) (s : Stack) : Stack := fun k => s (k+n)

inductive Instr where
  | pushq_imm (w : UInt64)
  | pushq (x : Operand)
  | popq (x : Operand)
  | addq_rsp (bytes : ℕ)
  | iretq

def step : Instr → machine_registers × Stack → machine_registers × Stack
  | .pushq_imm w, (r,s) => (r,push w s)
  | .pushq x, (r,s) => (r,push (r.get x) s)
  | .popq x, (r,s) => (r.set (s 0) x,drop 1 s)
  | .addq_rsp bytes, (r,s) => (r,drop (bytes/8) s)
  | .iretq, (r,s) =>
    ({ r with rip := s 0, cs := (s 1).toUInt16, rflags := s 2, rsp := s 3, ss := (s 4).toUInt16 },
      drop 5 s)

def exec : List Instr → machine_registers × Stack → machine_registers × Stack
  | [], state => state
  | instr :: code, state => exec code (step instr state)

/-- The vectors for which the processor pushes an error code. -/
def error_code_vectors : List ℕ := [8,10,11,12,13,14,17,21,29,30]

/-- The frame of an interrupt. -/
def interrupt_frame (v : ℕ) (err : UInt64) (r : machine_registers) (s : Stack) : Stack :=
  let s := push r.rip (push r.cs.toUInt64 (push r.rflags (push r.rsp (push r.ss.toUInt64 s))))
  if v ∈ error_code_vectors then push err s else s

end Machine

section Handlers

/-- `generic_exception_handler` up to the call of `exception`. -/
def generic_exception_handler : List Instr :=
  [.pushq .gs,.pushq .fs,.pushq .r15,.pushq .r14,.pushq .r13,.pushq .r12,.pushq .r11,.pushq .r10,
    .pushq .r9,.pushq .r8,.pushq .rdi,.pushq .rsi,.pushq .rbp,.pushq .rbx,.pushq .rdx,.pushq .rcx,
    .pushq .rax]

def exception_return : List Instr :=
  [.popq .rax,.popq .rcx,.popq .rdx,.popq .rbx,.popq .rbp,.popq .rsi,.popq .rdi,.popq .r8,.popq .r9,
    .popq .r10,.popq .r11,.popq .r12,.popq .r13,.popq .r14,.popq .r15,.popq .fs,.popq .gs,
    .addq_rsp 16,.iretq]

/-- A handler for an interrupt with an error code. -/
def fault_handler (intno : UInt64) : List Instr := .pushq_imm intno :: generic_exception_handler

/-- A handler that pushes a zero in place of an error code. -/
def trap_handler (intno : UInt64) : List Instr :=
  .pushq_imm 0 :: .pushq_imm intno :: generic_exception_handler

def gpf_int_handler : List Instr := fault_handler 13
def pagefault_int_handler : List Instr := fault_handler 14
def timer_int_handler : List Instr := trap_handler 32
def sys48_int_handler : List Instr := trap_handler 48
def sys49_int_handler : List Instr := trap_handler 49
def sys50_int_handler : List Instr := trap_handler 50
def sys51_int_handler : List Instr := trap_handler 51
def sys52_int_handler : List Instr := trap_handler 52
def sys53_int_handler : List Instr := trap_handler 53
def sys54_int_handler : List Instr := trap_handler 54
def sys55_int_handler : List Instr := trap_handler 55
def sys56_int_handler : List Instr := trap_handler 56
def sys57_int_handler : List Instr := trap_handler 57
def sys58_int_handler : List Instr := trap_handler 58
def sys59_int_handler : List Instr := trap_handler 59
def sys60_int_handler : List Instr := trap_handler 60
def sys61_int_handler : List Instr := trap_handler 61
def sys62_int_handler : List Instr := trap_handler 62
def sys63_int_handler : List Instr := trap_handler 63

/-- One word only. -/
def default_int_handler : List Instr := fault_handler 0

def sys_int_handlers : List (List Instr) :=
  [sys48_int_handler,sys49_int_handler,sys50_int_handler,sys51_int_handler,sys52_int_handler,
    sys53_int_handler,sys54_int_handler,sys55_int_handler,sys56_int_handler,sys57_int_handler,
    sys58_int_handler,sys59_int_handler,sys60_int_handler,sys61_int_handler,sys62_int_handler,
    sys63_int_handler]

end Handlers

section Gates

abbrev INT_GPF : ℕ := 13
abbrev INT_SYS : ℕ := 48

structure Gate where
  dpl : ℕ
  function : List Instr

/-- The interrupt descriptors; those after `memset` lead nowhere. -/
abbrev Descriptors := ℕ → Option Gate

def set_gate (idt : Descriptors) (v dpl : ℕ) (function : List Instr) : Descriptors :=
  Function.update idt v (some ⟨dpl,function⟩)

/-- `for (i = first; i < first + n; ++i) set_gate(&interrupt_descriptors[i], ...)` -/
def set_gates (dpl : ℕ) (function : ℕ → List Instr) : ℕ → ℕ → Descriptors → Descriptors
  | _, 0, idt => idt
  | first, n+1, idt => set_gates dpl function (first+1) n (set_gate idt first dpl (function first))

/-- The gates that `segments_init` installs. -/
def segments_init : Descriptors :=
  let idt := set_gates 0 (fun _ => default_int_handler) 16 (256-16) (fun _ => none)
  let idt := set_gate idt INT_TIMER.toNat 0 timer_int_handler
  let idt := set_gate idt INT_GPF 0 gpf_int_handler
  let idt := set_gate idt INT_PAGEFAULT.toNat 0 pagefault_int_handler
  set_gates 3 (fun i => sys_int_handlers.getD (i-INT_SYS) []) INT_SYS 16 idt

theorem set_gates_at (dpl : ℕ) (function : ℕ → List Instr) (first n : ℕ) (idt : Descriptors)
    (v : ℕ) : set_gates dpl function first n idt v =
      if first ≤ v ∧ v < first+n then some ⟨dpl,function v⟩ else idt v := by
  induction n generalizing first idt with
  | zero =>
    rw [if_neg (by omega)]
    rfl
  | succ n ih =>
    rw [set_gates, ih, set_gate]
    by_cases hv : v = first
    · have hout : ¬(first+1 ≤ v ∧ v < first+1+n) := by omega
      have hin : first ≤ v ∧ v < first+(n+1) := by omega
      rw [if_neg hout, if_pos hin, hv, Function.update_self]
    · have hiff : (first+1 ≤ v ∧ v < first+1+n) ↔ (first ≤ v ∧ v < first+(n+1)) := by omega
      simp only [hiff, Function.update_of_ne hv]

/-- How a handler completes the frame. -/
inductive Completes (v : ℕ) : List Instr → Prop where
  | fault (intno : UInt64) (h : v ∈ error_code_vectors) : Completes v (fault_handler intno)
  | trap (intno : UInt64) (h : v ∉ error_code_vectors) : Completes v (trap_handler intno)

/-- The vector of a default gate for which the processor pushes no error code. -/
def Bare (v : ℕ) : Prop :=
  16 ≤ v ∧ v ≠ INT_TIMER.toNat ∧ ¬(INT_SYS ≤ v ∧ v < INT_SYS+16) ∧ v ∉ error_code_vectors

theorem bare_gate {v : ℕ} {gate : Gate} (B : Bare v) (h : segments_init v = some gate) :
    gate.function = default_int_handler := by
  obtain ⟨h16,h32,hsys,-⟩ := B
  have h14 : v ≠ INT_PAGEFAULT.toNat := by
    rintro rfl
    exact absurd h16 (by decide)
  have h13 : v ≠ INT_GPF := by
    rintro rfl
    exact absurd h16 (by decide)
  rw [segments_init, set_gates_at, if_neg hsys] at h
  simp only [set_gate] at h
  rw [Function.update_of_ne h14, Function.update_of_ne h13, Function.update_of_ne h32,
    set_gates_at] at h
  split_ifs at h
  cases h
  rfl

/-- Every other gate completes its frame. -/
theorem gate_completes {v : ℕ} {gate : Gate} (hbare : ¬Bare v) (h : segments_init v = some gate) :
    Completes v gate.function := by
  have hsys : ∀ i < 16, sys_int_handlers.getD i [] = trap_handler (UInt64.ofNat (48+i)) ∧
      48+i ∉ error_code_vectors := by
    intro i hi
    interval_cases i <;> exact ⟨rfl,by decide⟩
  have hint : INT_SYS = 48 := rfl
  rw [segments_init, set_gates_at] at h
  split_ifs at h with hrange
  · cases h
    obtain ⟨hcode,hno⟩ := hsys (v-48) (by omega)
    have hv : 48+(v-48) = v := by omega
    rw [hv] at hno
    exact hcode ▸ .trap _ hno
  · simp only [set_gate] at h
    by_cases h14 : v = INT_PAGEFAULT.toNat
    · subst h14
      rw [Function.update_self] at h
      cases h
      exact .fault 14 (by decide)
    · rw [Function.update_of_ne h14] at h
      by_cases h13 : v = INT_GPF
      · subst h13
        rw [Function.update_self] at h
        cases h
        exact .fault 13 (by decide)
      · rw [Function.update_of_ne h13] at h
        by_cases h32 : v = INT_TIMER.toNat
        · subst h32
          rw [Function.update_self] at h
          cases h
          exact .trap 32 (by decide)
        · rw [Function.update_of_ne h32, set_gates_at] at h
          split_ifs at h with hin
          cases h
          refine .fault 0 ?_
          by_contra hv
          exact hbare ⟨hin.1,h32,hrange,hv⟩

end Gates

section Frames

/-- The structure at the stack pointer, word by word. -/
def registers_at (s : Stack) : x86_64_registers where
  reg_rax := s 0
  reg_rcx := s 1
  reg_rdx := s 2
  reg_rbx := s 3
  reg_rbp := s 4
  reg_rsi := s 5
  reg_rdi := s 6
  reg_r8 := s 7
  reg_r9 := s 8
  reg_r10 := s 9
  reg_r11 := s 10
  reg_r12 := s 11
  reg_r13 := s 12
  reg_r14 := s 13
  reg_r15 := s 14
  reg_fs := s 15
  reg_gs := s 16
  reg_intno := s 17
  reg_err := s 18
  reg_rip := s 19
  reg_cs := (s 20).toUInt16
  reg_rflags := s 21
  reg_rsp := s 22
  reg_ss := (s 23).toUInt16

/-- The stack when `exception` is called. The processor has replaced `rip`, `cs`, `rflags`, `rsp`
and `ss` by then, and the handler looks at none of them. -/
def entry (v : ℕ) (function : List Instr) (err : UInt64) (r : machine_registers) (s : Stack) :
    Stack := (exec function (r,interrupt_frame v err r s)).2

/-- The structure in which each field holds the register that it names. -/
def saved (r : machine_registers) (intno err : UInt64) : x86_64_registers where
  reg_rax := r.rax
  reg_rcx := r.rcx
  reg_rdx := r.rdx
  reg_rbx := r.rbx
  reg_rbp := r.rbp
  reg_rsi := r.rsi
  reg_rdi := r.rdi
  reg_r8 := r.r8
  reg_r9 := r.r9
  reg_r10 := r.r10
  reg_r11 := r.r11
  reg_r12 := r.r12
  reg_r13 := r.r13
  reg_r14 := r.r14
  reg_r15 := r.r15
  reg_fs := r.fs.toUInt64
  reg_gs := r.gs.toUInt64
  reg_intno := intno
  reg_err := err
  reg_rip := r.rip
  reg_cs := r.cs
  reg_rflags := r.rflags
  reg_rsp := r.rsp
  reg_ss := r.ss

/-- The registers that a structure names. -/
def loaded (reg : x86_64_registers) : machine_registers where
  rax := reg.reg_rax
  rcx := reg.reg_rcx
  rdx := reg.reg_rdx
  rbx := reg.reg_rbx
  rbp := reg.reg_rbp
  rsi := reg.reg_rsi
  rdi := reg.reg_rdi
  r8 := reg.reg_r8
  r9 := reg.reg_r9
  r10 := reg.reg_r10
  r11 := reg.reg_r11
  r12 := reg.reg_r12
  r13 := reg.reg_r13
  r14 := reg.reg_r14
  r15 := reg.reg_r15
  fs := reg.reg_fs.toUInt16
  gs := reg.reg_gs.toUInt16
  rip := reg.reg_rip
  cs := reg.reg_cs
  rflags := reg.reg_rflags
  rsp := reg.reg_rsp
  ss := reg.reg_ss

/-- The processor state after `exception_return`, whatever the kernel left in the registers. -/
theorem exception_return_loads (k : machine_registers) (s : Stack) :
    (exec exception_return (k,s)).1 = loaded (registers_at s) := rfl

theorem loaded_saved (r : machine_registers) (intno err : UInt64) :
    loaded (saved r intno err) = r := by
  have hword : ∀ w : UInt16, w.toUInt64.toUInt16 = w := fun w => by simp
  ext <;> simp [loaded, saved]

variable {v : ℕ} {function : List Instr}

theorem Completes.saved (C : Completes v function) (err : UInt64) (r : machine_registers)
    (s : Stack) : ∃ intno err', registers_at (entry v function err r s) = saved r intno err' := by
  have hcs : r.cs.toUInt64.toUInt16 = r.cs := by simp
  have hss : r.ss.toUInt64.toUInt16 = r.ss := by simp
  cases C with
  | fault intno h =>
    refine ⟨intno,err,?_⟩
    rw [entry, interrupt_frame, if_pos h]
    change { saved r intno err with
      reg_cs := r.cs.toUInt64.toUInt16, reg_ss := r.ss.toUInt64.toUInt16 } = _
    rw [hcs, hss]
    rfl
  | trap intno h =>
    refine ⟨intno,0,?_⟩
    rw [entry, interrupt_frame, if_neg h]
    change { saved r intno 0 with
      reg_cs := r.cs.toUInt64.toUInt16, reg_ss := r.ss.toUInt64.toUInt16 } = _
    rw [hcs, hss]
    rfl

/-- Without an error code the one word of the default handler shifts `rip` and what follows. -/
theorem default_shifted (h : v ∉ error_code_vectors) (err : UInt64) {r : machine_registers}
    (hne : r.cs ≠ r.ss) (s : Stack) (intno err' : UInt64) :
    registers_at (entry v default_int_handler err r s) ≠ saved r intno err' := by
  rw [entry, interrupt_frame, if_neg h]
  intro heq
  have hcs : r.rflags.toUInt16 = r.cs := congrArg x86_64_registers.reg_cs heq
  have hrflags : r.rsp = r.rflags := congrArg x86_64_registers.reg_rflags heq
  have hrsp : r.ss.toUInt64 = r.rsp := congrArg x86_64_registers.reg_rsp heq
  apply hne
  rw [← hcs, ← hrflags, ← hrsp]
  simp

/-- `exception` finds every register in its field, and returning to an unchanged structure
restores them all. -/
structure Restored (v : ℕ) (function : List Instr) (err : UInt64) (r : machine_registers)
    (s : Stack) : Prop where
  saved : ∃ intno err', registers_at (entry v function err r s) = saved r intno err'
  restored : ∀ k, (exec exception_return (k,entry v function err r s)).1 = r

theorem Completes.restored (C : Completes v function) (err : UInt64) (r : machine_registers)
    (s : Stack) : Restored v function err r s := by
  obtain ⟨intno,err',hsaved⟩ := C.saved err r s
  refine ⟨⟨intno,err',hsaved⟩,fun k => ?_⟩
  rw [exception_return_loads, hsaved, loaded_saved]

end Frames

/-- Entry and return agree with the structure exactly for the gates with two words below the
interrupt frame. For the others no state with different code and stack selectors is saved. -/
theorem entry_agrees_iff {v : ℕ} {gate : Gate} (h : segments_init v = some gate) :
    ((∀ err r s, Restored v gate.function err r s) ↔ ¬Bare v) ∧
    (Bare v → ∀ err r s, r.cs ≠ r.ss → ¬Restored v gate.function err r s) ∧
    ∀ k s, (exec exception_return (k,s)).1 = loaded (registers_at s) := by
  have hfail : Bare v → ∀ err r s, r.cs ≠ r.ss → ¬Restored v gate.function err r s := by
    intro hbare err r s hne R
    obtain ⟨intno,err',hsaved⟩ := R.saved
    rw [bare_gate hbare h] at hsaved
    exact default_shifted hbare.2.2.2 err hne s intno err' hsaved
  refine ⟨⟨fun hall hbare => ?_,fun hbare => (gate_completes hbare h).restored⟩,hfail,
    exception_return_loads⟩
  exact hfail hbare 0 ⟨0,0,0,0,0,0,0,0,0,0,0,0,0,0,0,0,0,0,1,0,0,0⟩ (fun _ => 0) (by decide)
    (hall _ _ _)

/-- The gate of a system call. -/
theorem getpid_restored : ∃ gate, segments_init 49 = some gate ∧
    ∀ err r s, Restored 49 gate.function err r s := by
  have hgate : segments_init 49 = some ⟨3,sys49_int_handler⟩ := by
    rw [segments_init, set_gates_at, if_pos (by decide)]
    rfl
  exact ⟨_,hgate,(entry_agrees_iff hgate).1.2 fun B => B.2.2.1 (by decide)⟩

/-- A floating-point error of a process, vector 16, reaches `exception` with `cs` in the field of
`rip`. -/
theorem floating_point_shifted : ¬∀ v gate, segments_init v = some gate → ∀ err r s,
    Restored v gate.function err r s := by
  intro hall
  have hgate : segments_init 16 = some ⟨0,default_int_handler⟩ := by
    rw [segments_init, set_gates_at, if_neg (by decide)]
    simp only [set_gate]
    rw [Function.update_of_ne (by decide), Function.update_of_ne (by decide),
      Function.update_of_ne (by decide), set_gates_at, if_pos (by decide)]
  -- a process at 0x100000 with the selectors SEGSEL_APP_CODE and SEGSEL_APP_DATA
  have R := hall 16 _ hgate 0
    ⟨0,0,0,0,0,0,0,0,0,0,0,0,0,0,0,0,0,0x100000,0x13,0x202,0x140000,0x23⟩ (fun _ => 0)
  obtain ⟨intno,err',hsaved⟩ := R.saved
  exact default_shifted (by decide) 0 (by decide) _ intno err' hsaved

end WeensyOS.ExceptionEntry
