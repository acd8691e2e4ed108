import WeensyOS.Exceptions
import WeensyOS.ExceptionEntry

/-!
# The way back to a process

What the processor does between the load of `cr3` in `set_pagetable` and the
next instruction of the process. It leaves `set_pagetable` and `run` by the
kernel stack and executes `exception_return(&p->p_registers)`, and it reads the
code, the stack, the segment descriptors and the array `processes` through the
table of the process. The bytes of these are not part of `mem`.
-/

set_option autoImplicit false

namespace WeensyOS.ReturnPath
open WeensyOS.FlatMemory WeensyOS.KernelState WeensyOS.PageTables WeensyOS.Exceptions
open WeensyOS.ExceptionEntry

/-- `sizeof(proc)` -/
abbrev SIZEOF_PROC : ℕ := 216

/-- `offsetof(proc, p_registers)` -/
abbrev OFFSETOF_REGISTERS : ℕ := 8

/-- `sizeof(x86_64_registers)` -/
abbrev SIZEOF_REGISTERS : ℕ := 192

/-- Where the way back leads: the code from `lcr3` to `iretq`, the words on the stack that
`set_pagetable` and `run` still read when `exception` has called `run`, and the descriptors of the
segments that are loaded. The kernel has `content pid a` at such an address `a`. -/
structure WayBack (K : KernelImage) where
  code : List ℕ
  stack : List ℕ
  segments : List ℕ
  content : ℕ → ℕ → UInt8
  processes : ℕ
  code_in_text : ∀ a ∈ code, KERNEL_START_ADDR ≤ a ∧ a < K.start_data
  stack_in_page : ∀ a ∈ stack, KERNEL_STACK_TOP-PAGESIZE ≤ a ∧ a < KERNEL_STACK_TOP
  segments_in_data : ∀ a ∈ segments, K.start_data ≤ a ∧ a < K.kernel_end
  processes_in_data : K.start_data ≤ processes ∧ processes+NPROC*SIZEOF_PROC ≤ K.kernel_end
  processes_aligned : processes % 8 = 0

/-- An address of the kernel image or of the kernel stack. -/
def KernelAddress (K : KernelImage) (a : ℕ) : Prop :=
  (KERNEL_START_ADDR ≤ a ∧ a < K.kernel_end) ∨
    (KERNEL_STACK_TOP-PAGESIZE ≤ a ∧ a < KERNEL_STACK_TOP)

/-- The structure `x86_64_registers` in words. -/
def register_words (reg : x86_64_registers) : Stack
  | 0 => reg.reg_rax
  | 1 => reg.reg_rcx
  | 2 => reg.reg_rdx
  | 3 => reg.reg_rbx
  | 4 => reg.reg_rbp
  | 5 => reg.reg_rsi
  | 6 => reg.reg_rdi
  | 7 => reg.reg_r8
  | 8 => reg.reg_r9
  | 9 => reg.reg_r10
  | 10 => reg.reg_r11
  | 11 => reg.reg_r12
  | 12 => reg.reg_r13
  | 13 => reg.reg_r14
  | 14 => reg.reg_r15
  | 15 => reg.reg_fs
  | 16 => reg.reg_gs
  | 17 => reg.reg_intno
  | 18 => reg.reg_err
  | 19 => reg.reg_rip
  | 20 => reg.reg_cs.toUInt64
  | 21 => reg.reg_rflags
  | 22 => reg.reg_rsp
  | 23 => reg.reg_ss.toUInt64
  | _ => 0

/-- The words that `exception_return` pops. `addq $16, %rsp` skips the two between. -/
def popped : List ℕ := List.range 17++[19,20,21,22,23]

/-- What a popped word leaves in its register: selectors have 16 bits. -/
def field (n : ℕ) (w : UInt64) : UInt64 :=
  if n = 15 ∨ n = 16 ∨ n = 20 ∨ n = 23 then w.toUInt16.toUInt64 else w

section Loads

variable {K : KernelImage} (P : WayBack K) (s : KState)

/-- Every byte that is read outside `processes`. -/
def WayBack.reads : List ℕ := P.code++(P.stack++P.segments)

/-- The address of the word `n` of `processes[i].p_registers`. -/
def WayBack.register_word (i n : ℕ) : ℕ :=
  P.processes+SIZEOF_PROC*i+OFFSETOF_REGISTERS+8*n

/-- The physical address behind an address of the active table; `none` is a page fault. -/
def physical_address (va : ℕ) : Option ℕ :=
  let vam := virtual_memory_lookup s.mem s.cr3 va
  if vam.perm &&& PTE_P ≠ 0 then some vam.pa else none

/-- A byte of physical memory, the kernel's own included. -/
def physical_byte (pa : ℕ) : UInt8 :=
  if pa ∈ P.reads then P.content s.current pa else s.mem pa

/-- A word of physical memory, those of `processes` included. -/
def physical_word (pa : ℕ) : UInt64 :=
  let i := (pa-P.processes) / SIZEOF_PROC
  let o := (pa-P.processes) % SIZEOF_PROC
  if P.processes ≤ pa ∧ i < NPROC ∧ OFFSETOF_REGISTERS ≤ o ∧ o < OFFSETOF_REGISTERS+SIZEOF_REGISTERS
    then register_words (s.processes i).p_registers ((o-OFFSETOF_REGISTERS) / 8)
    else UInt64.ofNat (load64 s.mem pa)

def fetch (va : ℕ) : Option UInt8 := (physical_address s va).map (physical_byte P s)

def pop (va : ℕ) : Option UInt64 := (physical_address s va).map (physical_word P s)

/-- `exception_return(&current->p_registers)` on a processor with the registers `k`. -/
def load_registers (k : machine_registers) : Option machine_registers :=
  let word := fun n => pop P s (P.register_word s.current n)
  if ∀ n ∈ popped, (word n).isSome
    then some (exec exception_return (k,fun n => (word n).getD 0)).1 else none

/-- The process starts with these registers. -/
def Loads (reg : x86_64_registers) : Prop := ∀ k, load_registers P s k = some (loaded reg)

/-- The processor gets from `lcr3` to `iretq` by the kernel's own bytes, and from there into the
process with these registers. -/
structure Resumes (reg : x86_64_registers) : Prop where
  path : ∀ a ∈ P.reads, fetch P s a = some (P.content s.current a)
  loads : Loads P s reg

end Loads

section Words

variable {reg : x86_64_registers} {s s' : Stack}

theorem registers_at_words (reg : x86_64_registers) :
    registers_at (register_words reg) = reg := by
  change { reg with
    reg_cs := reg.reg_cs.toUInt64.toUInt16, reg_ss := reg.reg_ss.toUInt64.toUInt16 } = reg
  rw [UInt16.toUInt16_toUInt64, UInt16.toUInt16_toUInt64]

theorem mem_popped {n : ℕ} (h : n ∈ popped) : n < 24 := by
  have hall : ∀ n ∈ popped, n < 24 := by decide
  exact hall n h

theorem field_word {n : ℕ} (hn : ¬(n = 15 ∨ n = 16 ∨ n = 20 ∨ n = 23)) (w : UInt64) :
    field n w = w := if_neg hn

theorem field_selector {n : ℕ} (hn : n = 15 ∨ n = 16 ∨ n = 20 ∨ n = 23) {w w' : UInt64} :
    field n w = field n w' ↔ w.toUInt16 = w'.toUInt16 := by
  rw [field, field, if_pos hn, if_pos hn]
  constructor
  · intro h
    have h' := congrArg UInt64.toUInt16 h
    rwa [UInt16.toUInt16_toUInt64, UInt16.toUInt16_toUInt64] at h'
  · intro h
    rw [h]

/-- The registers loaded from two stacks agree when the popped fields do. -/
theorem loaded_eq_iff : loaded (registers_at s) = loaded (registers_at s') ↔
    ∀ n ∈ popped, field n (s n) = field n (s' n) := by
  have hplain : ∀ {n : ℕ} {w w' : UInt64}, ¬(n = 15 ∨ n = 16 ∨ n = 20 ∨ n = 23) →
      (field n w = field n w' ↔ w = w') := fun hn => by rw [field_word hn, field_word hn]
  have hlist : popped = [0,1,2,3,4,5,6,7,8,9,10,11,12,13,14,15,16,19,20,21,22,23] := by decide
  rw [hlist, machine_registers.ext_iff]
  simp only [List.forall_mem_cons, List.not_mem_nil, false_imp_iff, implies_true, and_true]
  simp only [field_selector (Or.inl rfl), field_selector (Or.inr (Or.inl rfl)),
    field_selector (Or.inr (Or.inr (Or.inl rfl))), field_selector (Or.inr (Or.inr (Or.inr rfl)))]
  simp (disch := decide) only [hplain]
  rfl

end Words

section Own

variable {K : KernelImage} {P : WayBack K} {s : KState} {reg : x86_64_registers} {a i n : ℕ}

theorem reads_kernel (h : a ∈ P.reads) : KernelAddress K a := by
  have hdata := K.text_start
  have htables := K.tables_in_data
  have hend := K.tables_end
  simp only [KERNEL_START_ADDR, PAGESIZE] at hdata hend
  rw [WayBack.reads, List.mem_append, List.mem_append] at h
  rcases h with h | h | h
  · have := P.code_in_text a h
    exact Or.inl ⟨this.1,by omega⟩
  · exact Or.inr (P.stack_in_page a h)
  · have := P.segments_in_data a h
    simp only [KernelAddress, KERNEL_START_ADDR]
    omega

theorem register_word_kernel (P : WayBack K) (hi : i < NPROC) (hn : n < 24) :
    KernelAddress K (P.register_word i n) := by
  have hdata := K.text_start
  obtain ⟨hlow,hhigh⟩ := P.processes_in_data
  simp only [KernelAddress, WayBack.register_word, KERNEL_START_ADDR, NPROC, SIZEOF_PROC,
    OFFSETOF_REGISTERS] at *
  omega

theorem register_word_aligned (P : WayBack K) (i n : ℕ) : P.register_word i n % 8 = 0 := by
  have := P.processes_aligned
  simp only [WayBack.register_word, SIZEOF_PROC, OFFSETOF_REGISTERS]
  omega

theorem physical_byte_own (h : a ∈ P.reads) : physical_byte P s a = P.content s.current a :=
  if_pos h

theorem physical_word_own (hi : i < NPROC) (hn : n < 24) :
    physical_word P s (P.register_word i n) =
      register_words (s.processes i).p_registers n := by
  have hoff : P.register_word i n-P.processes = 216*i+(8+8*n) := by
    simp only [WayBack.register_word, SIZEOF_PROC, OFFSETOF_REGISTERS]
    omega
  have hdiv : (216*i+(8+8*n)) / 216 = i := by omega
  have hmod : (216*i+(8+8*n)) % 216 = 8+8*n := by omega
  have hword : (8+8*n-8) / 8 = n := by omega
  have hle : P.processes ≤ P.register_word i n := by
    simp only [WayBack.register_word, SIZEOF_PROC, OFFSETOF_REGISTERS]
    omega
  simp only [physical_word, hoff, SIZEOF_PROC, OFFSETOF_REGISTERS, SIZEOF_REGISTERS, hdiv, hmod,
    hword]
  rw [if_pos ⟨hle,hi,by omega,by omega⟩]

theorem physical_byte_other (h : ¬KernelAddress K a) : physical_byte P s a = s.mem a :=
  if_neg fun hmem => h (reads_kernel hmem)

theorem physical_word_other (h : ¬KernelAddress K a) :
    physical_word P s a = UInt64.ofNat (load64 s.mem a) := by
  refine if_neg fun hin => h (Or.inl ?_)
  have hdata := K.text_start
  obtain ⟨hlow,hhigh⟩ := P.processes_in_data
  obtain ⟨hle,hi,-,-⟩ := hin
  simp only [KERNEL_START_ADDR, NPROC, SIZEOF_PROC] at *
  omega

theorem physical_identity (h : (virtual_memory_lookup s.mem s.cr3 a).pa = a) (ha : a < 2^63) :
    physical_address s a = some a := by
  have hmapped : (virtual_memory_lookup s.mem s.cr3 a).perm &&& PTE_P ≠ 0 := by
    simp only [virtual_memory_lookup] at h ⊢
    split at h
    · rename_i hp
      rwa [if_pos hp]
    · simp only [vamapping.unmapped] at h
      omega
  simp only [physical_address, if_pos hmapped, h]

/-- What is popped is loaded, selector by selector and word by word. -/
theorem loads_iff : Loads P s reg ↔ ∀ n ∈ popped, ∃ w,
    pop P s (P.register_word s.current n) = some w ∧
      field n w = field n (register_words reg n) := by
  have hreg : loaded reg = loaded (registers_at (register_words reg)) := by
    rw [registers_at_words]
  constructor
  · intro h n hn
    have hload := h (loaded reg)
    simp only [load_registers] at hload
    split at hload
    · rename_i hall
      obtain ⟨w,hw⟩ := Option.isSome_iff_exists.1 (hall n hn)
      rw [Option.some.injEq, exception_return_loads, hreg, loaded_eq_iff] at hload
      have hfield := hload n hn
      rw [hw] at hfield
      exact ⟨w,hw,hfield⟩
    · cases hload
  · intro h k
    have hall : ∀ n ∈ popped, (pop P s (P.register_word s.current n)).isSome := fun n hn => by
      obtain ⟨w,hw,-⟩ := h n hn
      rw [hw]
      rfl
    simp only [load_registers]
    rw [if_pos hall, Option.some.injEq, exception_return_loads, hreg, loaded_eq_iff]
    intro n hn
    obtain ⟨w,hw,hfield⟩ := h n hn
    rw [hw]
    exact hfield

end Own

end WeensyOS.ReturnPath
