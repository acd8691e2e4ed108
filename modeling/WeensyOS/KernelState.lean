import WeensyOS.FlatMemory

/-!
# Kernel data

Constants and records of x86-64.h, elf.h and kernel.h, and the static
variables of kernel.c and k-hardware.c. Machine words are natural numbers
below `2^64`, pointers are addresses with `NULL` as zero, and physical
memory is one flat byte memory that holds page tables and user pages alike.
What is drawn on the console or written to the log is left out.
-/

set_option autoImplicit false

namespace WeensyOS.KernelState
open WeensyOS.FlatMemory

abbrev PAGEOFFBITS : ℕ := 12
abbrev PAGESIZE : ℕ := 4096
abbrev PAGEINDEXBITS : ℕ := 9
abbrev NPAGETABLEENTRIES : ℕ := 512

abbrev NPROC : ℕ := 16
abbrev KERNEL_START_ADDR : ℕ := 0x40000
abbrev KERNEL_STACK_TOP : ℕ := 0x80000
abbrev PROC_START_ADDR : ℕ := 0x100000
abbrev MEMSIZE_PHYSICAL : ℕ := 0x200000
abbrev NPAGES : ℕ := MEMSIZE_PHYSICAL / PAGESIZE
abbrev MEMSIZE_VIRTUAL : ℕ := 0x300000
abbrev IOPHYSMEM : ℕ := 0xA0000
abbrev EXTPHYSMEM : ℕ := 0x100000
abbrev HZ : UInt32 := 100

/-- Linked at a fixed address by link/shared.ld. -/
abbrev console : ℕ := 0xB8000

abbrev NULL : ℕ := 0
abbrev OUTOFMEMORY : ℕ := 0
abbrev FAILED : ℤ := -1

abbrev PO_FREE : ℤ := 0
abbrev PO_RESERVED : ℤ := -1
abbrev PO_KERNEL : ℤ := -2

abbrev INT_PAGEFAULT : UInt64 := 14
abbrev INT_TIMER : UInt64 := 32
abbrev INT_SYS_PANIC : UInt64 := 48
abbrev INT_SYS_GETPID : UInt64 := 49
abbrev INT_SYS_YIELD : UInt64 := 50
abbrev INT_SYS_PAGE_ALLOC : UInt64 := 51
abbrev INT_SYS_FORK : UInt64 := 52
abbrev PFERR_USER : UInt64 := 4

/-- The C assignment of an `int` or `pid_t` to a 64-bit register. -/
abbrev toRegister (r : ℤ) : UInt64 := UInt64.ofInt r

/-- The C conversion of a 64-bit word to `int`. -/
def toInt32 (n : ℕ) : ℤ := Int.bmod n (2^32)

@[ext]
structure x86_64_registers where
  reg_rax : UInt64
  reg_rcx : UInt64
  reg_rdx : UInt64
  reg_rbx : UInt64
  reg_rbp : UInt64
  reg_rsi : UInt64
  reg_rdi : UInt64
  reg_r8 : UInt64
  reg_r9 : UInt64
  reg_r10 : UInt64
  reg_r11 : UInt64
  reg_r12 : UInt64
  reg_r13 : UInt64
  reg_r14 : UInt64
  reg_r15 : UInt64
  reg_fs : UInt64
  reg_gs : UInt64
  reg_intno : UInt64
  reg_err : UInt64
  reg_rip : UInt64
  reg_cs : UInt16
  reg_rflags : UInt64
  reg_rsp : UInt64
  reg_ss : UInt16
  deriving DecidableEq, Repr

/-- All-zero registers, as `memset` leaves them. -/
def x86_64_registers.zero : x86_64_registers :=
  ⟨0,0,0,0,0,0,0,0,0,0,0,0,0,0,0,0,0,0,0,0,0,0,0,0⟩

inductive procstate where
  | P_FREE
  | P_RUNNABLE
  | P_BLOCKED
  | P_BROKEN
  deriving DecidableEq, Repr

structure proc where
  p_pid : ℕ
  p_registers : x86_64_registers
  p_state : procstate
  p_pagetable : ℕ

@[ext]
structure physical_pageinfo where
  owner : ℤ
  refcount : ℤ
  deriving DecidableEq, Repr

structure elf_program where
  p_type : ℕ
  p_offset : ℕ
  p_va : ℕ
  p_filesz : ℕ
  p_memsz : ℕ
  deriving DecidableEq, Repr

/-- An embedded program: the header fields the loader reads, and its bytes. -/
structure ramimage where
  e_magic : ℕ
  e_entry : UInt64
  e_program : List elf_program
  bytes : ℕ → UInt8

/-- What the linker supplies: the symbols of link/kernel.ld, the addresses of
static data and code that the kernel names, and the embedded programs. -/
structure KernelImage where
  start_data : ℕ
  kernel_end : ℕ
  kernel_pagetables : ℕ
  default_int_handler : ℕ
  virtual_memory_map : ℕ
  ramimages : List ramimage
  text_start : KERNEL_START_ADDR ≤ start_data
  data_aligned : start_data % PAGESIZE = 0
  tables_aligned : kernel_pagetables % PAGESIZE = 0
  tables_in_data : start_data ≤ kernel_pagetables
  tables_end : kernel_pagetables+5*PAGESIZE ≤ kernel_end
  end_below_stack : kernel_end ≤ KERNEL_STACK_TOP-PAGESIZE
  handler_in_text : KERNEL_START_ADDR ≤ default_int_handler ∧ default_int_handler < start_data
  map_in_text : KERNEL_START_ADDR ≤ virtual_memory_map ∧ virtual_memory_map < start_data

/-- `kernel_pagetable = &kernel_pagetables[0]` from `virtual_memory_init` on. -/
abbrev KernelImage.kernel_pagetable (K : KernelImage) : ℕ := K.kernel_pagetables

structure KState where
  mem : Memory
  pageinfo : ℕ → physical_pageinfo
  processes : ℕ → proc
  current : ℕ
  pagetable_owner : ℤ
  ticks : UInt32
  last_ticks : UInt32
  showing : ℕ
  cr3 : ℕ

namespace KState

def setPageinfo (s : KState) (pn : ℕ) (info : physical_pageinfo) : KState :=
  { s with pageinfo := Function.update s.pageinfo pn info }

def setProc (s : KState) (i : ℕ) (p : proc) : KState :=
  { s with processes := Function.update s.processes i p }

def setRegisters (s : KState) (i : ℕ) (reg : x86_64_registers) : KState :=
  s.setProc i { s.processes i with p_registers := reg }

/-- Assign to `processes[i].p_registers.reg_rax`. -/
def setRax (s : KState) (i : ℕ) (r : ℤ) : KState :=
  s.setRegisters i { (s.processes i).p_registers with reg_rax := toRegister r }

def setState (s : KState) (i : ℕ) (st : procstate) : KState :=
  s.setProc i { s.processes i with p_state := st }

def setPagetable (s : KState) (i pt : ℕ) : KState :=
  s.setProc i { s.processes i with p_pagetable := pt }

end KState

/-- Ways the kernel stops: a failing assertion, a call of `panic`, or an access
of the kernel's own to an address its page table does not map. -/
inductive Panic where
  | assert_fail (msg : String)
  | panic (format : String)
  | fault
  deriving DecidableEq, Repr

abbrev Checked (α : Type) := Except Panic α

def kassert (c : Prop) [Decidable c] (msg : String) : Checked Unit :=
  if c then .ok () else .error (.assert_fail msg)

/-- Values of `for (a = start; a < stop; a += PAGESIZE)`. -/
def addrs (start stop : ℕ) : List ℕ :=
  (List.range ((stop-start+(PAGESIZE-1)) / PAGESIZE)).map fun k => start+k*PAGESIZE

theorem mem_addrs (start stop a : ℕ) :
    a ∈ addrs start stop ↔ ∃ k, a = start+k*4096 ∧ a < stop := by
  simp only [addrs, PAGESIZE, List.mem_map, List.mem_range]
  constructor
  · rintro ⟨k,hk,rfl⟩
    exact ⟨k,rfl,by omega⟩
  · rintro ⟨k,rfl,hk⟩
    exact ⟨k,by omega,rfl⟩

end WeensyOS.KernelState
