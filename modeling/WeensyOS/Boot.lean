import WeensyOS.Exceptions

/-!
# Loading programs and starting the kernel

`program_load` of k-loader.c and `kernel` of kernel.c. The loader copies through
the page table of the new process, so each byte it stores is translated.
-/

set_option autoImplicit false

namespace WeensyOS.Boot
open WeensyOS.FlatMemory WeensyOS.KernelState WeensyOS.PageTables
open WeensyOS.PageAllocator WeensyOS.Exceptions

abbrev ELF_MAGIC : ℕ := 0x464C457F
abbrev ELF_PTYPE_LOAD : ℕ := 1

/-- A one-byte store of the kernel through the active page table. -/
def store_byte (va : ℕ) (c : UInt8) (s : KState) : Checked KState :=
  let vam := virtual_memory_lookup s.mem s.cr3 va
  if vam.perm &&& PTE_W ≠ 0 then .ok { s with mem := Function.update s.mem vam.pa c }
  else .error .fault

/-- `memcpy` or `memset` of `n` bytes through the active page table. -/
def store_bytes : (ℕ → UInt8) → ℕ → ℕ → KState → Checked KState
  | _, _, 0, s => .ok s
  | src, va, n+1, s => do
    let s ← store_byte va (src 0) s
    store_bytes (fun k => src (k+1)) ((va+1) % 2^64) n s

/-- The allocation loop of `program_load_segment`; `false` where it gives up. -/
def program_load_pages (p : ℕ) (allocator : Option (Allocator KState)) :
    List ℕ → KState → Checked (Bool × KState)
  | [], s => .ok (true,s)
  | addr::rest, s => do
    let (r,s) := assign_physical_page addr (s.processes p).p_pid s
    if r < 0 then .ok (false,s)
    else
      let (r,s) ← virtual_memory_map (s.processes p).p_pagetable addr addr PAGESIZE
        (PTE_P ||| PTE_W ||| PTE_U) allocator s
      if r < 0 then .ok (false,s) else program_load_pages p allocator rest s

def program_load_segment (K : KernelImage) (p : ℕ) (ph : elf_program) (src : ℕ → UInt8)
    (allocator : Option (Allocator KState)) (s : KState) : Checked (ℤ × KState) := do
  let va := ph.p_va
  let end_file := (va+ph.p_filesz) % 2^64
  let end_mem := (va+ph.p_memsz) % 2^64
  let va := PTE_ADDR va
  let (loaded,s) ← program_load_pages p allocator (addrs va end_mem) s
  if !loaded then .ok (-1,s)
  else
    let s ← set_pagetable K (s.processes p).p_pagetable s
    let s ← store_bytes src va ((2^64+end_file-va) % 2^64) s
    let s ← store_bytes (fun _ => 0) end_file ((2^64+end_mem-end_file) % 2^64) s
    let s ← set_pagetable K K.kernel_pagetable s
    .ok (0,s)

def program_load_loop (K : KernelImage) (p : ℕ) (image : ramimage)
    (allocator : Option (Allocator KState)) : List elf_program → KState → Checked (ℤ × KState)
  | [], s => .ok (0,s)
  | ph::rest, s =>
    if ph.p_type = ELF_PTYPE_LOAD then do
      let src := fun k => image.bytes (ph.p_offset+k)
      let (r,s) ← program_load_segment K p ph src allocator s
      if r < 0 then .ok (-1,s) else program_load_loop K p image allocator rest s
    else program_load_loop K p image allocator rest s

def program_load (K : KernelImage) (p programnumber : ℕ)
    (allocator : Option (Allocator KState)) (s : KState) : Checked (ℤ × KState) :=
  match K.ramimages[programnumber]? with
  | none => .error (.assert_fail "programnumber >= 0 && programnumber < nprograms")
  | some image => do
    kassert (image.e_magic = ELF_MAGIC) "eh->e_magic == ELF_MAGIC"
    let (r,s) ← program_load_loop K p image allocator image.e_program s
    if r < 0 then .ok (-1,s)
    else .ok (0,s.setRegisters p { (s.processes p).p_registers with reg_rip := image.e_entry })

/-- `process_init(p, 0)`: application segments and the interrupt flag. -/
def process_init_registers : x86_64_registers :=
  { x86_64_registers.zero with
    reg_cs := 0x10 ||| 3, reg_fs := 0x20 ||| 3, reg_gs := 0x20 ||| 3, reg_ss := 0x20 ||| 3,
    reg_rflags := 0x200 }

def process_setup (K : KernelImage) (pid program_number : ℕ) (s : KState) :
    Checked KState := do
  let s := s.setRegisters pid process_init_registers
  let (new_pagetable,s) ← copy_pagetable K.kernel_pagetable pid s
  let s := s.setPagetable pid new_pagetable
  let (r,s) ← program_load K pid program_number none s
  kassert (r ≥ 0) "r >= 0"
  let s := s.setRegisters pid
    { (s.processes pid).p_registers with reg_rsp := UInt64.ofNat MEMSIZE_VIRTUAL }
  let stack_page := MEMSIZE_VIRTUAL-PAGESIZE
  let (stack_p_addr,s) := get_free_addr pid s
  let (_,s) ← virtual_memory_map (s.processes pid).p_pagetable stack_page stack_p_addr PAGESIZE
    (PTE_P ||| PTE_W ||| PTE_U) (some pagetable_alloc) s
  .ok (s.setState pid .P_RUNNABLE)

/-- The entry `pageinfo_init` gives the page at `addr`. -/
def pageinfo_init_entry (K : KernelImage) (addr : ℕ) : physical_pageinfo :=
  let owner := if physical_memory_isreserved addr then PO_RESERVED
    else if (KERNEL_START_ADDR ≤ addr ∧ addr < K.kernel_end)
      ∨ addr = KERNEL_STACK_TOP-PAGESIZE then PO_KERNEL
    else PO_FREE
  ⟨owner,if owner ≠ PO_FREE then 1 else 0⟩

def pageinfo_init (K : KernelImage) (s : KState) : KState :=
  { s with pageinfo := fun pn =>
      if pn < NPAGES then pageinfo_init_entry K (pn*PAGESIZE) else s.pageinfo pn }

/-- `memset(processes, 0, sizeof(processes))` and the loop that follows it. -/
def processes_init (s : KState) : KState :=
  { s with processes := fun i =>
      if i < NPROC then ⟨i,.zero,.P_FREE,NULL⟩ else s.processes i }

/-- The programs `kernel` sets up for its command line: process, program. -/
def boot_programs (command : Option String) : List (ℕ × ℕ) :=
  if command = some "fork" then [(1,4)]
  else if command = some "forkexit" then [(1,5)]
  else [(1,0),(2,1),(3,2),(4,3)]

/-- `kernel` up to its first `process_setup`. -/
def kernel_init (K : KernelImage) (s : KState) : Checked KState := do
  let s ← virtual_memory_init K s
  let s := processes_init (pageinfo_init K s)
  let (_,s) ← virtual_memory_map K.kernel_pagetable 0 0 0x100000 (PTE_P ||| PTE_W) none s
  let (_,s) ← virtual_memory_map K.kernel_pagetable console console PAGESIZE
    (PTE_P ||| PTE_W ||| PTE_U) none s
  .ok s

def kernel (K : KernelImage) (command : Option String) (s : KState) : Checked Outcome := do
  let s ← kernel_init K s
  let s ← (boot_programs command).foldlM (fun s p => process_setup K p.1 p.2 s) s
  run K 1 s

end WeensyOS.Boot
