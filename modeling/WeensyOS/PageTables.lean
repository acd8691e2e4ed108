import WeensyOS.KernelState
import WeensyOS.LibC

/-!
# Page tables

The page-table functions of x86-64.h and k-hardware.c. They run on any state
that contains a memory, since the allocator they call may keep data of its
own. A `for` loop over levels or pages is a recursion over what is left.
-/

set_option autoImplicit false

namespace WeensyOS.PageTables
open WeensyOS.FlatMemory WeensyOS.KernelState

class MachineMemory (σ : Type) where
  mem : σ → Memory
  setMem : σ → Memory → σ
  mem_setMem : ∀ s m, mem (setMem s m) = m
  setMem_mem : ∀ s, setMem s (mem s) = s
  setMem_setMem : ∀ s m m', setMem (setMem s m) m' = setMem s m'

export MachineMemory (mem setMem)
attribute [simp] MachineMemory.mem_setMem MachineMemory.setMem_mem MachineMemory.setMem_setMem

instance : MachineMemory KState where
  mem := KState.mem
  setMem s m := { s with mem := m }
  mem_setMem _ _ := rfl
  setMem_mem _ := rfl
  setMem_setMem _ _ _ := rfl

/-- A page-table allocator: an address, `NULL` when there is none left. -/
abbrev Allocator (σ : Type) := σ → ℕ × σ

abbrev PTE_P : ℕ := 1
abbrev PTE_W : ℕ := 2
abbrev PTE_U : ℕ := 4

def PAGENUMBER (ptr : ℕ) : ℤ := toInt32 (ptr >>> PAGEOFFBITS)

def pageindex (addr level : ℕ) : ℕ :=
  (addr >>> (PAGEOFFBITS+(3-level)*PAGEINDEXBITS)) &&& 0x1FF

abbrev PAGEINDEX (addr level : ℕ) : ℕ := pageindex addr level
abbrev L4PAGEINDEX (addr : ℕ) : ℕ := pageindex addr 3

def PAGEOFFSET (addr : ℕ) : ℕ := addr &&& (PAGESIZE-1)

/-- `pageentry & ~0xFFF`: dispose of the last 12 bits. -/
def PTE_ADDR (pageentry : ℕ) : ℕ := pageentry >>> PAGEOFFBITS <<< PAGEOFFBITS

def PTE_FLAGS (pageentry : ℕ) : ℕ := pageentry &&& 0xFFF

/-- `pt->entry[i]` -/
def entry (m : Memory) (pt i : ℕ) : ℕ := load64 m (pt+8*i)

/-- `pt->entry[i] = pe` -/
def setEntry (m : Memory) (pt i pe : ℕ) : Memory := store64 m (pt+8*i) pe

section Walks

variable {σ : Type} [MachineMemory σ]

/-- The entry of one level of the walk, allocating a table page for it if it is
not present; `none` where `lookup_l4pagetable` returns `NULL`. -/
def lookup_l4pagetable_entry (va perm : ℕ) (allocator : Option (Allocator σ))
    (i pt : ℕ) (s : σ) : Checked (Option ℕ × σ) :=
  let pe := entry (mem s) pt (PAGEINDEX va i)
  if pe &&& PTE_P ≠ 0 then .ok (some pe,s)
  else if perm &&& PTE_P = 0 then .ok (none,s)
  else match allocator with
    | none => .ok (none,s)
    | some alloc =>
      let (new_pt,s) := alloc s
      if new_pt = NULL then .ok (none,s)
      else do
        kassert (new_pt % PAGESIZE = 0) "(uintptr_t) new_pt % PAGESIZE == 0"
        let pe := PTE_ADDR new_pt ||| PTE_P ||| PTE_W ||| PTE_U
        let m := setEntry (mem s) pt (PAGEINDEX va i) pe
        .ok (some pe,setMem s (LibC.memset m new_pt 0 PAGESIZE))

/-- The sanity checks on a page entry. -/
def lookup_l4pagetable_check (perm pe : ℕ) : Checked Unit := do
  kassert (PTE_ADDR pe < MEMSIZE_PHYSICAL) "PTE_ADDR(pe) < MEMSIZE_PHYSICAL"
  if perm &&& PTE_W ≠ 0 then kassert (pe &&& PTE_W ≠ 0) "pe & PTE_W"
  if perm &&& PTE_U ≠ 0 then kassert (pe &&& PTE_U ≠ 0) "pe & PTE_U"

def lookup_l4pagetable_loop (va perm : ℕ) (allocator : Option (Allocator σ)) :
    List ℕ → ℕ → σ → Checked (ℕ × σ)
  | [], pt, s => .ok (pt,s)
  | i::levels, pt, s => do
    let (found,s) ← lookup_l4pagetable_entry va perm allocator i pt s
    match found with
    | none => .ok (NULL,s)
    | some pe =>
      lookup_l4pagetable_check perm pe
      lookup_l4pagetable_loop va perm allocator levels (PTE_ADDR pe) s

def lookup_l4pagetable (pagetable va perm : ℕ) (allocator : Option (Allocator σ))
    (s : σ) : Checked (ℕ × σ) :=
  lookup_l4pagetable_loop va perm allocator [0,1,2] pagetable s

/-- `va >> (PAGEOFFBITS + PAGEINDEXBITS)`, narrowed to `int`. -/
def index123 (va : ℕ) : ℤ := toInt32 (va >>> (PAGEOFFBITS+PAGEINDEXBITS))

/-- The loop of `virtual_memory_map`, with the number of pages left. -/
def virtual_memory_map_loop (pagetable perm : ℕ) (allocator : Option (Allocator σ)) :
    ℕ → ℕ → ℕ → ℤ → ℕ → σ → Checked (ℤ × σ)
  | 0, _, _, _, _, s => .ok (0,s)
  | n+1, va, pa, last_index123, l4pagetable, s => do
    let cur_index123 := index123 va
    let (l4pagetable,s) ← if cur_index123 ≠ last_index123
      then lookup_l4pagetable pagetable va perm allocator s
      else pure (l4pagetable,s)
    let va' := (va+PAGESIZE) % 2^64
    let pa' := (pa+PAGESIZE) % 2^64
    if perm &&& PTE_P ≠ 0 ∧ l4pagetable ≠ NULL then
      let m := setEntry (mem s) l4pagetable (L4PAGEINDEX va) (pa ||| perm)
      virtual_memory_map_loop pagetable perm allocator n va' pa' cur_index123 l4pagetable
        (setMem s m)
    else if l4pagetable ≠ NULL then
      let m := setEntry (mem s) l4pagetable (L4PAGEINDEX va) perm
      virtual_memory_map_loop pagetable perm allocator n va' pa' cur_index123 l4pagetable
        (setMem s m)
    else if perm &&& PTE_P ≠ 0 then .ok (-1,s)
    else virtual_memory_map_loop pagetable perm allocator n va' pa' cur_index123 l4pagetable s

def virtual_memory_map (pagetable va pa sz perm : ℕ) (allocator : Option (Allocator σ))
    (s : σ) : Checked (ℤ × σ) := do
  kassert (va % PAGESIZE = 0) "va % PAGESIZE == 0"
  kassert (sz % PAGESIZE = 0) "sz % PAGESIZE == 0"
  kassert ((va+sz) % 2^64 ≥ va ∨ (va+sz) % 2^64 = 0) "va + sz >= va || va + sz == 0"
  if perm &&& PTE_P ≠ 0 then
    kassert (pa % PAGESIZE = 0) "pa % PAGESIZE == 0"
    kassert ((pa+sz) % 2^64 ≥ pa) "pa + sz >= pa"
    kassert ((pa+sz) % 2^64 ≤ MEMSIZE_PHYSICAL) "pa + sz <= MEMSIZE_PHYSICAL"
  kassert (perm < 0x1000) "perm >= 0 && perm < 0x1000"
  kassert (pagetable % PAGESIZE = 0) "(uintptr_t) pagetable % PAGESIZE == 0"
  virtual_memory_map_loop pagetable perm allocator (sz / PAGESIZE) va pa (-1) NULL s

end Walks

structure vamapping where
  pn : ℤ
  pa : ℕ
  perm : ℕ
  deriving DecidableEq, Repr

/-- `{ -1, (uintptr_t) -1, 0 }` -/
def vamapping.unmapped : vamapping := ⟨-1,2^64-1,0⟩

/-- The last entry read and the permissions common to all levels. The walk
stops at the first entry that is not present. -/
def virtual_memory_lookup_loop (m : Memory) (va : ℕ) : List ℕ → ℕ → ℕ → ℕ → ℕ × ℕ
  | [], _, pe, perms => (pe,perms)
  | i::levels, pt, pe, perms =>
    if perms &&& PTE_P = 0 then (pe,perms)
    else
      let pe := entry m pt (PAGEINDEX va i)
      virtual_memory_lookup_loop m va levels (PTE_ADDR pe) pe (perms &&& PTE_FLAGS pe)

def virtual_memory_lookup (m : Memory) (pagetable va : ℕ) : vamapping :=
  let (pe,perms) := virtual_memory_lookup_loop m va [0,1,2,3] pagetable 0
    (PTE_W ||| PTE_U ||| PTE_P)
  if perms &&& PTE_P ≠ 0 then ⟨PAGENUMBER pe,PTE_ADDR pe+PAGEOFFSET va,perms⟩
  else .unmapped

def set_pagetable (K : KernelImage) (pagetable : ℕ) (s : KState) : Checked KState := do
  kassert (PAGEOFFSET pagetable = 0) "PAGEOFFSET(pagetable) == 0"
  kassert ((virtual_memory_lookup s.mem pagetable K.default_int_handler).pa
    = K.default_int_handler)
    "virtual_memory_lookup(pagetable, (uintptr_t) default_int_handler).pa == (uintptr_t) default_int_handler"
  kassert ((virtual_memory_lookup s.mem K.kernel_pagetable pagetable).pa = pagetable)
    "virtual_memory_lookup(kernel_pagetable, (uintptr_t) pagetable).pa == (uintptr_t) pagetable"
  kassert ((virtual_memory_lookup s.mem pagetable K.kernel_pagetable).pa = K.kernel_pagetable)
    "virtual_memory_lookup(pagetable, (uintptr_t) kernel_pagetable).pa == (uintptr_t) kernel_pagetable"
  kassert ((virtual_memory_lookup s.mem pagetable K.virtual_memory_map).pa
    = K.virtual_memory_map)
    "virtual_memory_lookup(pagetable, (uintptr_t) virtual_memory_map).pa == (uintptr_t) virtual_memory_map"
  .ok { s with cr3 := pagetable }

/-- `pa == 0 || (pa >= IOPHYSMEM && pa < EXTPHYSMEM)` -/
def physical_memory_isreserved (pa : ℕ) : Bool :=
  pa = 0 ∨ (IOPHYSMEM ≤ pa ∧ pa < EXTPHYSMEM)

def virtual_memory_init (K : KernelImage) (s : KState) : Checked KState := do
  let table := fun i => K.kernel_pagetables+i*PAGESIZE
  let flags := PTE_P ||| PTE_W ||| PTE_U
  let m := LibC.memset s.mem K.kernel_pagetables 0 (5*PAGESIZE)
  let m := setEntry m (table 0) 0 (table 1 ||| flags)
  let m := setEntry m (table 1) 0 (table 2 ||| flags)
  let m := setEntry m (table 2) 0 (table 3 ||| flags)
  let m := setEntry m (table 2) 1 (table 4 ||| flags)
  let (_,s) ← virtual_memory_map K.kernel_pagetable 0 0 MEMSIZE_PHYSICAL flags none
    { s with mem := m }
  .ok { s with cr3 := K.kernel_pagetable }

end WeensyOS.PageTables
