import WeensyOS.PageTables

/-!
# Physical pages and new page tables

The page allocator of kernel.c and the copying of page tables. The owner of a
new table is not an argument of `pagetable_alloc`: it is read from the global
`__pagetable_owner__`, which the callers set beforehand.
-/

set_option autoImplicit false

namespace WeensyOS.PageAllocator
open WeensyOS.FlatMemory WeensyOS.KernelState WeensyOS.PageTables

def assign_physical_page (addr : ℕ) (owner : ℤ) (s : KState) : ℤ × KState :=
  let pn := (PAGENUMBER addr).toNat
  if addr &&& 0xFFF ≠ 0 ∨ addr ≥ MEMSIZE_PHYSICAL ∨ (s.pageinfo pn).refcount ≠ 0 then (-1,s)
  else (0,s.setPageinfo pn ⟨owner,1⟩)

def get_free_addr_loop (owner : ℤ) : List ℕ → KState → ℕ × KState
  | [], s => (OUTOFMEMORY,s)
  | addr::rest, s =>
    let info := s.pageinfo (PAGENUMBER addr).toNat
    if info.refcount = 0 ∧ info.owner = PO_FREE then
      let (r,s) := assign_physical_page addr owner s
      if r = 0 then (addr,s) else (OUTOFMEMORY,s)
    else get_free_addr_loop owner rest s

def get_free_addr (owner : ℤ) (s : KState) : ℕ × KState :=
  get_free_addr_loop owner (addrs 0 MEMSIZE_PHYSICAL) s

def pagetable_alloc : Allocator KState := fun s =>
  let (new_pagetable,s) := get_free_addr s.pagetable_owner s
  if new_pagetable = NULL then (NULL,s)
  else (new_pagetable,{ s with mem := LibC.memset s.mem new_pagetable 0 PAGESIZE })

def copy_pagetable_loop (pagetable new_pagetable : ℕ) : List ℕ → KState → Checked KState
  | [], s => .ok s
  | va::rest, s => do
    let mapping := virtual_memory_lookup s.mem pagetable va
    if mapping.perm ≠ 0 then
      let (r,s) ← virtual_memory_map new_pagetable va mapping.pa PAGESIZE mapping.perm
        (some pagetable_alloc) s
      if r ≠ 0 then .error (.panic "Copy pagetable failed...")
      else copy_pagetable_loop pagetable new_pagetable rest s
    else copy_pagetable_loop pagetable new_pagetable rest s

def copy_pagetable (pagetable : ℕ) (owner : ℤ) (s : KState) : Checked (ℕ × KState) := do
  let s := { s with pagetable_owner := owner }
  let (new_pagetable,s) := pagetable_alloc s
  if new_pagetable = NULL then .ok (NULL,s)
  else
    let s ← copy_pagetable_loop pagetable new_pagetable (addrs 0 PROC_START_ADDR) s
    .ok (new_pagetable,s)

end WeensyOS.PageAllocator
