import WeensyOS.PageTables

/-!
# The kernel's own checks

`check_virtual_memory` and what it calls, and the assertions of the memory
display. The drawing itself is left out.
-/

set_option autoImplicit false

namespace WeensyOS.Checks
open WeensyOS.FlatMemory WeensyOS.KernelState WeensyOS.PageTables

def check_page_table_mapping (K : KernelImage) (pt : ℕ) (s : KState) (va : ℕ) :
    Checked Unit := do
  let vam := virtual_memory_lookup s.mem pt va
  kassert (vam.pa = va) "vam.pa == va"
  if va ≥ K.start_data then kassert (vam.perm &&& PTE_W ≠ 0) "vam.perm & PTE_W"

def check_page_table_mappings (K : KernelImage) (pt : ℕ) (s : KState) : Checked Unit := do
  kassert (PTE_ADDR pt = pt) "PTE_ADDR(pt) == (uintptr_t) pt"
  (addrs KERNEL_START_ADDR K.kernel_end).forM (check_page_table_mapping K pt s)
  let kstack := KERNEL_STACK_TOP-PAGESIZE
  let vam := virtual_memory_lookup s.mem pt kstack
  kassert (vam.pa = kstack) "vam.pa == kstack"
  kassert (vam.perm &&& PTE_W ≠ 0) "vam.perm & PTE_W"

/-- The recursion over levels, with the number of levels below `pt`. -/
def check_page_table_ownership_level (s : KState) :
    ℕ → ℕ → ℤ → ℤ → Checked Unit
  | 0, pt, owner, refcount => do
    kassert (PAGENUMBER pt < NPAGES) "PAGENUMBER(pt) < NPAGES"
    kassert ((s.pageinfo (PAGENUMBER pt).toNat).owner = owner)
      "pageinfo[PAGENUMBER(pt)].owner == owner"
    kassert ((s.pageinfo (PAGENUMBER pt).toNat).refcount = refcount)
      "pageinfo[PAGENUMBER(pt)].refcount == refcount"
  | below+1, pt, owner, refcount => do
    kassert (PAGENUMBER pt < NPAGES) "PAGENUMBER(pt) < NPAGES"
    kassert ((s.pageinfo (PAGENUMBER pt).toNat).owner = owner)
      "pageinfo[PAGENUMBER(pt)].owner == owner"
    kassert ((s.pageinfo (PAGENUMBER pt).toNat).refcount = refcount)
      "pageinfo[PAGENUMBER(pt)].refcount == refcount"
    (List.range NPAGETABLEENTRIES).forM fun index =>
      if entry s.mem pt index ≠ 0 then
        check_page_table_ownership_level s below (PTE_ADDR (entry s.mem pt index)) owner 1
      else .ok ()

def check_page_table_ownership (K : KernelImage) (pt : ℕ) (pid : ℤ) (s : KState) :
    Checked Unit :=
  if pt = K.kernel_pagetable then
    let shared := (List.range NPROC).filter fun xpid =>
      (s.processes xpid).p_state ≠ .P_FREE ∧ (s.processes xpid).p_pagetable = K.kernel_pagetable
    check_page_table_ownership_level s 3 pt PO_KERNEL (1+shared.length)
  else check_page_table_ownership_level s 3 pt pid 1

def check_virtual_memory (K : KernelImage) (s : KState) : Checked Unit := do
  kassert ((s.processes 0).p_state = .P_FREE) "processes[0].p_state == P_FREE"
  check_page_table_mappings K K.kernel_pagetable s
  check_page_table_ownership K K.kernel_pagetable (-1) s
  (List.range NPROC).forM fun pid =>
    if (s.processes pid).p_state ≠ .P_FREE
        ∧ (s.processes pid).p_pagetable ≠ K.kernel_pagetable then do
      check_page_table_mappings K (s.processes pid).p_pagetable s
      check_page_table_ownership K (s.processes pid).p_pagetable pid s
    else .ok ()
  (List.range NPAGES).forM fun pn =>
    if (s.pageinfo pn).refcount > 0 ∧ (s.pageinfo pn).owner ≥ 0 then
      kassert ((s.processes (s.pageinfo pn).owner.toNat).p_state ≠ .P_FREE)
        "processes[pageinfo[pn].owner].p_state != P_FREE"
    else .ok ()

def memshow_virtual (pagetable : ℕ) (s : KState) : Checked Unit := do
  kassert (pagetable = PTE_ADDR pagetable) "(uintptr_t) pagetable == PTE_ADDR(pagetable)"
  (addrs 0 MEMSIZE_VIRTUAL).forM fun va =>
    let vam := virtual_memory_lookup s.mem pagetable va
    if vam.pn < 0 then .ok ()
    else kassert (vam.pa < MEMSIZE_PHYSICAL) "vam.pa < MEMSIZE_PHYSICAL"

/-- `while (showing <= 2*NPROC && processes[showing % NPROC].p_state == P_FREE)` -/
def skip_free (s : KState) : ℕ → ℕ → ℕ
  | 0, showing => showing
  | left+1, showing =>
    if (s.processes (showing % NPROC)).p_state = .P_FREE then skip_free s left (showing+1)
    else showing

def memshow_virtual_animate (s : KState) : Checked KState := do
  let s := if s.last_ticks = 0 ∨ s.ticks-s.last_ticks ≥ HZ/2
    then { s with last_ticks := s.ticks, showing := s.showing+1 } else s
  let showing := skip_free s (2*NPROC+1-s.showing) s.showing % NPROC
  let s := { s with showing := showing }
  if (s.processes showing).p_state ≠ .P_FREE then
    memshow_virtual (s.processes showing).p_pagetable s
  .ok s

end WeensyOS.Checks
