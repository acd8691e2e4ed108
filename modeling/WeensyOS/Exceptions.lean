import WeensyOS.PageAllocator
import WeensyOS.Checks

/-!
# Fork, exceptions and scheduling

`fork`, `exception`, `schedule` and `run`. `run` does not return: it ends the
handling of an exception with one process executing. It is followed here up to
the load of `cr3`; whether the processor then gets through `exception_return`
is the subject of ReturnPath. No key is typed, so `check_keyboard` does nothing,
and `TICK_LIMIT` is zero as in build/rules.mk.
-/

set_option autoImplicit false

namespace WeensyOS.Exceptions
open WeensyOS.FlatMemory WeensyOS.KernelState WeensyOS.PageTables
open WeensyOS.PageAllocator WeensyOS.Checks

/-- The copying loop of `fork`; `false` where it gives up. -/
def fork_loop (i : ℕ) : List ℕ → KState → Checked (Bool × KState)
  | [], s => .ok (true,s)
  | va::rest, s => do
    let mapping := virtual_memory_lookup s.mem (s.processes s.current).p_pagetable va
    if mapping.perm &&& PTE_W ≠ 0 then
      let (new_pa,s) := get_free_addr i s
      if new_pa = OUTOFMEMORY then .ok (false,s)
      else
        let s := { s with mem := LibC.memcpy s.mem new_pa mapping.pa PAGESIZE }
        let (r,s) ← virtual_memory_map (s.processes i).p_pagetable va new_pa PAGESIZE
          mapping.perm (some pagetable_alloc) s
        if r ≠ 0 then .ok (false,s) else fork_loop i rest s
    else fork_loop i rest s

/-- The body of `fork` for the slot `i` it has found. -/
def fork_into (i : ℕ) (s : KState) : Checked KState := do
  let s := s.setState i .P_RUNNABLE
  let s := s.setRegisters i (s.processes s.current).p_registers
  let s := s.setProc i { s.processes i with p_pid := i }
  let (new_pagetable,s) ← copy_pagetable (s.processes s.current).p_pagetable i s
  let s := s.setPagetable i new_pagetable
  if new_pagetable = NULL then .ok (s.setRax s.current FAILED)
  else
    let (copied,s) ← fork_loop i (addrs PROC_START_ADDR MEMSIZE_VIRTUAL) s
    if copied then .ok ((s.setRax s.current i).setRax i 0)
    else .ok (s.setRax s.current FAILED)

/-- `for (pid_t i = 1; i < NPROC; i++) if (processes[i].p_state == P_FREE)` -/
def free_slot (s : KState) : Option ℕ :=
  (List.range' 1 (NPROC-1)).find? fun i => (s.processes i).p_state = .P_FREE

def fork (s : KState) : Checked KState :=
  match free_slot s with
  | some i => fork_into i s
  | none => .ok (s.setRax s.current FAILED)

/-- The case `INT_SYS_PAGE_ALLOC` of `exception`. -/
def sys_page_alloc (s : KState) : Checked KState := do
  let addr := (s.processes s.current).p_registers.reg_rdi.toNat
  let pid := (s.processes s.current).p_pid
  let (pa,s) := get_free_addr pid s
  let s := { s with pagetable_owner := pid }
  if pa ≠ OUTOFMEMORY then
    let (result,s) ← virtual_memory_map (s.processes s.current).p_pagetable addr pa PAGESIZE
      (PTE_P ||| PTE_W ||| PTE_U) (some pagetable_alloc) s
    .ok (s.setRax s.current result)
  else .ok (s.setRax s.current FAILED)

/-- How the kernel leaves an exception: back in the process `current`, or
spinning in `schedule` because no process is runnable. -/
inductive Outcome where
  | user (s : KState)
  | spin (s : KState)

def Outcome.state : Outcome → KState
  | .user s => s
  | .spin s => s

/-- `run` before its `exception_return(&p->p_registers)`. -/
def run (K : KernelImage) (p : ℕ) (s : KState) : Checked Outcome := do
  kassert ((s.processes p).p_state = .P_RUNNABLE) "p->p_state == P_RUNNABLE"
  let s := { s with current := p }
  let s ← set_pagetable K (s.processes p).p_pagetable s
  .ok (.user s)

/-- The first runnable process within the given number of probes after `pid`. -/
def schedule_loop (s : KState) : ℕ → ℕ → Option ℕ
  | 0, _ => none
  | left+1, pid =>
    let pid := (pid+1) % NPROC
    if (s.processes pid).p_state = .P_RUNNABLE then some pid else schedule_loop s left pid

/-- After `NPROC` probes every slot has been seen and nothing has changed, so a
schedule that has not found a process by then never does. -/
def schedule (K : KernelImage) (s : KState) : Checked Outcome :=
  match schedule_loop s NPROC (s.processes s.current).p_pid with
  | some pid => run K pid s
  | none => .ok (.spin s)

/-- `exception` up to its `switch`. -/
def exception_enter (K : KernelImage) (reg : x86_64_registers) (s : KState) :
    Checked KState := do
  let s := s.setRegisters s.current reg
  let s ← set_pagetable K K.kernel_pagetable s
  if reg.reg_intno ≠ INT_PAGEFAULT ∨ reg.reg_err &&& PFERR_USER ≠ 0 then
    check_virtual_memory K s
    memshow_virtual_animate s
  else .ok s

/-- The end of `exception`: return to the current process or run another. -/
def exception_leave (K : KernelImage) (s : KState) : Checked Outcome :=
  if (s.processes s.current).p_state = .P_RUNNABLE then run K s.current s else schedule K s

/-- `exception` from its `switch` on. -/
def exception_handle (K : KernelImage) (reg : x86_64_registers) (s : KState) :
    Checked Outcome :=
  if reg.reg_intno = INT_SYS_PANIC then .error (.panic "PANIC")
  else if reg.reg_intno = INT_SYS_GETPID then
    exception_leave K (s.setRax s.current (s.processes s.current).p_pid)
  else if reg.reg_intno = INT_SYS_YIELD then schedule K s
  else if reg.reg_intno = INT_SYS_PAGE_ALLOC then do
    let s ← sys_page_alloc s
    exception_leave K s
  else if reg.reg_intno = INT_SYS_FORK then do
    let s ← fork s
    exception_leave K s
  else if reg.reg_intno = INT_TIMER then schedule K { s with ticks := s.ticks+1 }
  else if reg.reg_intno = INT_PAGEFAULT then
    if reg.reg_err &&& PFERR_USER = 0 then
      .error (.panic "Kernel page fault for %p (%s %s, rip=%p)!\n")
    else exception_leave K (s.setState s.current .P_BROKEN)
  else .error (.panic "Unexpected exception %d!\n")

def exception (K : KernelImage) (reg : x86_64_registers) (s : KState) : Checked Outcome := do
  let s ← exception_enter K reg s
  exception_handle K reg s

end WeensyOS.Exceptions
