import WeensyOS.RandomNumbers
import WeensyOS.KernelState

/-!
# The user programs

`process_main` of p-allocator.c and p-fork.c as state machines: what the program
does next, as a function of its variables and of the results of its calls. The
two share the loop that fills the heap; p-fork.c makes copies of itself first.
-/

set_option autoImplicit false

namespace WeensyOS.UserPrograms
open WeensyOS.KernelState WeensyOS.RandomNumbers

abbrev ALLOC_SLOWDOWN : ℤ := 100

def ROUNDDOWN (a n : ℕ) : ℕ := a-a % n

def ROUNDUP (a n : ℕ) : ℕ := ROUNDDOWN (a+n-1) n

/-- Where a process is in `process_main`. -/
inductive Point where
  | firstFork
  | firstAssert
  | secondFork
  | secondAssert
  | forkedAssert
  | start
  | loop
  | request
  | write
  | pause
  | done
  | assertFail
deriving DecidableEq

/-- The symbol `end`, the stack pointer in `process_main`, and the variables. -/
structure Program where
  point : Point
  end_symbol : ℕ
  rsp : ℕ
  p1 : ℤ
  p2 : ℤ
  p : ℤ
  heap_top : ℕ
  stack_bottom : ℕ
  random : rand_state
deriving DecidableEq

/-- A computation, a call whose result the program waits for, or a store. -/
inductive Deed where
  | compute (q : Program)
  | call (intno : UInt64) (rdi : Option ℕ) (k : ℤ → Program)
  | store (va : ℕ) (c : UInt8) (q : Program)

/-- `srand(p)` and the bounds of the heap, once the process knows who it is. -/
def Program.started (q : Program) (p : ℤ) : Program := { q with
  point := .loop
  p := p
  random := srand (UInt32.ofInt p)
  heap_top := ROUNDUP q.end_symbol PAGESIZE
  stack_bottom := ROUNDDOWN (q.rsp-1) PAGESIZE }

/-- The test of p-fork.c after its forks. -/
def Program.forksFit (q : Program) (pid : ℤ) : Prop :=
  if pid = 1 then q.p1 ≠ 0 ∧ q.p2 ≠ 0 ∧ q.p1 ≠ q.p2 else q.p1 = 0 ∨ q.p2 = 0

instance (q : Program) (pid : ℤ) : Decidable (q.forksFit pid) := by
  unfold Program.forksFit
  infer_instance

def Program.next (no_slowdown : Bool) (q : Program) : Deed :=
  match q.point with
  | .firstFork => .call INT_SYS_FORK none fun r => { q with point := .firstAssert, p1 := r }
  | .firstAssert => .compute { q with point := if q.p1 ≥ 0 then .secondFork else .assertFail }
  | .secondFork => .call INT_SYS_FORK none fun r => { q with point := .secondAssert, p2 := r }
  | .secondAssert => .compute { q with point := if q.p2 ≥ 0 then .forkedAssert else .assertFail }
  | .forkedAssert => .call INT_SYS_GETPID none fun r =>
    { q with point := if q.forksFit r then .start else .assertFail }
  | .start => .call INT_SYS_GETPID none q.started
  | .loop =>
    -- `if ((rand() % ALLOC_SLOWDOWN) < p)` unless `NO_SLOWDOWN`
    let (x,random) := if no_slowdown then (0,q.random) else rand q.random
    let taken := no_slowdown ∨ x % ALLOC_SLOWDOWN < q.p
    .compute { q with
      random := random
      point := if ¬taken then .pause else if q.heap_top = q.stack_bottom then .done else .request }
  | .request => .call INT_SYS_PAGE_ALLOC (some q.heap_top) fun r =>
    { q with point := if r < 0 then .done else .write }
  | .write => .store q.heap_top (UInt8.ofInt q.p)
    { q with point := .pause, heap_top := q.heap_top+PAGESIZE }
  | .pause => .call INT_SYS_YIELD none fun _ => { q with point := .loop }
  | .done => .call INT_SYS_YIELD none fun _ => q
  | .assertFail => .call INT_SYS_PANIC none fun _ => q

/-- Where `process_main` begins. -/
structure Fresh (q : Program) : Prop where
  point : q.point = .start ∨ q.point = .firstFork
  heap_top : q.heap_top = 0

/-- The image ends below the stack page, and the stack needs one page. -/
structure LaidOut (q : Program) : Prop where
  low : PROC_START_ADDR ≤ q.end_symbol
  high : q.end_symbol ≤ MEMSIZE_VIRTUAL-PAGESIZE
  stack : MEMSIZE_VIRTUAL-PAGESIZE < q.rsp ∧ q.rsp ≤ MEMSIZE_VIRTUAL

/-- The first page of the heap. -/
abbrev Program.heap (q : Program) : ℕ := ROUNDUP q.end_symbol PAGESIZE

section Heap

variable {q : Program}

theorem LaidOut.heap (F : LaidOut q) : q.heap % 4096 = 0 ∧ PROC_START_ADDR ≤ q.heap ∧
    q.heap ≤ MEMSIZE_VIRTUAL-PAGESIZE := by
  have hlow := F.low
  have hhigh := F.high
  simp only [Program.heap, ROUNDUP, ROUNDDOWN, PROC_START_ADDR, MEMSIZE_VIRTUAL, PAGESIZE] at *
  omega

/-- The stack page is the last of the window. -/
theorem LaidOut.stack_bottom (F : LaidOut q) :
    ROUNDDOWN (q.rsp-1) PAGESIZE = MEMSIZE_VIRTUAL-PAGESIZE := by
  have hstack := F.stack
  simp only [ROUNDDOWN, MEMSIZE_VIRTUAL, PAGESIZE] at *
  omega

end Heap

end WeensyOS.UserPrograms
