import WeensyOS.TimeSharing
import WeensyOS.KeptPages
import WeensyOS.FreshPages
import WeensyOS.ForkRuns

/-!
# The kernel as a time-sharing machine

`machineOf` forgets physical memory: what remains are the processes with their
saved registers and the pages of the user window, the console page that they
share, and the process that executes. Each effect of an exception is described
in these terms.
-/

set_option autoImplicit false

namespace WeensyOS.MachineView
open WeensyOS.FlatMemory WeensyOS.KernelState WeensyOS.PageTables WeensyOS.PageAllocator
open WeensyOS.Exceptions WeensyOS.RadixForest WeensyOS.TableWords WeensyOS.FreePages
open WeensyOS.PagingInvariant WeensyOS.TableCopies WeensyOS.ForkCopies WeensyOS.KernelInvariant
open WeensyOS.KernelSteps WeensyOS.ForkResult WeensyOS.AllocResult WeensyOS.Isolation
open WeensyOS.Effects WeensyOS.Runs WeensyOS.PrivateRuns WeensyOS.KeptPages
open WeensyOS.TimeSharing

abbrev WindowPage := Fin ((MEMSIZE_VIRTUAL-PROC_START_ADDR) / PAGESIZE)

abbrev PageOffset := Fin PAGESIZE

abbrev Process := Task x86_64_registers WindowPage PageOffset UInt8

abbrev ProcessSpace := Space WindowPage PageOffset UInt8

def pageAddr (p : WindowPage) : ℕ := PROC_START_ADDR+p*PAGESIZE

/-- The page and the offset that an address names; the tables decode the low 48 bits. -/
def locate (va : ℕ) : Option (Option WindowPage × PageOffset) :=
  let vp := va % 2^48 / PAGESIZE
  let offset : PageOffset := ⟨va % PAGESIZE,Nat.mod_lt va (by decide)⟩
  if vp = console / PAGESIZE then some (none,offset)
  else if h : 256 ≤ vp ∧ vp < 768 then
    some (some ⟨vp-256,by simp only [MEMSIZE_VIRTUAL, PROC_START_ADDR, PAGESIZE]; omega⟩,offset)
  else none

/-- What an exception with the frame `reg` asks for. -/
def requestOf (reg : x86_64_registers) : Option (Request WindowPage) :=
  if reg.reg_intno = INT_SYS_GETPID then some .identify
  else if reg.reg_intno = INT_SYS_YIELD ∨ reg.reg_intno = INT_TIMER then some .yield
  else if reg.reg_intno = INT_SYS_FORK then some .fork
  else if reg.reg_intno = INT_PAGEFAULT then some .fault
  else if reg.reg_intno = INT_SYS_PAGE_ALLOC then
    (locate reg.reg_rdi.toNat).bind fun x => x.1.map .grow
  else none

def weensy : Interface ℕ x86_64_registers WindowPage PageOffset where
  locate := locate
  request := requestOf
  answer reg r := { reg with reg_rax := toRegister r }

/-- The bytes of the physical page at `a`. -/
def pageBytes (m : Memory) (a : ℕ) : PageOffset → UInt8 := fun k => m (a+k)

/-- The pages of the window that a process can access. -/
def pagesOf (s : KState) (pid : ℕ) : ProcessSpace := fun p =>
  let vam := translation s pid (pageAddr p)
  if (s.processes pid).p_pagetable ≠ NULL ∧ vam.perm &&& PTE_U ≠ 0
    then some (pageBytes s.mem vam.pa) else none

def taskOf (s : KState) (pid : ℕ) : Option Process :=
  if pid < NPROC ∧ (s.processes pid).p_state ≠ .P_FREE then
    some ⟨(s.processes pid).p_registers,(s.processes pid).p_state = .P_RUNNABLE,pagesOf s pid⟩
  else none

def machineOf (out : Outcome) : Machine x86_64_registers WindowPage PageOffset UInt8 where
  tasks := taskOf out.state
  shared k := out.state.mem (console+k)
  running := match out with
    | .user s => some s.current
    | .spin _ => none

variable {K : KernelImage} {label label' : Labels} {s s' t : KState} {reg : x86_64_registers}
  {i r f c pid : ℕ} {res : ℤ} {p : WindowPage}

section Addresses

theorem pageBytes_agree {m m' : Memory} {a : ℕ} (h : Agree m m' a 4096) :
    pageBytes m' a = pageBytes m a :=
  funext fun k => h k k.isLt

theorem pageAddr_vpage (p : WindowPage) : vpage (pageAddr p) = 256+p := by
  have hp := p.isLt
  simp only [MEMSIZE_VIRTUAL, PROC_START_ADDR, PAGESIZE] at hp
  simp only [pageAddr, vpage, PROC_START_ADDR, PAGESIZE]
  omega

theorem pageAddr_window (p : WindowPage) : 256 ≤ vpage (pageAddr p) ∧ vpage (pageAddr p) < 768 := by
  have hp := p.isLt
  simp only [MEMSIZE_VIRTUAL, PROC_START_ADDR, PAGESIZE] at hp
  rw [pageAddr_vpage]
  omega

theorem pageAddr_offset (p : WindowPage) : pageAddr p % 4096 = 0 := by
  simp only [pageAddr, PROC_START_ADDR, PAGESIZE]
  omega

theorem locate_console {va : ℕ} (h : vpage va = 0xB8) :
    locate va = some (none,⟨va % PAGESIZE,Nat.mod_lt va (by decide)⟩) :=
  if_pos h

theorem locate_window {va : ℕ} (p : WindowPage) (h : vpage va = 256+p) :
    locate va = some (some p,⟨va % PAGESIZE,Nat.mod_lt va (by decide)⟩) := by
  have hp := p.isLt
  simp only [MEMSIZE_VIRTUAL, PROC_START_ADDR, PAGESIZE] at hp
  have hv : va % 2^48 / PAGESIZE = 256+p := h
  have hcon : ¬va % 2^48 / PAGESIZE = console / PAGESIZE := by
    rw [hv]
    simp only [console, PAGESIZE]
    omega
  have hwin : 256 ≤ va % 2^48 / PAGESIZE ∧ va % 2^48 / PAGESIZE < 768 := by
    rw [hv]
    omega
  simp only [locate]
  rw [if_neg hcon, dif_pos hwin]
  have hval : va % 2^48 / PAGESIZE-256 = p := by omega
  simp only [hval]

/-- The page of the window that holds an address. -/
theorem window_page {va : ℕ} (h : 256 ≤ vpage va ∧ vpage va < 768) :
    ∃ p : WindowPage, vpage va = 256+p := by
  have hlt : vpage va-256 < (MEMSIZE_VIRTUAL-PROC_START_ADDR) / PAGESIZE := by
    simp only [MEMSIZE_VIRTUAL, PROC_START_ADDR, PAGESIZE]
    omega
  exact ⟨⟨vpage va-256,hlt⟩,by simp only; omega⟩

end Addresses

section Tasks

theorem taskOf_free (h : (s.processes pid).p_state = .P_FREE) : taskOf s pid = none :=
  if_neg fun hp => hp.2 h

theorem taskOf_used (hp : pid < NPROC) (h : (s.processes pid).p_state ≠ .P_FREE) :
    taskOf s pid = some ⟨(s.processes pid).p_registers,
      (s.processes pid).p_state = .P_RUNNABLE,pagesOf s pid⟩ :=
  if_pos ⟨hp,h⟩

theorem taskOf_none_iff (hp : pid < NPROC) :
    taskOf s pid = none ↔ (s.processes pid).p_state = .P_FREE := by
  constructor
  · intro h
    by_contra hne
    rw [taskOf_used hp hne] at h
    cases h
  · exact taskOf_free

/-- A task is determined by the descriptor and the pages. -/
theorem taskOf_congr (hproc : s'.processes pid = s.processes pid)
    (hspace : (s.processes pid).p_state ≠ .P_FREE → pagesOf s' pid = pagesOf s pid) :
    taskOf s' pid = taskOf s pid := by
  simp only [taskOf, hproc]
  by_cases hfree : (s.processes pid).p_state = .P_FREE
  · rw [if_neg fun h => h.2 hfree, if_neg fun h => h.2 hfree]
  · rw [hspace hfree]

theorem pagesOf_null (h : (s.processes pid).p_pagetable = NULL) (p : WindowPage) :
    pagesOf s pid p = none :=
  if_neg fun hp => hp.1 h

theorem pagesOf_quiet (Q : Quiet s s') (pid : ℕ) : pagesOf s' pid = pagesOf s pid := by
  have htable := (Q.procs pid).2.1
  funext p
  simp only [pagesOf, translation, htable, Q.mem]

theorem taskOf_quiet (Q : Quiet s s') (h : s'.processes pid = s.processes pid) :
    taskOf s' pid = taskOf s pid :=
  taskOf_congr h fun _ => pagesOf_quiet Q pid

/-- The assignment to `reg_rax`. -/
theorem taskOf_setRax (hi : i < NPROC) (hused : (t.processes i).p_state ≠ .P_FREE) (v : ℤ) :
    taskOf (t.setRax i v) = Function.update (taskOf t) i
      (some ⟨{ (t.processes i).p_registers with reg_rax := toRegister v },
        (t.processes i).p_state = .P_RUNNABLE,pagesOf t i⟩) := by
  have Q := Quiet.setRax t i v
  funext pid
  by_cases hpi : pid = i
  · rw [hpi, Function.update_self, taskOf_used hi (by rw [setRax_self]; exact hused),
      setRax_self, pagesOf_quiet Q]
  · rw [Function.update_of_ne hpi, taskOf_quiet Q (setRax_other t v hpi)]

end Tasks

section Spaces

variable (I : KInv K label s) (S : Isolated (rootsOf K s) label s)

include I in
theorem pagesOf_frame (hp : Slot pid) (hl : live s pid) {a : ℕ} (hf : Frame a)
    (h : leafWord s.mem (s.processes pid).p_pagetable (pageAddr p) = a+7) :
    pagesOf s pid p = some (pageBytes s.mem a) := by
  have hlook := I.lookup hp hl (pageAddr p)
  rw [h, leafMapping_frame hf (Or.inr rfl), pageAddr_offset, add_zero] at hlook
  have hu : 7 &&& PTE_U ≠ 0 := by decide
  simp only [pagesOf, translation, hlook]
  rw [if_pos ⟨hl.2,hu⟩]

include I in
theorem pagesOf_empty (hp : Slot pid) (hl : live s pid)
    (h : leafWord s.mem (s.processes pid).p_pagetable (pageAddr p) = 0) :
    pagesOf s pid p = none := by
  have hlook := I.lookup hp hl (pageAddr p)
  rw [h, leafMapping_zero] at hlook
  simp only [pagesOf, translation, hlook]
  exact if_neg fun hu => hu.2 rfl

include S in
/-- A page of the window is unmapped or a frame of the process. -/
theorem window_leaf (hp : Slot pid) (hl : live s pid) (p : WindowPage) :
    leafWord s.mem (s.processes pid).p_pagetable (pageAddr p) = 0 ∨ ∃ a,
      leafWord s.mem (s.processes pid).p_pagetable (pageAddr p) = a+7 ∧ OwnFrame label s pid a := by
  by_cases hz : leafWord s.mem (s.processes pid).p_pagetable (pageAddr p) = 0
  · exact Or.inl hz
  · exact Or.inr (S.high _ _ hp.owner (rootsOf_live hp hl) _ (pageAddr_window p).1 hz).2

theorem grows_bytes {o : ℤ} {o' : ℤ} {a : ℕ} (G : Grows o label label' c s s')
    (h : OwnFrame label s o' a) : Agree s.mem s'.mem a 4096 := by
  obtain ⟨hf,hnone,hinfo⟩ := h
  have haddr : a / 4096*4096 = a := by
    have := hf.1
    omega
  have hused : a / 4096 ∉ freePages s := by
    rw [mem_freePages, hinfo]
    exact fun h => info_ne_free _ h.2
  have hbytes := G.bytes (a / 4096) hused fun q hq => by
    rw [haddr, hnone] at hq
    cases hq
  rwa [haddr] at hbytes

include I S in
/-- A page that is mapped as before shows the same bytes. -/
theorem pagesOf_kept (I' : KInv K label' s')
    (hbytes : ∀ a, leafWord s.mem (s.processes pid).p_pagetable (pageAddr p) = a+7 →
      OwnFrame label s pid a → Agree s.mem s'.mem a 4096) (hp : Slot pid) (hl : live s pid) (hl' : live s' pid)
    (htable : (s'.processes pid).p_pagetable = (s.processes pid).p_pagetable)
    (hleaf : leafWord s'.mem (s.processes pid).p_pagetable (pageAddr p) =
      leafWord s.mem (s.processes pid).p_pagetable (pageAddr p)) :
    pagesOf s' pid p = pagesOf s pid p := by
  rcases window_leaf S hp hl p with hz | ⟨a,ha,hown⟩
  · rw [pagesOf_empty I hp hl hz, pagesOf_empty I' hp hl' (by rw [htable, hleaf, hz])]
  · rw [pagesOf_frame I hp hl hown.1 ha, pagesOf_frame I' hp hl' hown.1 (by rw [htable, hleaf, ha])]
    rw [pageBytes_agree (hbytes a ha hown)]

end Spaces

section PageAlloc

variable (I : KInv K label s) (S : Isolated (rootsOf K s) label s)
  (A : Allocated K f res label label' c s t)
include I S A

theorem alloc_pagesOf (hp : pid < NPROC) (hused : (s.processes pid).p_state ≠ .P_FREE)
    (p : WindowPage) : pagesOf t pid p =
      if res = 0 ∧ pid = s.current ∧ vpage (pageAddr p) = vpage (request s)
        then some (pageBytes s.mem (f*4096)) else pagesOf s pid p := by
  have hprocs := A.processes
  by_cases hnull : (s.processes pid).p_pagetable = NULL
  · have hne : ¬(res = 0 ∧ pid = s.current ∧ vpage (pageAddr p) = vpage (request s)) := by
      rintro ⟨-,rfl,-⟩
      exact I.current_live.2 hnull
    rw [if_neg hne, pagesOf_null hnull, pagesOf_null (by rw [hprocs]; exact hnull)]
  · have hl : live s pid := ⟨hused,hnull⟩
    have hslot := live_slot I hp hl
    have I' := A.inv I
    have hl' : live t pid := by
      rw [live, hprocs]
      exact hl
    have hleaf := A.leaf _ _ (pageAddr p) (rootsOf_live hslot hl)
    simp only [Nat.cast_inj] at hleaf
    by_cases hnew : res = 0 ∧ pid = s.current ∧ vpage (pageAddr p) = vpage (request s)
    · rw [if_pos hnew] at hleaf ⊢
      rw [pagesOf_frame I' hslot hl' (free_frame A.fresh) (by rw [hprocs, hleaf]),
        pageBytes_agree A.content]
    · rw [if_neg hnew] at hleaf ⊢
      exact pagesOf_kept I S I' (fun _ _ => grows_bytes A.grows) hslot hl hl' (by rw [hprocs]) hleaf

theorem alloc_other_task (hne : pid ≠ s.current) : taskOf t pid = taskOf s pid := by
  by_cases hp : pid < NPROC
  · refine taskOf_congr (by rw [A.processes]) fun hused => ?_
    funext p
    rw [alloc_pagesOf I S A hp hused, if_neg fun h => hne h.2.1]
  · simp only [taskOf, hp, false_and, if_false]

theorem alloc_new_space (hres : res = 0) (hpage : vpage (request s) = 256+p) :
    pagesOf t s.current = Function.update (pagesOf s s.current) p
      (some (pageBytes s.mem (f*4096))) := by
  funext q
  rw [alloc_pagesOf I S A I.current_slot.2 I.current_live.1, pageAddr_vpage, hpage]
  by_cases hq : q = p
  · rw [hq, Function.update_self, if_pos ⟨hres,rfl,rfl⟩]
  · have hne : (q : ℕ) ≠ p := fun h => hq (Fin.ext h)
    rw [Function.update_of_ne hq, if_neg fun h => hne (by omega)]

end PageAlloc

section Forks

variable (I : KInv K label s) (S : Isolated (rootsOf K s) label s) (hslot : free_slot s = some i)
include I hslot

omit I in
theorem nullChild_tasks : taskOf (nullChild i s) = Function.update (taskOf s) i
    (some ⟨(s.processes s.current).p_registers,true,fun _ => none⟩) := by
  obtain ⟨hi,hfree,-⟩ := free_slot_some hslot
  funext pid
  by_cases hpi : pid = i
  · have hspace : pagesOf (nullChild i s) i = fun _ => none := by
      funext p
      exact pagesOf_null (by rw [nullChild_child]) p
    rw [hpi, Function.update_self, taskOf_used hi.2 (by rw [nullChild_child]; simp), hspace,
      nullChild_child]
    rfl
  · rw [Function.update_of_ne hpi]
    refine taskOf_congr (nullChild_other hpi) fun _ => ?_
    funext p
    simp only [pagesOf, translation, nullChild_other hpi]
    rfl

variable (F : Forked K i r label label' c s t)
include S F

theorem forked_other_task (hpi : pid ≠ i) : taskOf t pid = taskOf s pid := by
  by_cases hp : pid < NPROC
  · refine taskOf_congr (F.other hpi) fun hused => ?_
    funext p
    by_cases hnull : (s.processes pid).p_pagetable = NULL
    · rw [pagesOf_null hnull, pagesOf_null (by rw [F.other hpi]; exact hnull)]
    · have hl : live s pid := ⟨hused,hnull⟩
      have hs := live_slot I hp hl
      have hbytes : ∀ a, OwnFrame label s pid a → Agree s.mem t.mem a 4096 := by
        intro a ha
        have h := grows_bytes F.grows ha
        exact h
      exact pagesOf_kept I S (F.inv I hslot) (fun a _ => hbytes a) hs hl ((F.live_other hpi).2 hl)
        (by rw [F.other hpi]) (F.leaf_other I hs hl hpi _)
  · simp only [taskOf, hp, false_and, if_false]

omit I S hslot in
theorem forked_child_live : live t i := by
  rw [live, F.child]
  exact ⟨by simp,F.null⟩

omit S in
/-- A page of the child is missing or a copy of its parent's. -/
theorem forked_child_space (p : WindowPage) :
    pagesOf t i p = none ∨ pagesOf t i p = pagesOf s s.current p := by
  obtain ⟨hi,-,-⟩ := free_slot_some hslot
  have I' := F.inv I hslot
  have hl := forked_child_live F
  have htable : (t.processes i).p_pagetable = r := by rw [F.child]
  rcases F.high _ (pageAddr_window p).1 with hz | ⟨-,f,C⟩
  · exact Or.inl (pagesOf_empty I' hi hl (by rw [htable, hz]))
  · right
    obtain ⟨a,ha,hw,hbytes⟩ := C.bytes
    rw [pagesOf_frame I' hi hl (free_frame C.fresh) (by rw [htable, C.leaf]),
      pagesOf_frame I I.current_slot I.current_live ha hw]
    have hcopy : pageBytes t.mem (f*4096) = pageBytes s.mem a := funext fun k => hbytes k k.isLt
    rw [hcopy]

theorem forked_complete_space (C : Complete i r label' s t) :
    pagesOf t i = pagesOf s s.current := by
  obtain ⟨hi,-,-⟩ := free_slot_some hslot
  have I' := F.inv I hslot
  have hl := forked_child_live F
  have htable : (t.processes i).p_pagetable = r := by rw [F.child]
  funext p
  rcases forked_child_space I hslot F p with hnone | hsame
  · rcases window_leaf S I.current_slot I.current_live p with hz | ⟨a,ha,-⟩
    · rw [hnone, pagesOf_empty I I.current_slot I.current_live hz]
    · -- a page of the parent has been copied
      obtain ⟨hmem,hpage⟩ := mem_window_vpage (pageAddr_window p)
      have hne : leafWord s.mem (currentTable s) (vpage (pageAddr p)*4096) ≠ 0 := by
        rw [leafWord_congr_page hpage]
        exact ha ▸ Nat.succ_ne_zero _
      obtain ⟨f,C'⟩ := C.copies _ hmem hne
      have hleaf := C'.leaf
      rw [leafWord_congr_page hpage, ← htable] at hleaf
      rw [pagesOf_frame I' hi hl (free_frame C'.fresh) hleaf] at hnone
      cases hnone
  · exact hsame

theorem forked_tasks : taskOf t = Function.update (taskOf s) i
    (some ⟨(s.processes s.current).p_registers,true,pagesOf t i⟩) := by
  obtain ⟨hi,-,-⟩ := free_slot_some hslot
  funext pid
  by_cases hpi : pid = i
  · rw [hpi, Function.update_self, taskOf_used hi.2 (forked_child_live F).1, F.child]
    rfl
  · rw [Function.update_of_ne hpi, forked_other_task I S hslot F hpi]

end Forks

end WeensyOS.MachineView
