import WeensyOS.Exhaustion

/-!
# Page allocation along runs

What a request for a page does in a reachable state, for every 64-bit address.
The handler never compares the address with `PROC_START_ADDR`, takes the page
before it tries to map it, and asserts that the address is aligned.
-/

set_option autoImplicit false

namespace WeensyOS.AllocRuns
open WeensyOS.FlatMemory WeensyOS.KernelState WeensyOS.PageTables WeensyOS.PageAllocator
open WeensyOS.Checks WeensyOS.Exceptions WeensyOS.Boot WeensyOS.CheckedRuns WeensyOS.RadixForest
open WeensyOS.TableWords WeensyOS.FreePages WeensyOS.PagingInvariant WeensyOS.PageMaps
open WeensyOS.TableCopies WeensyOS.ForkCopies WeensyOS.KernelInvariant WeensyOS.KernelChecks
open WeensyOS.KernelSteps WeensyOS.ForkResult WeensyOS.AllocResult WeensyOS.Isolation
open WeensyOS.BootResult WeensyOS.BootRun WeensyOS.Effects WeensyOS.Runs WeensyOS.PrivateRuns
open WeensyOS.SelfChecks WeensyOS.Exhaustion

variable {K : KernelImage} {allow : KState → x86_64_registers → Prop} {label label' : Labels}
  {s s' t : KState} {reg : x86_64_registers} {out : Outcome} {f c pid : ℕ} {res : ℤ}

section Outcome

/-- Nothing is left to hand out. -/
abbrev NoFreePage (s : KState) : Prop := ∀ pn < NPAGES, s.pageinfo pn ≠ ⟨PO_FREE,0⟩

theorem no_free_page : NoFreePage s ↔ freePages s = ∅ := by
  constructor
  · intro h
    exact Finset.eq_empty_of_forall_notMem fun pn hpn =>
      h pn ((mem_freePages s pn).1 hpn).1 ((mem_freePages s pn).1 hpn).2
  · intro h pn hpn hfree
    exact Finset.notMem_empty pn (h ▸ (mem_freePages s pn).2 ⟨hpn,hfree⟩)

/-- The requested address can be mapped: its index is not taken for the empty cache of
`virtual_memory_map`, and there are pages for it and its missing tables. -/
def Mappable (s : KState) : Prop :=
  index123 (request s) ≠ -1 ∧
    1+tablesMissing s.mem (currentTable s) (request s) ≤ freeCount s

/-- A refused request changes the caller's `reg_rax` and the pending owner only. -/
theorem refused_quiet (s : KState) :
    Quiet s ({ s with pagetable_owner := s.current }.setRax s.current FAILED) := by
  have Q : Quiet s { s with pagetable_owner := s.current } := ⟨rfl,rfl,fun _ => ⟨Iff.rfl,rfl,rfl⟩⟩
  exact Q.trans (Quiet.setRax _ _ _)

variable (I : KInv K label s)
include I

/-- Below `PROC_START_ADDR` every table exists. -/
theorem low_mappable (hfree : freePages s ≠ ∅) (hlow : vpage (request s) < 256) :
    Mappable s := by
  refine ⟨index123_ne _ (by omega),?_⟩
  have hleaf := I.low _ I.current_slot I.current_live (request s) hlow
  have hpos : freeCount s ≠ 0 := fun h => hfree ((freeCount_eq_zero s).1 h)
  rw [tablesMissing_leaf _ _ _ hleaf]
  omega

theorem alloc_mapped (hva : request s % 4096 = 0) (h : Mappable s) : ∃ f c label' t,
    sys_page_alloc s = .ok (t.setRax s.current 0) ∧ Allocated K f 0 label label' c s t := by
  obtain ⟨f,label',t,hrun,A⟩ := page_alloc_mapped I hva h.1 h.2
  exact ⟨f,_,label',t,hrun,A⟩

theorem alloc_unmapped (hva : request s % 4096 = 0) (hfree : freePages s ≠ ∅)
    (h : ¬Mappable s) : ∃ f c label' t,
    sys_page_alloc s = .ok (t.setRax s.current (-1)) ∧ Allocated K f (-1) label label' c s t := by
  rw [Mappable, not_and_or, not_not, Nat.not_le] at h
  obtain ⟨f,label',c,t,hrun,A⟩ := page_alloc_failed I hva hfree h
  exact ⟨f,c,label',t,hrun,A⟩

/-- No page of the kernel image or of its stack is handed out. -/
theorem kernel_used {a : ℕ} (ha : (KERNEL_START_ADDR ≤ a ∧ a < K.kernel_end) ∨
    (KERNEL_STACK_TOP-PAGESIZE ≤ a ∧ a < KERNEL_STACK_TOP)) : a / 4096 ∉ freePages s := by
  intro hmem
  obtain ⟨-,hfree⟩ := (mem_freePages s _).1 hmem
  have hend := K.end_below_stack
  simp only [KERNEL_START_ADDR, KERNEL_STACK_TOP, PAGESIZE] at ha hend
  have hentry : pageinfo_init_entry K (a / 4096*4096) = ⟨PO_KERNEL,1⟩ := by
    have hreserved : physical_memory_isreserved (a / 4096*4096) = false := by
      simp only [physical_memory_isreserved, decide_eq_false_iff_not, IOPHYSMEM, EXTPHYSMEM]
      omega
    have hkernel : (KERNEL_START_ADDR ≤ a / 4096*4096 ∧ a / 4096*4096 < K.kernel_end) ∨
        a / 4096*4096 = KERNEL_STACK_TOP-PAGESIZE := by
      simp only [KERNEL_START_ADDR, KERNEL_STACK_TOP, PAGESIZE]
      omega
    rw [pageinfo_init_entry, hreserved, if_neg (by decide), if_pos hkernel]
    rfl
  rw [I.paging.marked (a / 4096) (by omega) (by rw [hentry]; decide), hentry] at hfree
  exact absurd hfree (by decide)

/-- Translations after the call, for every process. -/
theorem alloc_translation (A : Allocated K f res label label' c s t) (hp : Slot pid)
    (hl : live s pid) (va : ℕ) (v : ℤ) : translation (t.setRax s.current v) pid va =
      if res = 0 ∧ pid = s.current ∧ vpage va = vpage (request s)
        then ⟨f,f*4096+va % 4096,7⟩ else translation s pid va := by
  have hprocs := A.processes
  have htable : ((t.setRax s.current v).processes pid).p_pagetable =
      (s.processes pid).p_pagetable := by
    rw [((Quiet.setRax t s.current v).procs pid).2.1, hprocs]
  have I' := A.inv I
  have hl' : live t pid := by
    rw [live, hprocs]
    exact hl
  have hlook := I'.lookup hp hl' va
  rw [hprocs] at hlook
  have hmem : (t.setRax s.current v).mem = t.mem := rfl
  rw [translation, htable, hmem, hlook, A.leaf _ _ va (rootsOf_live hp hl)]
  by_cases hcond : res = 0 ∧ pid = s.current ∧ vpage va = vpage (request s)
  · have hcond' : res = 0 ∧ (pid : ℤ) = s.current ∧ vpage va = vpage (request s) :=
      ⟨hcond.1,congrArg Nat.cast hcond.2.1,hcond.2.2⟩
    have hdiv : f*4096 / 4096 = f := by omega
    rw [if_pos hcond, if_pos hcond', leafMapping_frame (free_frame A.fresh) (Or.inr rfl), hdiv]
  · have hcond' : ¬(res = 0 ∧ (pid : ℤ) = s.current ∧ vpage va = vpage (request s)) :=
      fun h => hcond ⟨h.1,Int.ofNat.inj h.2.1,h.2.2⟩
    rw [if_neg hcond, if_neg hcond', translation, I.lookup hp hl]

/-- No process could access the page before, so what it maps now is new. -/
theorem fresh_translation (A : Allocated K f res label label' c s t) (hp : Slot pid)
    (hl : live s pid) (va : ℕ) : translation s pid va ≠ ⟨f,f*4096+va % 4096,7⟩ := by
  intro h
  have hlook := I.lookup hp hl va
  have hleaf := I.leaf hp hl va
  rw [translation, hlook] at h
  have hne := fun hw : leafWord s.mem (s.processes pid).p_pagetable va = f*4096+7 =>
    leaf_used I.paging (rootsOf_live hp hl) hp.ne_kernel hw A.fresh
  generalize hw : leafWord s.mem (s.processes pid).p_pagetable va = e at h hleaf hne
  cases hleaf with
  | empty =>
    rw [leafMapping_zero] at h
    exact absurd (congrArg vamapping.perm h) (by simp [vamapping.unmapped])
  | kernel a hf hlow =>
    rw [leafMapping_frame hf (Or.inl rfl)] at h
    exact absurd (congrArg vamapping.perm h) (by simp)
  | console hlow =>
    rw [leafMapping_frame ⟨by decide,by decide⟩ (Or.inr rfl)] at h
    have hpa := congrArg vamapping.pa h
    simp only at hpa
    exact hne (by omega)
  | user a hf hu =>
    rw [leafMapping_frame hf (Or.inr rfl)] at h
    have hpa := congrArg vamapping.pa h
    simp only at hpa
    exact hne (by omega)

end Outcome

section Low

/-- A request leaves every mapping below `PROC_START_ADDR` alone exactly when it names no page
there, as the tables decode it, or when no page is free. -/
theorem low_mappings_kept_iff (hK : Loadable K) (C : Call K Any reg s t)
    (hva : reg.reg_rdi.toNat % PAGESIZE = 0) :
    (∀ s', sys_page_alloc t = .ok s' → ∀ pid < NPROC, live t pid → ∀ va < PROC_START_ADDR,
      translation s' pid va = translation t pid va) ↔
    PROC_START_ADDR ≤ reg.reg_rdi.toNat % 2^48 ∨ NoFreePage t := by
  obtain ⟨label,X,E,-,I⟩ := C.inv hK
  have hreq := entered_request E
  have hva' : request t % 4096 = 0 := by rw [hreq]; exact hva
  rw [no_free_page]
  constructor
  · intro hkept
    by_contra hbad
    rw [not_or, Nat.not_le] at hbad
    obtain ⟨hlow,hfree⟩ := hbad
    have hv : vpage (request t) < 256 := by
      rw [hreq, vpage]
      simp only [PROC_START_ADDR] at hlow
      omega
    obtain ⟨f,c,label',u,hrun,A⟩ := alloc_mapped I hva' (low_mappable I hfree hv)
    have hsame : vpage (reg.reg_rdi.toNat % 2^48) = vpage (request t) := by
      rw [hreq]
      simp only [vpage]
      omega
    have hnew := alloc_translation I A I.current_slot I.current_live (reg.reg_rdi.toNat % 2^48) 0
    rw [if_pos ⟨rfl,rfl,hsame⟩, hkept _ hrun _ I.current_slot.2 I.current_live _ hlow] at hnew
    exact fresh_translation I A I.current_slot I.current_live _ hnew
  · rintro hcond s' hrun pid hp hl va hlow
    have hslot := live_slot I hp hl
    simp only [PROC_START_ADDR] at hlow hcond
    rcases page_alloc_cases I hva' with ⟨-,hnone⟩ | ⟨f,res,label',c,u,-,hsome,A⟩
    · rw [hrun, Except.ok.injEq] at hnone
      have Q : Quiet t s' := by
        rw [hnone]
        exact refused_quiet t
      rw [translation, (Q.procs pid).2.1, Q.mem]
    · rw [hrun, Except.ok.injEq] at hsome
      have hhigh : 0x100000 ≤ reg.reg_rdi.toNat % 2^48 := hcond.resolve_right fun hfree => by
        have := A.fresh
        rw [hfree] at this
        exact Finset.notMem_empty f this
      rw [hsome, alloc_translation I A hslot hl va, if_neg]
      rintro ⟨-,-,hsame⟩
      rw [hreq, vpage_small va (by omega), vpage] at hsame
      omega

/-- The first page below the kernel image can be taken over. -/
theorem low_mapping_replaced : ∃ s t s', kernel sampleKernel (some "fork") powerOn = .ok (.user s) ∧
    exception_enter sampleKernel (syscall INT_SYS_PAGE_ALLOC 0x1000) s = .ok t ∧
    sys_page_alloc t = .ok s' ∧ live t 1 ∧ translation s' 1 0x1000 ≠ translation t 1 0x1000 := by
  obtain ⟨label,s,hboot,S,hcur,hfree,-⟩ := sample_solo powerOn
  obtain ⟨t,henter,E,S₁,-⟩ := solo_enter S (syscall INT_SYS_PAGE_ALLOC 0x1000)
  have I := S₁.inv
  have hone : t.current = 1 := E.current.trans hcur
  have hl := hone ▸ I.current_live
  have hp := hone ▸ I.current_slot
  have hreq : request t = 0x1000 := entered_request E
  have hpages : freePages t ≠ ∅ := fun h => by
    rw [← freeCount_congr E.quiet.pageinfo, freeCount, h, Finset.card_empty] at hfree
    omega
  obtain ⟨f,c,label',u,hok,A⟩ := alloc_mapped I (by rw [hreq])
    (low_mappable I hpages (by rw [hreq]; decide))
  refine ⟨s,t,_,hboot,henter,hok,hl,fun h => ?_⟩
  rw [alloc_translation I A hp hl 0x1000 0, if_pos ⟨rfl,hone.symm,by rw [hreq]⟩] at h
  exact fresh_translation I A hp hl 0x1000 h.symm

theorem low_mappings_kept_in_window : ∃ s t,
    kernel sampleKernel (some "fork") powerOn = .ok (.user s) ∧
    exception_enter sampleKernel (syscall INT_SYS_PAGE_ALLOC 0x102000) s = .ok t ∧
    ∀ s', sys_page_alloc t = .ok s' → ∀ pid < NPROC, live t pid → ∀ va < PROC_START_ADDR,
      translation s' pid va = translation t pid va := by
  obtain ⟨label,s,hboot,S,-⟩ := sample_solo powerOn
  obtain ⟨t,henter,-⟩ := solo_enter S (syscall INT_SYS_PAGE_ALLOC 0x102000)
  refine ⟨s,t,hboot,henter,?_⟩
  exact (low_mappings_kept_iff sample_loadable ⟨.boot hboot,henter⟩ (by decide)).2
    (Or.inl (by decide))

end Low

section Whole

/-- A request that returns -1 has changed nothing exactly when no page was free; otherwise the
call is all or nothing only where it does not fail. -/
theorem page_alloc_all_or_nothing_iff (hK : Loadable K) (C : Call K Any reg s t)
    (hva : reg.reg_rdi.toNat % PAGESIZE = 0) :
    (∀ s', sys_page_alloc t = .ok s' → result s' = toRegister FAILED →
      (∀ pn < NPAGES, s'.pageinfo pn = t.pageinfo pn) ∧
      ∀ pid < NPROC, live t pid → ∀ va, translation s' pid va = translation t pid va) ↔
    NoFreePage t ∨ Mappable t := by
  obtain ⟨label,X,E,-,I⟩ := C.inv hK
  have hva' : request t % 4096 = 0 := by rw [entered_request E]; exact hva
  rw [no_free_page]
  constructor
  · intro hall
    by_contra hbad
    rw [not_or] at hbad
    obtain ⟨f,c,label',u,hrun,A⟩ := alloc_unmapped I hva' hbad.1 hbad.2
    obtain ⟨hlt,hfree⟩ := (mem_freePages t f).1 A.fresh
    have hinfo := (hall _ hrun (result_setRax A.grows.current _)).1 f hlt
    have hsame : (u.setRax t.current (-1)).pageinfo = u.pageinfo := rfl
    rw [hsame, A.info, hfree] at hinfo
    exact info_ne_free _ hinfo
  · rintro (hfree | hmap) s' hrun hres
    · rw [page_alloc_none I hfree, Except.ok.injEq] at hrun
      have Q : Quiet t s' := by
        rw [← hrun]
        exact refused_quiet t
      exact ⟨fun pn _ => by rw [Q.pageinfo],
        fun pid _ _ va => by rw [translation, (Q.procs pid).2.1, Q.mem]⟩
    · obtain ⟨f,c,label',u,hok,A⟩ := alloc_mapped I hva' hmap
      rw [hok, Except.ok.injEq] at hrun
      rw [← hrun, result_setRax A.grows.current] at hres
      exact absurd hres (by decide)

/-- An address in the last two megabytes is refused, and the page is lost. -/
theorem refused_request_takes_page : ∃ s t s' pn,
    kernel sampleKernel (some "fork") powerOn = .ok (.user s) ∧
    exception_enter sampleKernel (syscall INT_SYS_PAGE_ALLOC 0xFFFFFFFFFFE00000) s = .ok t ∧
    sys_page_alloc t = .ok s' ∧ result s' = toRegister FAILED ∧ pn < NPAGES ∧
    t.pageinfo pn = ⟨PO_FREE,0⟩ ∧ s'.pageinfo pn = ⟨1,1⟩ := by
  obtain ⟨label,s,hboot,S,hcur,hfree,-⟩ := sample_solo powerOn
  obtain ⟨t,henter,E,S₁,-⟩ := solo_enter S (syscall INT_SYS_PAGE_ALLOC 0xFFFFFFFFFFE00000)
  have hreq : request t = 0xFFFFFFFFFFE00000 := entered_request E
  have hidx : index123 0xFFFFFFFFFFE00000 = -1 := by decide
  have hpages : freePages t ≠ ∅ := fun h => by
    rw [← freeCount_congr E.quiet.pageinfo, freeCount, h, Finset.card_empty] at hfree
    omega
  obtain ⟨f,c,label',u,hok,A⟩ := alloc_unmapped S₁.inv (by rw [hreq]) hpages
    fun h => h.1 (hreq ▸ hidx)
  obtain ⟨hlt,hinfo⟩ := (mem_freePages t f).1 A.fresh
  have hone : t.current = 1 := E.current.trans hcur
  refine ⟨s,t,_,f,hboot,henter,hok,result_setRax A.grows.current _,hlt,hinfo,?_⟩
  have htaken := A.info
  rw [hone] at htaken
  exact htaken

theorem low_request_all_or_nothing : ∃ s t,
    kernel sampleKernel (some "fork") powerOn = .ok (.user s) ∧
    exception_enter sampleKernel (syscall INT_SYS_PAGE_ALLOC 0x1000) s = .ok t ∧
    ∀ s', sys_page_alloc t = .ok s' → result s' = toRegister FAILED →
      (∀ pn < NPAGES, s'.pageinfo pn = t.pageinfo pn) ∧
      ∀ pid < NPROC, live t pid → ∀ va, translation s' pid va = translation t pid va := by
  obtain ⟨label,s,hboot,S,-,hfree,-⟩ := sample_solo powerOn
  obtain ⟨t,henter,E,S₁,-⟩ := solo_enter S (syscall INT_SYS_PAGE_ALLOC 0x1000)
  have hreq : request t = 0x1000 := entered_request E
  have hpages : freePages t ≠ ∅ := fun h => by
    rw [← freeCount_congr E.quiet.pageinfo, freeCount, h, Finset.card_empty] at hfree
    omega
  refine ⟨s,t,hboot,henter,?_⟩
  exact (page_alloc_all_or_nothing_iff sample_loadable ⟨.boot hboot,henter⟩ (by decide)).2
    (Or.inr (low_mappable S₁.inv hpages (by rw [hreq]; decide)))

end Whole

section Return

/-- The request names a page that `set_pagetable` looks at. -/
def CoversHandler (K : KernelImage) (va : ℕ) : Prop :=
  ∃ a ∈ [K.default_int_handler,K.kernel_pagetable,K.virtual_memory_map],
    va % 2^48 / PAGESIZE = a / PAGESIZE

theorem handler_vpage {a : ℕ}
    (ha : a ∈ [K.default_int_handler,K.kernel_pagetable,K.virtual_memory_map]) :
    vpage a = a / 4096 ∧ vpage a < 256 := by
  have hlt := (handlers_range K a ha).2.2
  have hv := vpage_small a (by omega)
  exact ⟨hv,by omega⟩

/-- The table of the caller satisfies `set_pagetable` after the call. -/
theorem alloc_handlers (I : KInv K label s) (H : HandlersOk K s.mem (currentTable s))
    (A : Allocated K f res label label' c s t) :
    HandlersOk K t.mem (currentTable s) ↔ ¬(res = 0 ∧ CoversHandler K (request s)) := by
  have htrans : ∀ a, virtual_memory_lookup t.mem (currentTable s) a =
      if res = 0 ∧ s.current = s.current ∧ vpage a = vpage (request s)
        then ⟨f,f*4096+a % 4096,7⟩ else translation s s.current a := fun a => by
    have h := alloc_translation I A I.current_slot I.current_live a 0
    rw [translation, ((Quiet.setRax t s.current 0).procs s.current).2.1, A.processes] at h
    exact h
  constructor
  · rintro hok ⟨hres,a,ha,hpage⟩
    have h := hok a ha
    have hv := handler_vpage ha
    have hlt := (handlers_range K a ha).2
    have hsame : vpage a = vpage (request s) := by
      rw [hv.1, vpage]
      exact hpage.symm
    rw [htrans, if_pos ⟨hres,rfl,hsame⟩] at h
    -- the frame was free, but the kernel's pages never are
    have hfa : f = a / 4096 := by
      simp only at h
      omega
    obtain ⟨hstart,hend,-⟩ := handlers_range K a ha
    exact kernel_used I (Or.inl ⟨hstart,hend⟩) (hfa ▸ A.fresh)
  · intro hcover a ha
    rw [htrans, if_neg]
    · exact H a ha
    · rintro ⟨hres,-,hsame⟩
      refine hcover ⟨hres,a,ha,?_⟩
      rw [(handler_vpage ha).1, vpage] at hsame
      exact hsame.symm

/-- A page request, step by step. -/
theorem alloc_exception_iff (hno : reg.reg_intno = INT_SYS_PAGE_ALLOC) :
    exception K reg s = .ok out ↔ ∃ s₁ s₂, exception_enter K reg s = .ok s₁ ∧
      sys_page_alloc s₁ = .ok s₂ ∧ exception_leave K s₂ = .ok out := by
  have hhandle : ∀ s₁, exception_handle K reg s₁ =
      sys_page_alloc s₁ >>= fun s₂ => exception_leave K s₂ := fun s₁ => by
    rw [exception_handle, hno]
    rfl
  simp only [exception, bind_ok_iff, hhandle]
  constructor
  · rintro ⟨s₁,henter,s₂,halloc,hret⟩
    exact ⟨s₁,s₂,henter,halloc,hret⟩
  · rintro ⟨s₁,s₂,henter,halloc,hret⟩
    exact ⟨s₁,henter,s₂,halloc,hret⟩

/-- The return after a call that took a page. -/
theorem alloc_return_iff (I : KInv K label s) (hrun : (s.processes s.current).p_state = .P_RUNNABLE)
    (A : Allocated K f res label label' c s t) :
    exception_leave K (t.setRax s.current res) = .ok out ↔
      HandlersOk K t.mem (currentTable s) ∧
        out = .user (resumed (t.setRax s.current res) s.current) := by
  have hcur : (t.setRax s.current res).current = s.current := A.grows.current
  have Q := Quiet.setRax t s.current res
  have I' := (A.inv I).same Q (hcur.trans A.grows.current.symm)
  have hproc : (t.setRax s.current res).processes s.current =
      withRax (s.processes s.current) res := by rw [setRax_self, A.processes]
  rw [return_iff I' (by rw [hcur, hproc]; exact hrun), hcur, hproc]
  exact Iff.rfl

/-- The kernel gets as far as the load of `cr3`, with the result 0 or -1, exactly when its checks
pass and either no page is free or the address is aligned and covers no handler. -/
theorem page_alloc_returns_iff (hK : Loadable K) (R : Run K Any (.user s))
    (hno : reg.reg_intno = INT_SYS_PAGE_ALLOC) :
    (∃ s', exception K reg s = .ok (.user s') ∧ s'.current = s.current ∧
      (result s' = toRegister 0 ∨ result s' = toRegister FAILED)) ↔
    check_virtual_memory K s = .ok () ∧ (NoFreePage s ∨
      (reg.reg_rdi.toNat % PAGESIZE = 0 ∧ ¬CoversHandler K reg.reg_rdi.toNat)) := by
  obtain ⟨label,X⟩ := run_executing hK R
  have hinsp : Inspected reg := Or.inl (by rw [hno]; decide)
  simp only [check_virtual_memory_iff X.inv, no_free_page, alloc_exception_iff hno]
  constructor
  · rintro ⟨s',⟨s₁,s₂,henter,halloc,hret⟩,-⟩
    obtain ⟨hmapped,E⟩ := exception_enter_cases X.inv henter
    have I := entered_inv X E
    have H₁ := (hmapped hinsp).quiet E.quiet
    have hhandlers := mappingOk_handlers I I.current_slot I.current_live
      (H₁ _ I.current_slot I.current_live.1).2
    have hrun := entered_runnable X E
    refine ⟨hmapped hinsp,?_⟩
    rw [← freePages_congr E.quiet.pageinfo]
    by_cases hfree : freePages s₁ = ∅
    · exact Or.inl hfree
    · have hva : request s₁ % 4096 = 0 := by
        by_contra hne
        rw [page_alloc_unaligned I hfree hne] at halloc
        cases halloc
      refine Or.inr ⟨entered_request E ▸ hva,fun hcover => ?_⟩
      -- a page that covers a handler is low, so it is mapped
      rw [← entered_request E] at hcover
      have hlow : vpage (request s₁) < 256 := by
        obtain ⟨a,ha,hpage⟩ := hcover
        obtain ⟨hv,hlt⟩ := handler_vpage ha
        rw [vpage]
        simp only [PAGESIZE] at hpage
        omega
      obtain ⟨f,c,label',t,hok,A⟩ := alloc_mapped I hva (low_mappable I hfree hlow)
      rw [hok, Except.ok.injEq] at halloc
      subst halloc
      exact (alloc_handlers I hhandlers A).1 ((alloc_return_iff I hrun A).1 hret).1 ⟨rfl,hcover⟩
  · rintro ⟨hmapped,hcond⟩
    obtain ⟨s₁,henter⟩ := exception_enter_ok X.inv reg fun _ => hmapped
    obtain ⟨-,E⟩ := exception_enter_cases X.inv henter
    have I := entered_inv X E
    have H₁ := hmapped.quiet E.quiet
    have hhandlers := mappingOk_handlers I I.current_slot I.current_live
      (H₁ _ I.current_slot I.current_live.1).2
    have hrun := entered_runnable X E
    rw [← freePages_congr E.quiet.pageinfo] at hcond
    by_cases hfree : freePages s₁ = ∅
    · have Q := refused_quiet s₁
      have hproc : ({ s₁ with pagetable_owner := s₁.current }.setRax s₁.current
          FAILED).processes s₁.current = withRax (s₁.processes s₁.current) FAILED := setRax_self _ _ _
      have hret := (return_iff (I.same Q rfl) (by
        change (({ s₁ with pagetable_owner := s₁.current }.setRax s₁.current
          FAILED).processes s₁.current).p_state = _
        rw [hproc]
        exact hrun)).2 ⟨by
          change HandlersOk K s₁.mem (({ s₁ with pagetable_owner := s₁.current }.setRax s₁.current
            FAILED).processes s₁.current).p_pagetable
          rw [hproc]
          exact hhandlers,rfl⟩
      refine ⟨_,⟨s₁,_,henter,page_alloc_none I hfree,hret⟩,E.current,Or.inr ?_⟩
      exact result_setRax (t := { s₁ with pagetable_owner := s₁.current }) rfl FAILED
    · obtain ⟨halign,hcover⟩ := hcond.resolve_left hfree
      rw [← entered_request E] at halign hcover
      rcases page_alloc_cases I halign with ⟨hempty,-⟩ | ⟨f,res,label',c,t,hres,hok,A⟩
      · exact absurd hempty hfree
      · have hret := (alloc_return_iff I hrun A).2
          ⟨(alloc_handlers I hhandlers A).2 fun h => hcover h.2,rfl⟩
        refine ⟨_,⟨s₁,_,henter,hok,hret⟩,E.current,?_⟩
        have hval : result (resumed (t.setRax s₁.current res) s₁.current) = toRegister res :=
          congrArg (fun p => p.p_registers.reg_rax) (setRax_self t s₁.current res)
        rw [hval]
        rcases hres with rfl | rfl
        · exact Or.inl rfl
        · exact Or.inr rfl

/-- The kernel's own pages stay mapped when the request names none of them. -/
theorem alloc_kernelMapped (I : KInv K label s) (H : KernelMapped K s)
    (A : Allocated K f res label label' c s t)
    (hva : ∀ a, a ∈ addrs KERNEL_START_ADDR K.kernel_end ∨ a = KERNEL_STACK_TOP-PAGESIZE →
      vpage a ≠ vpage (request s)) : KernelMapped K (t.setRax s.current res) := by
  intro pid hp hstate
  have Q := Quiet.setRax t s.current res
  rw [ne_eq, (Q.procs pid).1, A.processes] at hstate
  obtain ⟨hnull,hmap⟩ := H pid hp hstate
  have htable : ((t.setRax s.current res).processes pid).p_pagetable =
      (s.processes pid).p_pagetable := by rw [(Q.procs pid).2.1, A.processes]
  have htrans := alloc_translation I A hp ⟨hstate,hnull⟩
  rw [htable]
  refine ⟨hnull,(MappingOk.congr_pages fun a ha => ?_).2 hmap⟩
  have h := htrans a res
  rw [translation, htable] at h
  rw [h, if_neg fun hc => hva a ha hc.2.2]

/-- The sample kernel after its process took the page at `0x1000`. -/
theorem sample_low_page : ∃ label s s', ∃ f : ℕ,
    kernel sampleKernel (some "fork") powerOn = .ok (.user s) ∧
    exception sampleKernel (syscall INT_SYS_PAGE_ALLOC 0x1000) s = .ok (.user s') ∧
    KInv sampleKernel label s' ∧ KernelMapped sampleKernel s' ∧ s'.current = 1 ∧
    (∀ pid, Slot pid → pid ≠ 1 → (s'.processes pid).p_state = .P_FREE) ∧ 54 ≤ freeCount s' ∧
    translation s' 1 0x1000 = ⟨f,f*4096,7⟩ ∧ f ≠ console / PAGESIZE ∧
    ∀ va, 256 ≤ vpage va → leafWord s'.mem (s'.processes 1).p_pagetable va ≠ 0 →
      vpage va = 767 ∨ vpage va = 256 ∨ vpage va = 257 := by
  obtain ⟨label,s,hboot,S,hcur,hfree,hleaf⟩ := sample_solo powerOn
  obtain ⟨t,henter,E,S₁,hrun⟩ := solo_enter S (syscall INT_SYS_PAGE_ALLOC 0x1000)
  have I := S₁.inv
  have hone : t.current = 1 := E.current.trans hcur
  have hreq : request t = 0x1000 := entered_request E
  rw [← freeCount_congr E.quiet.pageinfo] at hfree
  have hlow := I.low _ I.current_slot I.current_live 0x1000 (by decide)
  have htables := tablesMissing_leaf _ _ _ hlow
  obtain ⟨f,label',u,halloc,A⟩ := page_alloc_mapped I (by rw [hreq])
    (by rw [hreq]; exact index123_ne _ (by decide)) (by rw [hreq, htables]; omega)
  have hcount := A.grows.count
  rw [hreq, htables] at hcount
  have hcover : ¬((0 : ℤ) = 0 ∧ CoversHandler sampleKernel (request t)) := by
    rintro ⟨-,a,ha,hpage⟩
    rw [hreq] at hpage
    simp only [List.mem_cons, List.not_mem_nil, or_false] at ha
    rcases ha with rfl | rfl | rfl <;> exact absurd hpage (by decide)
  have hhandlers := (S₁.handlers I.current_slot I.current_live.1).2
  have hret := (alloc_return_iff I hrun A).2 ⟨(alloc_handlers I hhandlers A).2 hcover,rfl⟩
  have hno : (syscall INT_SYS_PAGE_ALLOC 0x1000).reg_intno = INT_SYS_PAGE_ALLOC := rfl
  have hexc := (alloc_exception_iff hno).2 ⟨t,_,henter,halloc,hret⟩
  have Q : Quiet u (resumed (u.setRax t.current 0) t.current) := by
    have Q₁ := Quiet.setRax u t.current 0
    exact Q₁.trans ⟨rfl,rfl,fun _ => ⟨Iff.rfl,rfl,rfl⟩⟩
  have hmapped : KernelMapped sampleKernel (resumed (u.setRax t.current 0) t.current) := by
    have h := alloc_kernelMapped I S₁.mapped A fun a ha => by
      rw [hreq]
      rcases ha with ha | rfl
      · obtain ⟨-,hlo,hhi⟩ := kernel_addr_low ha
        have hv : vpage 0x1000 = 1 := by decide
        rw [vpage_small a (by omega), hv]
        omega
      · decide
    exact h.quiet ⟨rfl,rfl,fun _ => ⟨Iff.rfl,rfl,rfl⟩⟩
  have htable : ((resumed (u.setRax t.current 0) t.current).processes 1).p_pagetable =
      (t.processes 1).p_pagetable := by rw [(Q.procs 1).2.1, A.processes]
  have hp := hone ▸ I.current_slot
  have hl := hone ▸ I.current_live
  have htrans := alloc_translation I A hp hl 0x1000 0
  rw [if_pos ⟨rfl,hone.symm,by rw [hreq]⟩, Nat.mod_self, add_zero] at htrans
  refine ⟨label',s,_,f,hboot,hexc,(A.inv I).same Q A.grows.current.symm,hmapped,hone,?_,?_,htrans,
    ?_,?_⟩
  · intro pid hpid hne
    rw [(Q.procs pid).1, A.processes, (E.quiet.procs pid).1]
    exact S.alone pid hpid (hcur ▸ hne)
  · rw [freeCount_congr Q.pageinfo]
    omega
  · -- the console page is reserved
    rintro rfl
    have hentry : pageinfo_init_entry sampleKernel (0xB8*4096) = ⟨PO_RESERVED,1⟩ := rfl
    have hinfo := ((mem_freePages t 0xB8).1 A.fresh).2
    rw [I.paging.marked 0xB8 (by decide) (by rw [hentry]; decide), hentry] at hinfo
    exact absurd hinfo (by decide)
  · intro va hva hne
    have hr := rootsOf_live (K := sampleKernel) hp hl
    rw [htable, Q.mem, A.leaf _ _ va hr, if_neg (by
      rintro ⟨-,-,hsame⟩
      rw [hreq] at hsame
      have hv : vpage 0x1000 = 1 := by decide
      omega), E.quiet.mem, (E.quiet.procs 1).2.1] at hne
    exact hleaf va hva hne

/-- An address that is not aligned stops the kernel. -/
theorem unaligned_request_panics : ∃ s,
    kernel sampleKernel (some "fork") powerOn = .ok (.user s) ∧
    exception sampleKernel (syscall INT_SYS_PAGE_ALLOC 1) s =
      .error (.assert_fail "va % PAGESIZE == 0") := by
  obtain ⟨label,s,hboot,S,-,hfree,-⟩ := sample_solo powerOn
  obtain ⟨t,henter,E,S₁,-⟩ := solo_enter S (syscall INT_SYS_PAGE_ALLOC 1)
  have hreq : request t = 1 := entered_request E
  have hpages : freePages t ≠ ∅ := fun h => by
    rw [← freeCount_congr E.quiet.pageinfo, freeCount, h, Finset.card_empty] at hfree
    omega
  have halloc := page_alloc_unaligned S₁.inv hpages (by rw [hreq]; decide)
  have hno : (syscall INT_SYS_PAGE_ALLOC 1).reg_intno = INT_SYS_PAGE_ALLOC := rfl
  refine ⟨s,hboot,?_⟩
  rw [exception, henter]
  simp only [bind, Except.bind, exception_handle, hno, halloc]
  rfl

end Return

end WeensyOS.AllocRuns
