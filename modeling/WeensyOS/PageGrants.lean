import WeensyOS.FreshPages

/-!
# What a page request changes

A request that returns 0 maps one page that was free and makes page tables of
others. Everything else is as before: the other pages of the caller, the other
address spaces, and the bytes of every page in use that is no table of the caller.
-/

set_option autoImplicit false

namespace WeensyOS.PageGrants
open WeensyOS.FlatMemory WeensyOS.KernelState WeensyOS.PageTables WeensyOS.PageAllocator
open WeensyOS.Exceptions WeensyOS.Boot WeensyOS.RadixForest WeensyOS.TableWords
open WeensyOS.FreePages WeensyOS.PagingInvariant WeensyOS.TableCopies WeensyOS.KernelInvariant
open WeensyOS.KernelSteps WeensyOS.ForkResult WeensyOS.AllocResult WeensyOS.BootResult
open WeensyOS.BootRun
open WeensyOS.Effects WeensyOS.Runs WeensyOS.PrivateRuns WeensyOS.Exhaustion WeensyOS.AllocRuns
open WeensyOS.FreshPages

variable {K : KernelImage} {label label' : Labels} {s s' t : KState} {reg : x86_64_registers}
  {f c pid va : ℕ}

/-- The page `pn` was granted to the current process at the address `addr`. -/
structure Granted (K : KernelImage) (addr pn : ℕ) (s s' : KState) : Prop where
  page : pn < NPAGES
  free : s.pageinfo pn = ⟨PO_FREE,0⟩
  owned : s'.pageinfo pn = ⟨s.current,1⟩
  mapped : ∀ va, va % 2^48 / PAGESIZE = addr / PAGESIZE → translation s' s.current va =
    ⟨pn,pn*PAGESIZE+va % PAGESIZE,PTE_P ||| PTE_W ||| PTE_U⟩
  own : ∀ va, va % 2^48 / PAGESIZE ≠ addr / PAGESIZE →
    translation s' s.current va = translation s s.current va
  others : ∀ pid < NPROC, live s pid → pid ≠ s.current → ∀ va,
    translation s' pid va = translation s pid va
  kernel : ∀ va, virtual_memory_lookup s'.mem K.kernel_pagetable va =
    virtual_memory_lookup s.mem K.kernel_pagetable va
  bytes : ∀ q < NPAGES, s.pageinfo q ≠ ⟨PO_FREE,0⟩ →
    (∀ d, ¬TablePage s.mem (currentTable s) d (q*PAGESIZE)) →
    ∀ k < PAGESIZE, s'.mem (q*PAGESIZE+k) = s.mem (q*PAGESIZE+k)
  entries : ∀ q < NPAGES, q ≠ pn → s'.pageinfo q ≠ s.pageinfo q →
    s.pageinfo q = ⟨PO_FREE,0⟩ ∧ s'.pageinfo q = ⟨s.current,1⟩ ∧
      ∃ d, TablePage s'.mem (s'.processes s.current).p_pagetable d (q*PAGESIZE)

section Grant

variable (I : KInv K label s) (A : Allocated K f 0 label label' c s t)
include I A

theorem granted_bytes {q : ℕ} (hused : s.pageinfo q ≠ ⟨PO_FREE,0⟩)
    (hno : ∀ d, ¬TablePage s.mem (currentTable s) d (q*PAGESIZE)) :
    Agree s.mem t.mem (q*PAGESIZE) PAGESIZE := by
  refine A.grows.bytes q (fun h => hused ((mem_freePages s q).1 h).2) fun l hl ho => ?_
  obtain ⟨o,p⟩ := l
  change o = s.current at ho
  subst ho
  obtain ⟨r,hr,T⟩ := label_table_page I.paging hl
  rw [rootsOf_live I.current_slot I.current_live, Option.some.injEq] at hr
  subst hr
  exact hno _ T

/-- A page that changed hands besides is a page table now. -/
theorem granted_entries {q : ℕ} (hne : q ≠ f) (hchange : t.pageinfo q ≠ s.pageinfo q) :
    s.pageinfo q = ⟨PO_FREE,0⟩ ∧ t.pageinfo q = ⟨s.current,1⟩ ∧
      ∃ d, TablePage t.mem (t.processes s.current).p_pagetable d (q*PAGESIZE) := by
  obtain ⟨hfree,htaken⟩ := (A.grows.pageinfo q).resolve_left hchange
  obtain ⟨⟨o,p⟩,hl⟩ := (A.tables rfl q hne).resolve_left hchange
  have howned := (A.paging.owned _ _ hl).2
  rw [Nat.mul_div_cancel q (by decide), htaken] at howned
  have ho : (s.current : ℤ) = o := congrArg physical_pageinfo.owner howned
  subst ho
  obtain ⟨r,hr,T⟩ := label_table_page A.paging hl
  rw [rootsOf_live I.current_slot I.current_live, Option.some.injEq] at hr
  subst hr
  refine ⟨((mem_freePages s q).1 hfree).2,htaken,p.length,?_⟩
  rw [A.processes]
  exact T

end Grant

/-- Nothing on the way from `s` to `s₁` or from `s₂` to `s'` touches memory or pages. -/
theorem Granted.between {s₁ s₂ : KState} {addr pn : ℕ} (G : Granted K addr pn s₁ s₂)
    (Q : Quiet s s₁) (hcur : s₁.current = s.current) (Q' : Quiet s₂ s') :
    Granted K addr pn s s' := by
  have htrans : ∀ pid va, translation s₁ pid va = translation s pid va := fun pid va => by
    rw [translation, (Q.procs pid).2.1, Q.mem]
  have htrans' : ∀ pid va, translation s' pid va = translation s₂ pid va := fun pid va => by
    rw [translation, (Q'.procs pid).2.1, Q'.mem]
  have htable : currentTable s₁ = currentTable s := by
    rw [currentTable, hcur, (Q.procs s.current).2.1]
  refine ⟨G.page,?_,?_,fun va hva => ?_,fun va hva => ?_,fun pid hp hl hne va => ?_,fun va => ?_,
    fun q hq hused hno k hk => ?_,fun q hq hne hchange => ?_⟩
  · rw [← Q.pageinfo]
    exact G.free
  · rw [Q'.pageinfo, ← hcur]
    exact G.owned
  · rw [htrans', ← hcur]
    exact G.mapped va hva
  · rw [htrans', ← htrans, ← hcur]
    exact G.own va hva
  · rw [htrans', ← htrans]
    exact G.others pid hp ((Q.live pid).2 hl) (hcur ▸ hne) va
  · rw [Q'.mem, ← Q.mem]
    exact G.kernel va
  · rw [Q'.mem, ← Q.mem]
    exact G.bytes q hq (Q.pageinfo ▸ hused) (by rw [Q.mem, htable]; exact hno) k hk
  · rw [Q'.pageinfo, ← Q.pageinfo] at hchange
    obtain ⟨hfree,htaken,T⟩ := G.entries q hq hne hchange
    rw [Q'.pageinfo, ← Q.pageinfo, ← hcur, (Q'.procs _).2.1, Q'.mem]
    exact ⟨hfree,htaken,T⟩

theorem allocated_granted (I : KInv K label s) (A : Allocated K f 0 label label' c s t)
    (hlow : request s < MEMSIZE_VIRTUAL) :
    Granted K (request s) f s (t.setRax s.current 0) := by
  have htrans := fun va => alloc_translation I A I.current_slot I.current_live va 0
  have hpage : ∀ va, vpage va = vpage (request s) ↔
      va % 2^48 / PAGESIZE = request s / PAGESIZE := fun va => by
    simp only [MEMSIZE_VIRTUAL] at hlow
    rw [vpage_small (request s) (by omega), vpage]
  obtain ⟨hlt,hfree⟩ := (mem_freePages s f).1 A.fresh
  refine ⟨hlt,hfree,A.info,fun va hva => ?_,fun va hva => ?_,fun pid hp hl hne va => ?_,
    fun va => ?_,fun q _ hused hno => granted_bytes I A hused hno,
    fun q _ hne hchange => ?_⟩
  · rw [htrans va, if_pos ⟨rfl,rfl,(hpage va).2 hva⟩]
    rfl
  · rw [htrans va, if_neg fun h => hva ((hpage va).1 h.2.2)]
  · rw [alloc_translation I A (live_slot I hp hl) hl va, if_neg fun h => hne h.2.1]
  · have hmem : (t.setRax s.current 0).mem = t.mem := rfl
    have hroot := A.paging.forest.root _ _ A.paging.kernel_root
    rw [hmem, virtual_memory_lookup_eq A.paging.forest hroot,
      virtual_memory_lookup_eq I.paging.forest I.kernel_root, A.paging.kernel_leaf,
      I.paging.kernel_leaf]
  · obtain ⟨h₁,h₂,h₃⟩ := granted_entries I A hne hchange
    have htable : ((t.setRax s.current 0).processes s.current).p_pagetable =
        (t.processes s.current).p_pagetable := ((Quiet.setRax t s.current 0).procs _).2.1
    rw [htable]
    exact ⟨h₁,h₂,h₃⟩

/-- The effect of a page request in the window that returns 0, in every reachable state. -/
theorem page_alloc_granted (hK : Loadable K) (R : Run K InWindow (.user s))
    (hno : reg.reg_intno = INT_SYS_PAGE_ALLOC) (hwin : InWindow s reg)
    (h : exception K reg s = .ok (.user s')) (hzero : result s' = 0) :
    ∃ pn, Granted K reg.reg_rdi.toNat pn s s' := by
  obtain ⟨label,X⟩ := run_executing hK R
  obtain ⟨label',s₁,s₂,E,I,-,F,rfl⟩ := request_resumed X hno h
  have hreq := entered_request E
  have Q := resumed_quiet s₂ s₂.current
  have hres : result s₂ = 0 := hzero
  rcases request_effect F hno with ⟨-,rfl⟩ | ⟨f,c,res,t,hcases,-,A,rfl⟩
  · rw [refused_result] at hres
    exact absurd hres (by decide)
  · rw [result_setRax A.grows.current] at hres
    rcases hcases with rfl | rfl
    · have G := allocated_granted I A (by rw [hreq]; exact (hwin hno).2.2)
      rw [hreq] at G
      exact ⟨f,G.between E.quiet E.current Q⟩
    · exact absurd hres (by decide)

theorem page_granted : ∃ s s' pn, kernel sampleKernel (some "fork") powerOn = .ok (.user s) ∧
    exception sampleKernel sampleRequest s = .ok (.user s') ∧
    Granted sampleKernel sampleRequest.reg_rdi.toNat pn s s' := by
  obtain ⟨label,s,s',hboot,-,-,hs,hzero⟩ := sample_request powerOn
  obtain ⟨pn,G⟩ := page_alloc_granted sample_loadable (.boot hboot) rfl
    (fun _ => ⟨by decide,by decide,by decide⟩) hs hzero
  exact ⟨s,s',pn,hboot,hs,G⟩

end WeensyOS.PageGrants
