import WeensyOS.ForkResult

/-!
# The outcomes of page allocation

The page is taken before the address is looked at. An unaligned address then
stops the kernel; an aligned one is mapped if its tables exist or can be made.
The address is never compared with the bounds of user memory.
-/

set_option autoImplicit false

namespace WeensyOS.AllocResult
open WeensyOS.FlatMemory WeensyOS.KernelState WeensyOS.PageTables WeensyOS.PageAllocator
open WeensyOS.Exceptions WeensyOS.CheckedRuns
open WeensyOS.RadixForest WeensyOS.TableWords WeensyOS.FreePages WeensyOS.PagingInvariant
open WeensyOS.TableWalks WeensyOS.PageMaps WeensyOS.TableCopies WeensyOS.ForkCopies
open WeensyOS.KernelInvariant WeensyOS.KernelChecks WeensyOS.KernelSteps WeensyOS.ForkResult

variable {K : KernelImage} {label label' : Labels} {s s' : KState} {f c : ℕ} {res : ℤ}

/-- The address a process asks for. -/
abbrev request (s : KState) : ℕ := (s.processes s.current).p_registers.reg_rdi.toNat

/-- The call took the page `f`, and mapped it unless the result is `-1`. -/
structure Allocated (K : KernelImage) (f : ℕ) (res : ℤ) (label label' : Labels) (c : ℕ)
    (s s' : KState) : Prop where
  fresh : f ∈ freePages s
  least : ∀ g ∈ freePages s, f ≤ g
  content : Agree s.mem s'.mem (f*4096) 4096
  grows : Grows s.current label label' c s s'
  paging : Paging K (rootsOf K s) label' s'
  info : s'.pageinfo f = ⟨s.current,1⟩
  unlabelled : label' (f*4096) = none
  tables : res = 0 → ∀ pn, pn ≠ f → s'.pageinfo pn = s.pageinfo pn ∨
    ∃ q, label' (pn*4096) = some q
  leaf : ∀ o r va, rootsOf K s o = some r → leafWord s'.mem r va =
    if res = 0 ∧ o = s.current ∧ vpage va = vpage (request s) then f*4096+7
    else leafWord s.mem r va

theorem request_lt (s : KState) : request s < 2^64 := UInt64.toNat_lt _

section Cases

variable (I : KInv K label s)
include I

theorem page_alloc_none (hfree : freePages s = ∅) : sys_page_alloc s =
    .ok ({ s with pagetable_owner := s.current }.setRax s.current FAILED) := by
  have hpid := I.pids s.current I.current_slot.2
  simp only [sys_page_alloc, get_free_addr_none _ s hfree, ne_eq, not_true_eq_false, if_false,
    hpid]

/-- The state in which the page is mapped. -/
abbrev taken (s : KState) (f : ℕ) : KState := takePage s f s.current s.mem s.current

omit I in
theorem taken_only (s : KState) (f : ℕ) : OnlyPage s f s.mem := fun _ _ _ => Agree.refl _ _ _

theorem page_alloc_some (hfree : freePages s ≠ ∅) : ∃ f ∈ freePages s,
    (∀ g ∈ freePages s, f ≤ g) ∧ sys_page_alloc s =
    (virtual_memory_map (currentTable s) (request s) (f*4096) PAGESIZE 7 (some pagetable_alloc)
      (taken s f)).bind fun (res,s) => .ok (s.setRax s.current res) := by
  have hpid := I.pids s.current I.current_slot.2
  obtain ⟨f,hf,hleast,hget⟩ := get_free_addr_some s.current s hfree
  have hnull : f*4096 ≠ OUTOFMEMORY := by
    have hz : f ≠ 0 := fun hz => I.paging.zero_used (hz ▸ hf)
    simp only [OUTOFMEMORY]
    omega
  have hflags : PTE_P ||| PTE_W ||| PTE_U = 7 := rfl
  refine ⟨f,hf,hleast,?_⟩
  simp only [sys_page_alloc, hpid, hget, if_pos hnull, setPageinfo_processes, hflags]
  rfl

theorem page_alloc_unaligned (hfree : freePages s ≠ ∅) (hva : request s % 4096 ≠ 0) :
    sys_page_alloc s = .error (.assert_fail "va % PAGESIZE == 0") := by
  obtain ⟨f,-,-,hrun⟩ := page_alloc_some I hfree
  rw [hrun]
  simp only [virtual_memory_map, PAGESIZE, kassert, hva, if_false, bind, Except.bind]

/-- What holds once the page is taken, whatever the result of the mapping. -/
theorem taken_facts (hf : f ∈ freePages s) :
    Grows s.current label label 1 s (taken s f) ∧ Paging K (rootsOf K s) label (taken s f) ∧
      UserFrame label (taken s f) (f*4096) :=
  ⟨take_grows I.paging hf (taken_only s f),
    take_paging I.paging I.current_slot.owner hf (taken_only s f),
    take_user I.paging I.current_slot.owner hf⟩

theorem taken_info {label' : Labels} {c : ℕ} (hf : f ∈ freePages s)
    (G : Grows s.current label label' c (taken s f) s') :
    s'.pageinfo f = ⟨s.current,1⟩ ∧ label' (f*4096) = none ∧
      Agree s.mem s'.mem (f*4096) 4096 := by
  have hused : f ∉ freePages (taken s f) := by
    rw [mem_freePages, takePage_pageinfo, Function.update_self]
    exact fun h => info_ne_free _ h.2
  have hu := (taken_facts I hf).2.2
  refine ⟨?_,(hu.mono G).1,G.bytes f hused fun q hq => ?_⟩
  · rw [G.pageinfo_used hused, takePage_pageinfo, Function.update_self]
  · rw [hu.1] at hq
    cases hq

/-- The allocation succeeds: the cached index is usable and the tables fit. -/
theorem page_alloc_mapped (hva : request s % 4096 = 0) (hidx : index123 (request s) ≠ -1)
    (hcount : 1+tablesMissing s.mem (currentTable s) (request s) ≤ freeCount s) :
    ∃ f label' s', sys_page_alloc s = .ok (s'.setRax s.current 0) ∧
      Allocated K f 0 label label' (1+tablesMissing s.mem (currentTable s) (request s)) s s' := by
  have hfree : freePages s ≠ ∅ := fun h => by
    rw [freeCount, h, Finset.card_empty] at hcount
    omega
  obtain ⟨f,hf,hleast,hrun⟩ := page_alloc_some I hfree
  obtain ⟨G,P,hu⟩ := taken_facts I hf
  have hframe := free_frame hf
  have hcount₁ := G.count
  have hr : rootsOf K s s.current = some (currentTable s) :=
    rootsOf_live I.current_slot I.current_live
  have ho := I.current_slot.owner
  obtain ⟨label',s',hmap,T,M⟩ := map_page_grow P ho rfl hr hva (request_lt s) hframe (Or.inr rfl)
    (.user _ hframe hu) hidx (by rw [takePage_mem]; omega)
  obtain ⟨hinfo,hunlabelled,hcontent⟩ := taken_info I hf M.grows
  refine ⟨f,label',s',?_,hf,hleast,hcontent,G.trans M.grows,M.paging,hinfo,hunlabelled,fun _ pn hpn => ?_,
    fun o r va hr => ?_⟩
  · rw [hrun, hmap]
    simp only [Except.bind, M.grows.current, takePage_current]
  · have h := T pn
    rwa [takePage_pageinfo, Function.update_of_ne hpn] at h
  · rw [M.leaf o r va hr, takePage_mem]
    simp only [true_and]

/-- The allocation fails after the page was taken: the page stays with the process. -/
theorem page_alloc_failed (hva : request s % 4096 = 0) (hfree : freePages s ≠ ∅)
    (hbad : index123 (request s) = -1 ∨
      freeCount s < 1+tablesMissing s.mem (currentTable s) (request s)) :
    ∃ f label' c s', sys_page_alloc s = .ok (s'.setRax s.current (-1)) ∧
      Allocated K f (-1) label label' c s s' := by
  obtain ⟨f,hf,hleast,hrun⟩ := page_alloc_some I hfree
  obtain ⟨G,P,hu⟩ := taken_facts I hf
  have hframe := free_frame hf
  have hcount₁ := G.count
  have hr : rootsOf K s s.current = some (currentTable s) :=
    rootsOf_live I.current_slot I.current_live
  have ho := I.current_slot.owner
  by_cases hidx : index123 (request s) = -1
  · have halign := I.paging.aligned (I.root I.current_slot I.current_live)
    have hmap := map_one (currentTable s) (request s) (f*4096) 7 (some pagetable_alloc)
      (taken s f) halign hva (request_lt s) hframe (by decide)
    rw [if_pos hidx] at hmap
    obtain ⟨hinfo,hunlabelled,hcontent⟩ := taken_info I hf (Grows.refl _ label (taken s f))
    refine ⟨f,label,1,taken s f,?_,hf,hleast,hcontent,G,P,hinfo,hunlabelled,fun h => absurd h (by decide),
      fun o r va _ => ?_⟩
    · rw [hrun, hmap]
      simp only [Except.bind, takePage_current]
    · rw [takePage_mem, if_neg fun h => absurd h.1 (by decide)]
  · obtain ⟨label',s',hmap,M⟩ := map_page_exhausted P ho rfl hr hva (request_lt s) hframe
      (Or.inr rfl) hidx (by
        rw [takePage_mem]
        have := hbad.resolve_left hidx
        omega)
    obtain ⟨hinfo,hunlabelled,hcontent⟩ := taken_info I hf M.grows
    refine ⟨f,label',_,s',?_,hf,hleast,hcontent,G.trans M.grows,M.paging,hinfo,hunlabelled,
      fun h => absurd h (by decide),fun o r va hr => ?_⟩
    · rw [hrun, hmap]
      simp only [Except.bind, M.grows.current, takePage_current]
    · rw [M.leaf o r va hr, takePage_mem, if_neg fun h => absurd h.1 (by decide)]

/-- Every aligned request returns. -/
theorem page_alloc_cases (hva : request s % 4096 = 0) :
    (freePages s = ∅ ∧ sys_page_alloc s =
      .ok ({ s with pagetable_owner := s.current }.setRax s.current FAILED)) ∨
    ∃ f res label' c s', (res = 0 ∨ res = -1) ∧
      sys_page_alloc s = .ok (s'.setRax s.current res) ∧ Allocated K f res label label' c s s' := by
  by_cases hfree : freePages s = ∅
  · exact Or.inl ⟨hfree,page_alloc_none I hfree⟩
  · by_cases hbad : index123 (request s) = -1 ∨
      freeCount s < 1+tablesMissing s.mem (currentTable s) (request s)
    · obtain ⟨f,label',c,s',hrun,A⟩ := page_alloc_failed I hva hfree hbad
      exact Or.inr ⟨f,-1,label',c,s',Or.inr rfl,hrun,A⟩
    · obtain ⟨hidx,hcount⟩ := not_or.1 hbad
      obtain ⟨f,label',s',hrun,A⟩ := page_alloc_mapped I hva hidx (by omega)
      exact Or.inr ⟨f,0,label',_,s',Or.inl rfl,hrun,A⟩

omit I in
theorem Allocated.processes (A : Allocated K f res label label' c s s') :
    s'.processes = s.processes := A.grows.processes

theorem Allocated.inv (A : Allocated K f res label label' c s s') : KInv K label' s' := by
  have hprocs := A.grows.processes
  have hlive : ∀ pid, live s' pid ↔ live s pid := fun pid => by rw [live, live, hprocs]
  have hroots : rootsOf K s' = rootsOf K s :=
    rootsOf_congr fun pid _ => ⟨hlive pid,fun _ => by rw [hprocs]⟩
  refine ⟨hroots ▸ A.paging,fun pid hp hl va hva => ?_,hprocs ▸ I.slot0,hprocs ▸ I.pids,?_,?_,?_⟩
  · rw [hprocs, A.leaf pid _ va (rootsOf_live hp ((hlive pid).1 hl))]
    split
    · omega
    · exact I.low pid hp ((hlive pid).1 hl) va hva
  · intro pn hpn pid hp hinfo
    rw [hprocs]
    rcases A.grows.pageinfo pn with h | ⟨-,h⟩
    · exact I.used pn hpn pid hp (h ▸ hinfo)
    · have hsame : (⟨s.current,1⟩ : physical_pageinfo) = ⟨pid,1⟩ := h.symm.trans hinfo
      have howner : (s.current : ℤ) = pid := congrArg physical_pageinfo.owner hsame
      rw [← Int.ofNat.inj howner]
      exact I.current_live.1
  · rw [A.grows.current]
    exact I.current_slot
  · rw [A.grows.current]
    exact (hlive _).2 I.current_live

end Cases

end WeensyOS.AllocResult
