import WeensyOS.KernelSteps

/-!
# The outcomes of fork

`fork` fills the lowest free slot and then has four ways to end: no page for
the child's root, a panic while its low tables are copied, a child that is
left half built, and a complete child. The number of free pages decides.
-/

set_option autoImplicit false

namespace WeensyOS.ForkResult
open WeensyOS.FlatMemory WeensyOS.KernelState WeensyOS.PageTables WeensyOS.PageAllocator
open WeensyOS.Exceptions WeensyOS.CheckedRuns
open WeensyOS.RadixForest WeensyOS.TableWords WeensyOS.FreePages WeensyOS.PagingInvariant
open WeensyOS.PageMaps WeensyOS.TableCopies WeensyOS.ForkCopies WeensyOS.KernelInvariant
open WeensyOS.KernelChecks WeensyOS.KernelSteps

variable {K : KernelImage} {label label' : Labels} {s s' : KState} {i r c : ℕ}

/-- The page table of the process that is executing. -/
abbrev currentTable (s : KState) : ℕ := (s.processes s.current).p_pagetable

/-- The slot of a child before it has its own page table. -/
def childSlot (i : ℕ) (s : KState) : KState :=
  s.setProc i ⟨i,(s.processes s.current).p_registers,.P_RUNNABLE,(s.processes i).p_pagetable⟩

/-- The pages `fork` copies. -/
abbrev window : List ℕ := addrs PROC_START_ADDR MEMSIZE_VIRTUAL

/-- Free pages a complete fork takes: the root and the three low tables, and what the
copying loop needs. -/
def forkNeeds (s : KState) : ℕ := 4+copyNeeds s.mem (currentTable s) false window

theorem window_pages : WindowPages window := by
  intro va hva
  obtain ⟨k,rfl,hlt⟩ := (mem_addrs _ _ _).1 hva
  refine ⟨?_,by omega,hlt⟩
  simp only [PROC_START_ADDR]
  omega

theorem window_vpages : window.map vpage = List.range' 256 512 := by
  have hcount : (MEMSIZE_VIRTUAL-PROC_START_ADDR+(PAGESIZE-1)) / PAGESIZE = 512 := rfl
  rw [window, addrs, hcount, List.map_map, List.range'_eq_map_range]
  refine List.map_congr_left fun k hk => ?_
  have hlt := List.mem_range.1 hk
  have haddr : PROC_START_ADDR+k*PAGESIZE = (256+k)*4096 := by
    simp only [PROC_START_ADDR, PAGESIZE]
    omega
  rw [Function.comp_apply, haddr, vpage_page _ (by omega)]

theorem window_nodup : (window.map vpage).Nodup := window_vpages ▸ List.nodup_range'

theorem mem_window {va : ℕ} (hva : va % 4096 = 0) (hlow : PROC_START_ADDR ≤ va)
    (hhigh : va < MEMSIZE_VIRTUAL) : va ∈ window := by
  refine (mem_addrs _ _ _).2 ⟨va / 4096-256,?_,hhigh⟩
  simp only [PROC_START_ADDR] at hlow ⊢
  omega

theorem mem_window_vpage {va : ℕ} (h : 256 ≤ vpage va ∧ vpage va < 768) :
    vpage va*4096 ∈ window ∧ vpage (vpage va*4096) = vpage va := by
  refine ⟨mem_window (Nat.mul_mod_left _ _) ?_ ?_,vpage_page _ (by omega)⟩
  · simp only [PROC_START_ADDR]
    omega
  · simp only [MEMSIZE_VIRTUAL]
    omega

theorem fork_into_eq (hi : i ≠ s.current) : fork_into i s =
    (copy_pagetable (currentTable s) i (childSlot i s)).bind fun (pt,s) =>
      if pt = NULL then .ok ((s.setPagetable i pt).setRax s.current FAILED)
      else (fork_loop i window (s.setPagetable i pt)).bind fun (copied,s) =>
        if copied then .ok ((s.setRax s.current i).setRax i 0)
        else .ok (s.setRax s.current FAILED) := by
  have hslot : ((s.setState i .P_RUNNABLE).setRegisters i
      ((s.setState i .P_RUNNABLE).processes (s.setState i .P_RUNNABLE).current).p_registers).setProc i
      { ((s.setState i .P_RUNNABLE).setRegisters i
        ((s.setState i .P_RUNNABLE).processes
          (s.setState i .P_RUNNABLE).current).p_registers).processes i with p_pid := i } =
      childSlot i s := by
    simp [childSlot, KState.setState, KState.setRegisters, KState.setProc, hi.symm]
  have htable : ((childSlot i s).processes (childSlot i s).current).p_pagetable =
      currentTable s := by
    simp [childSlot, KState.setProc, hi.symm]
  simp only [fork_into, hslot, htable]
  rfl

theorem free_slot_some (h : free_slot s = some i) : Slot i ∧ (s.processes i).p_state = .P_FREE ∧
    ∀ j, 0 < j → j < i → (s.processes j).p_state ≠ .P_FREE := by
  have hn : NPROC-1 = 15 := rfl
  rw [free_slot, List.find?_range'_eq_some] at h
  obtain ⟨hfree,hmem,hleast⟩ := h
  rw [hn, List.mem_range'_1] at hmem
  refine ⟨⟨by omega,by simp only [NPROC]; omega⟩,by simpa using hfree,fun j hpos hj => ?_⟩
  simpa using hleast j hpos hj

theorem free_slot_none (h : free_slot s = none) :
    ∀ j, Slot j → (s.processes j).p_state ≠ .P_FREE := by
  rw [free_slot, List.find?_eq_none] at h
  intro j hj
  have hmem : j ∈ List.range' 1 (NPROC-1) := by
    obtain ⟨hpos,hlt⟩ := hj
    simp only [NPROC] at hlt
    rw [List.mem_range'_1]
    simp only [NPROC]
    omega
  simpa using h j hmem

/-- Memory, ownership and the pending owner of `s'`, everything else of `s`. -/
abbrev spaceOf (s s' : KState) : KState :=
  { s with mem := s'.mem, pageinfo := s'.pageinfo, pagetable_owner := s'.pagetable_owner }

/-- The child has a root and low tables, and the loop is about to start. -/
structure ChildRoot (K : KernelImage) (i r : ℕ) (label label' : Labels) (s s' : KState) :
    Prop where
  grows : Grows i label label' 4 s (spaceOf s s')
  paging : Paging K (Function.update (rootsOf K s) i (some r)) label' s'
  leaf : ∀ va, leafWord s'.mem r va =
    if vpage va < 256 then leafWord s.mem (currentTable s) va else 0
  null : r ≠ NULL
  procs : s'.processes = Function.update s.processes i
    ⟨i,(s.processes s.current).p_registers,.P_RUNNABLE,r⟩
  current : s'.current = s.current
  owner : s'.pagetable_owner = i
  tables : OnlyTables label' s s'

theorem slot_rootless (hslot : free_slot s = some i) : rootsOf K s i = none := by
  obtain ⟨hi,hfree,-⟩ := free_slot_some hslot
  rw [rootsOf_slot hi, if_neg fun h => h.1 hfree]

theorem childSlot_paging (I : KInv K label s) (i : ℕ) :
    Paging K (rootsOf K s) label (childSlot i s) :=
  Paging.congr I.paging rfl rfl

theorem childSlot_low (I : KInv K label s) (i : ℕ) :
    LowLeaves label (childSlot i s) (currentTable s) where
  leaf va hva := (I.lowLeaves I.current_slot I.current_live).leaf va hva |>.imp fun _ h => h
  present := (I.lowLeaves I.current_slot I.current_live).present

section Fork

variable (I : KInv K label s) (hslot : free_slot s = some i)
include I hslot

theorem slot_ne_current : i ≠ s.current := by
  rintro rfl
  exact I.current_live.1 (free_slot_some hslot).2.1

/-- No page for the root. -/
theorem fork_none (hfree : freePages s = ∅) : fork s =
    .ok (({ childSlot i s with pagetable_owner := i }.setPagetable i NULL).setRax
      s.current FAILED) := by
  have hcopy := copy_pagetable_none (s := childSlot i s) (currentTable s) i
    ((freePages_congr rfl).trans hfree)
  rw [fork, hslot]
  simp only [fork_into_eq (slot_ne_current I hslot), hcopy, Except.bind, if_true]
  rfl

/-- Too few pages for the low tables. -/
theorem fork_panic (hsome : freePages s ≠ ∅) (hcount : freeCount s < 4) :
    fork s = .error (.panic "Copy pagetable failed...") := by
  obtain ⟨hi,-,-⟩ := free_slot_some hslot
  have hsame : freePages (childSlot i s) = freePages s := freePages_congr rfl
  have hcopy := copy_pagetable_panic (childSlot_paging I i) hi.owner (slot_rootless hslot)
    (rootsOf_live I.current_slot I.current_live) (childSlot_low I i) (hsame ▸ hsome)
    (by rw [freeCount, hsame]; exact hcount)
  rw [fork, hslot]
  simp only [fork_into_eq (slot_ne_current I hslot), hcopy, Except.bind]

theorem fork_root (hcount : 4 ≤ freeCount s) : ∃ r label' s',
    ChildRoot K i r label label' s s' ∧ ChildTables s'.mem r false ∧
    fork s = (fork_loop i window s').bind fun (copied,s) =>
      if copied then .ok ((s.setRax s.current i).setRax i 0)
      else .ok (s.setRax s.current FAILED) := by
  obtain ⟨hi,-,-⟩ := free_slot_some hslot
  have hsame : freePages (childSlot i s) = freePages s := freePages_congr rfl
  obtain ⟨f,label',s₁,hcopy,hnull,G,P,hpo,htabs,hleaf⟩ := copy_pagetable_ok (childSlot_paging I i)
    hi.owner (slot_rootless hslot) (rootsOf_live I.current_slot I.current_live)
    (childSlot_low I i) (by rw [freeCount, hsame]; exact hcount)
  have hlow : leafWord s₁.mem (f*4096) 0 ≠ 0 := by
    rw [hleaf 0, if_pos (by decide)]
    exact I.low _ I.current_slot I.current_live 0 (by decide)
  have T := copied_tables G P (Function.update_self ..)
    (fun n q h => I.paging.forest.label_rootless (slot_rootless hslot) h) hlow
  refine ⟨f*4096,label',s₁.setPagetable i (f*4096),⟨?_,?_,hleaf,hnull,?_,?_,hpo,htabs⟩,T,?_⟩
  · exact ⟨G.mono,G.fresh,G.pageinfo,G.bytes,G.links,G.count,rfl⟩
  · exact Paging.congr P rfl rfl
  · have hprocs := G.processes
    simp [KState.setPagetable, KState.setProc, hprocs, childSlot]
  · exact G.current
  · rw [fork, hslot]
    simp only [fork_into_eq (slot_ne_current I hslot), hcopy, Except.bind, if_neg hnull]

end Fork

/-- A fork that got past the low tables, complete or not. -/
structure Forked (K : KernelImage) (i r : ℕ) (label label' : Labels) (c : ℕ) (s s' : KState) :
    Prop where
  grows : Grows i label label' c s (spaceOf s s')
  paging : Paging K (Function.update (rootsOf K s) i (some r)) label' s'
  null : r ≠ NULL
  low : ∀ va, vpage va < 256 →
    leafWord s'.mem r va = leafWord s.mem (currentTable s) va
  high : ∀ va, 256 ≤ vpage va → leafWord s'.mem r va = 0 ∨
    (vpage va < 768 ∧ ∃ f, FreshCopy i r (currentTable s) va f label' s s')
  inj : ∀ f ∈ freePages s, ∀ va va', leafWord s'.mem r va = f*4096+7 →
    leafWord s'.mem r va' = f*4096+7 → vpage va = vpage va'
  procs : s'.processes = Function.update s.processes i
    ⟨i,(s.processes s.current).p_registers,.P_RUNNABLE,r⟩
  current : s'.current = s.current

section Loop

variable {label₁ : Labels} {s₁ : KState}

theorem ChildRoot.family (R : ChildRoot K i r label label₁ s s₁) (I : KInv K label s)
    (hslot : free_slot s = some i) :
    Family (Function.update (rootsOf K s) i (some r)) i s.current r (currentTable s) s₁ := by
  obtain ⟨hi,-,-⟩ := free_slot_some hslot
  have hne := slot_ne_current I hslot
  have hz : (s.current : ℤ) ≠ i := fun h => hne (by omega)
  refine ⟨hi.owner,I.current_slot.ne_kernel,hz,Function.update_self ..,?_,?_,?_⟩
  · rw [Function.update_of_ne hz, rootsOf_live I.current_slot I.current_live]
  · rw [R.procs, Function.update_self]
  · rw [R.procs, R.current, Function.update_of_ne hne.symm]

theorem ChildRoot.copy (R : ChildRoot K i r label label₁ s s₁) (I : KInv K label s)
    (hslot : free_slot s = some i) {va f : ℕ} (hhigh : 256 ≤ vpage va)
    (C : FreshCopy i r (currentTable s) va f label' s₁ s') :
    FreshCopy i r (currentTable s) va f label' s s' := by
  have hne := slot_ne_current I hslot
  have C' : FreshCopy i r (currentTable s) va f label' (spaceOf s s₁) s' :=
    ⟨C.fresh,C.leaf,C.info,C.unlabelled,C.bytes⟩
  exact C'.before I.paging (rootsOf_live I.current_slot I.current_live)
    I.current_slot.ne_kernel (fun h => hne (by omega)) R.grows hhigh

theorem ChildRoot.forked (R : ChildRoot K i r label label₁ s s₁) (I : KInv K label s)
    (hslot : free_slot s = some i)
    (C : Copying K (Function.update (rootsOf K s) i (some r)) i r (currentTable s) window
      label₁ label' c s₁ s') : Forked K i r label label' (4+c) s s' where
  grows := R.grows.trans ⟨C.grows.mono,C.grows.fresh,C.grows.pageinfo,C.grows.bytes,
    C.grows.links,C.grows.count,rfl⟩
  paging := C.paging
  null := R.null
  low va hva := by
    rcases C.leaf va with h | ⟨hmem,-⟩
    · rw [h, R.leaf va, if_pos hva]
    · have := (window_pages.vpage hmem).1
      omega
  high va hva := by
    rcases C.leaf va with h | ⟨hmem,f,hf⟩
    · rw [h, R.leaf va, if_neg (by omega)]
      exact Or.inl rfl
    · exact Or.inr ⟨(window_pages.vpage hmem).2,f,R.copy I hslot hva hf⟩
  inj f hf va va' hva hva' := by
    by_cases hf₁ : f ∈ freePages s₁
    · exact C.inj f hf₁ va va' hva hva'
    · -- a page taken for the low tables is not mapped at all
      exfalso
      rcases C.leaf va with h | ⟨hmem,g,hg⟩
      · rw [hva, R.leaf va] at h
        split at h
        · exact leaf_used I.paging (rootsOf_live I.current_slot I.current_live)
            I.current_slot.ne_kernel h.symm hf
        · omega
      · have := hg.leaf
        have hgf : g = f := by omega
        exact hf₁ (hgf ▸ hg.fresh)
  procs := by rw [C.grows.processes, R.procs]
  current := by rw [C.grows.current, R.current]

theorem ChildRoot.needs (R : ChildRoot K i r label label₁ s s₁) (I : KInv K label s)
    (hslot : free_slot s = some i) :
    copyNeeds s₁.mem (currentTable s) false window = forkNeeds s-4 ∧
      freeCount s₁+4 = freeCount s := by
  have Y := R.family I hslot
  have hne := slot_ne_current I hslot
  have hr := rootsOf_live (K := K) I.current_slot I.current_live
  have hkept : ∀ va, leafWord s₁.mem (currentTable s) va = leafWord s.mem (currentTable s) va :=
    I.paging.leaf_kept R.grows hr fun h => hne (by omega)
  have hneeds : copyNeeds s₁.mem (currentTable s) false window =
      copyNeeds s.mem (currentTable s) false window := copyNeeds_congr (fun va => by
    rw [writable, writable, lookup_kept I.paging R.paging hr Y.parent_root (hkept va)]) _ _
  rw [hneeds, forkNeeds]
  exact ⟨by omega,R.grows.count⟩

end Loop

section Outcome

variable (I : KInv K label s) (hslot : free_slot s = some i)
include I hslot

/-- Enough pages: a complete child. -/
theorem fork_ok (hcount : forkNeeds s ≤ freeCount s) : ∃ r label' s',
    fork s = .ok ((s'.setRax s.current i).setRax i 0) ∧
    Forked K i r label label' (forkNeeds s) s s' ∧
    (∀ va ∈ window, leafWord s.mem (currentTable s) va ≠ 0 →
      ∃ f, FreshCopy i r (currentTable s) va f label' s s') ∧
    ∀ pn, s'.pageinfo pn = s.pageinfo pn ∨ (∃ q, label' (pn*4096) = some q) ∨
      ∃ va ∈ window, leafWord s'.mem r va = pn*4096+7 := by
  have hfour : 4 ≤ forkNeeds s := Nat.le_add_right 4 _
  obtain ⟨r,label₁,s₁,R,T,hrun⟩ := fork_root I hslot (by omega)
  obtain ⟨hneeds,hfree⟩ := R.needs I hslot
  have Y := R.family I hslot
  obtain ⟨hgood,-⟩ := fork_loop_spec window_pages window_nodup R.paging Y R.owner T
  obtain ⟨label',s',hloop,C,hall,hused⟩ := hgood (by omega)
  have F := R.forked I hslot C
  rw [hneeds, Nat.add_sub_cancel' hfour] at F
  refine ⟨r,label',s',?_,F,fun va hva hne => ?_,fun pn => ?_⟩
  · rw [hrun, hloop]
    simp only [Except.bind, if_true, F.current]
  · have hkept : leafWord s₁.mem (currentTable s) va = leafWord s.mem (currentTable s) va :=
      I.paging.leaf_kept R.grows (rootsOf_live I.current_slot I.current_live)
        (fun h => slot_ne_current I hslot (by omega)) va
    obtain ⟨f,hf⟩ := hall va hva (by rw [hkept]; exact hne)
    exact ⟨f,R.copy I hslot (window_pages.vpage (List.mem_map_of_mem hva)).1 hf⟩
  · rcases hused pn with h | h
    · rcases R.tables pn with h' | ⟨q,hq⟩
      · exact Or.inl (h.trans h')
      · exact Or.inr (Or.inl ⟨q,C.grows.mono _ q hq⟩)
    · exact Or.inr h

/-- Too few pages after the low tables: the child stays half built. -/
theorem fork_short (hroot : 4 ≤ freeCount s) (hcount : freeCount s < forkNeeds s) :
    ∃ r label' s', fork s = .ok (s'.setRax s.current FAILED) ∧
      Forked K i r label label' (freeCount s) s s' := by
  obtain ⟨r,label₁,s₁,R,T,hrun⟩ := fork_root I hslot hroot
  obtain ⟨hneeds,hfree⟩ := R.needs I hslot
  have Y := R.family I hslot
  obtain ⟨-,hbad⟩ := fork_loop_spec window_pages window_nodup R.paging Y R.owner T
  obtain ⟨label',s',hloop,C⟩ := hbad (by omega)
  have F := R.forked I hslot C
  rw [add_comm, hfree] at F
  refine ⟨r,label',s',?_,F⟩
  rw [hrun, hloop]
  simp only [Except.bind, Bool.false_eq_true, if_false, F.current]

end Outcome

section Invariant

theorem Forked.other (F : Forked K i r label label' c s s') {pid : ℕ} (h : pid ≠ i) :
    s'.processes pid = s.processes pid := by
  rw [F.procs, Function.update_of_ne h]

theorem Forked.child (F : Forked K i r label label' c s s') :
    s'.processes i = ⟨i,(s.processes s.current).p_registers,.P_RUNNABLE,r⟩ := by
  rw [F.procs, Function.update_self]

theorem Forked.live_other (F : Forked K i r label label' c s s') {pid : ℕ} (h : pid ≠ i) :
    live s' pid ↔ live s pid := by
  rw [live, live, F.other h]

theorem Forked.roots (F : Forked K i r label label' c s s') (hi : Slot i) :
    rootsOf K s' = Function.update (rootsOf K s) i (some r) := by
  have hlive : live s' i := by
    rw [live, F.child]
    exact ⟨by simp,F.null⟩
  rw [rootsOf_root hi (fun j hj => F.other hj) hlive, F.child]

/-- The address spaces of the other processes are as they were. -/
theorem Forked.leaf_other (F : Forked K i r label label' c s s') (I : KInv K label s)
    {pid : ℕ} (hp : Slot pid) (hl : live s pid) (h : pid ≠ i) (va : ℕ) :
    leafWord s'.mem (s.processes pid).p_pagetable va =
      leafWord s.mem (s.processes pid).p_pagetable va :=
  I.paging.leaf_kept F.grows (rootsOf_live hp hl) (fun hx => h (Int.ofNat.inj hx)) va

variable (I : KInv K label s) (hslot : free_slot s = some i)
include I hslot

theorem Forked.inv (F : Forked K i r label label' c s s') : KInv K label' s' := by
  obtain ⟨hi,-,-⟩ := free_slot_some hslot
  have hne := slot_ne_current I hslot
  refine ⟨?_,?_,?_,?_,?_,?_,?_⟩
  · rw [F.roots hi]
    exact F.paging
  · intro pid hp hl va hva
    by_cases hpi : pid = i
    · rw [hpi, F.child, F.low va hva]
      exact I.low _ I.current_slot I.current_live va hva
    · rw [F.other hpi, F.leaf_other I hp ((F.live_other hpi).1 hl) hpi]
      exact I.low pid hp ((F.live_other hpi).1 hl) va hva
  · rw [F.other hi.1.ne]
    exact I.slot0
  · intro pid hp
    by_cases hpi : pid = i
    · rw [hpi, F.child]
    · rw [F.other hpi]
      exact I.pids pid hp
  · intro pn hpn pid hp hinfo
    by_cases hpi : pid = i
    · rw [hpi, F.child]
      simp
    · rw [F.other hpi]
      rcases F.grows.pageinfo pn with h | ⟨-,h⟩
      · exact I.used pn hpn pid hp (h ▸ hinfo)
      · have hinfo' : (⟨i,1⟩ : physical_pageinfo) = ⟨pid,1⟩ := h.symm.trans hinfo
        have howner : (i : ℤ) = pid := congrArg physical_pageinfo.owner hinfo'
        exact absurd (Int.ofNat.inj howner).symm hpi
  · rw [F.current]
    exact I.current_slot
  · rw [F.current]
    exact (F.live_other hne.symm).2 I.current_live

theorem Forked.mapped (F : Forked K i r label label' c s s') (H : KernelMapped K s) :
    KernelMapped K s' := by
  obtain ⟨hi,-,-⟩ := free_slot_some hslot
  have I' := F.inv I hslot
  intro pid hp hstate
  by_cases hpi : pid = i
  · subst hpi
    have hl : live s' pid := ⟨hstate,by rw [F.child]; exact F.null⟩
    obtain ⟨-,hmap⟩ := H s.current I.current_slot I.current_live.1
    refine ⟨hl.2,(MappingOk.congr fun va hva => ?_).2 hmap⟩
    simp only [PROC_START_ADDR] at hva
    rw [I'.lookup hp hl, I.lookup I.current_slot I.current_live, F.child,
      F.low va (by rw [vpage_small va (by omega)]; omega)]
  · rw [F.other hpi] at hstate ⊢
    obtain ⟨hnull,hmap⟩ := H pid hp hstate
    have hl : live s' pid := (F.live_other hpi).2 ⟨hstate,hnull⟩
    refine ⟨hnull,(MappingOk.congr fun va hva => ?_).2 hmap⟩
    have hlook := I'.lookup hp hl va
    rw [F.other hpi] at hlook
    rw [hlook, I.lookup hp ⟨hstate,hnull⟩, F.leaf_other I hp ⟨hstate,hnull⟩ hpi]

/-- The state `fork` leaves when there is no page for the child's root. -/
abbrev nullChild (i : ℕ) (s : KState) : KState :=
  { childSlot i s with pagetable_owner := i }.setPagetable i NULL

omit I hslot in
theorem nullChild_other {pid : ℕ} (h : pid ≠ i) :
    (nullChild i s).processes pid = s.processes pid := by
  simp [childSlot, KState.setPagetable, KState.setProc, h]

omit I hslot in
theorem nullChild_child : (nullChild i s).processes i =
    ⟨i,(s.processes s.current).p_registers,.P_RUNNABLE,NULL⟩ := by
  simp [childSlot, KState.setPagetable, KState.setProc]

theorem nullChild_inv : KInv K label (nullChild i s) := by
  obtain ⟨hi,hfree,-⟩ := free_slot_some hslot
  have hne := slot_ne_current I hslot
  have hlive : ∀ pid, live (nullChild i s) pid ↔ live s pid := by
    intro pid
    by_cases hpi : pid = i
    · rw [hpi, live, live, nullChild_child]
      exact ⟨fun h => absurd rfl h.2,fun h => absurd hfree h.1⟩
    · rw [live, live, nullChild_other hpi]
  have hsame : ∀ pid, live s pid → (nullChild i s).processes pid = s.processes pid := by
    intro pid hl
    exact nullChild_other fun h => hl.1 (h ▸ hfree)
  have hroots : rootsOf K (nullChild i s) = rootsOf K s :=
    rootsOf_congr fun pid _ => ⟨hlive pid,fun hl => by rw [hsame pid hl]⟩
  refine ⟨?_,?_,?_,?_,?_,I.current_slot,(hlive _).2 I.current_live⟩
  · rw [hroots]
    exact Paging.congr I.paging rfl rfl
  · intro pid hp hl va hva
    rw [hsame pid ((hlive pid).1 hl)]
    exact I.low pid hp ((hlive pid).1 hl) va hva
  · rw [nullChild_other hi.1.ne]
    exact I.slot0
  · intro pid hp
    by_cases hpi : pid = i
    · rw [hpi, nullChild_child]
    · rw [nullChild_other hpi]
      exact I.pids pid hp
  · intro pn hpn pid hp hinfo
    by_cases hpi : pid = i
    · rw [hpi, nullChild_child]
      simp
    · rw [nullChild_other hpi]
      exact I.used pn hpn pid hp hinfo

end Invariant

end WeensyOS.ForkResult
