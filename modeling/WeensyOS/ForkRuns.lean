import WeensyOS.AllocRuns

/-!
# Fork along runs

What a call of `fork` means for processes in a reachable state: a successful
one makes an exact private copy. A failing one leaves traces, and the number of
free pages decides which.
-/

set_option autoImplicit false

namespace WeensyOS.ForkRuns
open WeensyOS.FlatMemory WeensyOS.KernelState WeensyOS.PageTables WeensyOS.PageAllocator
open WeensyOS.Exceptions WeensyOS.Boot WeensyOS.CheckedRuns WeensyOS.RadixForest
open WeensyOS.TableWords WeensyOS.FreePages WeensyOS.PagingInvariant WeensyOS.PageMaps
open WeensyOS.TableCopies WeensyOS.ForkCopies WeensyOS.KernelInvariant WeensyOS.KernelChecks
open WeensyOS.KernelSteps WeensyOS.ForkResult WeensyOS.AllocResult WeensyOS.Isolation
open WeensyOS.BootResult WeensyOS.BootRun WeensyOS.Effects WeensyOS.Runs WeensyOS.PrivateRuns
open WeensyOS.SelfChecks WeensyOS.Exhaustion WeensyOS.AllocRuns

variable {K : KernelImage} {allow : KState → x86_64_registers → Prop} {label label' : Labels}
  {s s' t : KState} {reg : x86_64_registers} {out : Outcome} {i r c pid : ℕ}

section Results

/-- The four ways `fork` returns, by the value it gives to its caller. -/
theorem fork_result (I : KInv K label s) (h : fork s = .ok s') :
    (result s' = toRegister FAILED ∧
      ((free_slot s = none ∧ s' = s.setRax s.current FAILED) ∨
      (∃ i, free_slot s = some i ∧ freePages s = ∅ ∧
        s' = (nullChild i s).setRax s.current FAILED) ∨
      (∃ i r label' t, free_slot s = some i ∧ 4 ≤ freeCount s ∧ freeCount s < forkNeeds s ∧
        Forked K i r label label' (freeCount s) s t ∧ s' = t.setRax s.current FAILED))) ∨
    (∃ i r label' t, free_slot s = some i ∧ forkNeeds s ≤ freeCount s ∧
      Forked K i r label label' (forkNeeds s) s t ∧ Complete i r label' s t ∧
      result s' = toRegister i ∧ s' = (t.setRax s.current i).setRax i 0) := by
  have hno : (syscall INT_SYS_FORK 0).reg_intno = INT_SYS_FORK := rfl
  obtain ⟨label',E⟩ := fork_effect I hno h
  cases E with
  | getpid hno => exact absurd hno (by decide)
  | yield hno => exact absurd hno (by decide)
  | timer hno => exact absurd hno (by decide)
  | fault hno _ => exact absurd hno (by decide)
  | refused hno _ => exact absurd hno (by decide)
  | alloc hno _ _ _ _ => exact absurd hno (by decide)
  | noSlot hno hslot => exact Or.inl ⟨result_setRax rfl _,Or.inl ⟨hslot,rfl⟩⟩
  | rootless hno hslot hfree =>
    exact Or.inl ⟨result_setRax rfl _,Or.inr (Or.inl ⟨_,hslot,hfree,rfl⟩)⟩
  | unfinished hno hslot hroot hshort F =>
    exact Or.inl ⟨result_setRax F.current _,
      Or.inr (Or.inr ⟨_,_,_,_,hslot,hroot,hshort,F,rfl⟩)⟩
  | forked hno hslot hcount F C =>
    exact Or.inr ⟨_,_,_,_,hslot,hcount,F,C,
      result_forked F.current (slot_ne_current I hslot),rfl⟩

end Results

section Needs

/-- A fork needs few pages when the caller maps few. -/
theorem forkNeeds_le (I : KInv K label s) (l : List ℕ) (h : ∀ va, 256 ≤ vpage va →
    leafWord s.mem (currentTable s) va ≠ 0 → vpage va ∈ l) : forkNeeds s ≤ 5+l.length := by
  have hmapped : ∀ va ∈ window.filter (writable s.mem (currentTable s)), vpage va ∈ l := by
    intro va hva
    obtain ⟨hwin,hw⟩ := List.mem_filter.1 hva
    refine h va (window_pages.vpage (List.mem_map_of_mem hwin)).1 fun hz => ?_
    rw [writable, I.lookup I.current_slot I.current_live] at hw
    have hnone : leafMapping (leafWord s.mem (s.processes s.current).p_pagetable va) va =
        .unmapped := by
      rw [show leafWord s.mem (s.processes s.current).p_pagetable va = 0 from hz, leafMapping_zero]
    rw [hnone] at hw
    simp [vamapping.unmapped] at hw
  have hnodup : ((window.filter (writable s.mem (currentTable s))).map vpage).Nodup :=
    List.Nodup.sublist (List.Sublist.map _ List.filter_sublist) window_nodup
  have hsub : (window.filter (writable s.mem (currentTable s))).map vpage ⊆ l := by
    intro v hv
    obtain ⟨va,hva,rfl⟩ := List.mem_map.1 hv
    exact hmapped va hva
  have hlen := (hnodup.subperm hsub).length_le
  rw [List.length_map] at hlen
  rw [forkNeeds, copyNeeds_eq]
  split <;> omega

/-- The slot of a child is there as long as one process is alone. -/
theorem solo_slot (S : Solo K label s) (Q : Quiet s t) (hcur : s.current = 1) :
    ∃ i, free_slot t = some i := by
  cases hslot : free_slot t with
  | some i => exact ⟨i,rfl⟩
  | none =>
    exfalso
    refine free_slot_none hslot 2 ⟨by decide,by decide⟩ ?_
    rw [((Q.procs 2).1).2]
    exact S.alone 2 ⟨by decide,by decide⟩ (by rw [hcur]; decide)

/-- The sample kernel in a fork that has all the pages it needs. -/
theorem sample_fork : ∃ label s t i, kernel sampleKernel (some "fork") powerOn = .ok (.user s) ∧
    exception_enter sampleKernel (syscall INT_SYS_FORK 0) s = .ok t ∧
    Sound sampleKernel label t ∧ free_slot t = some i ∧ forkNeeds t ≤ freeCount t := by
  obtain ⟨label,s,hboot,S,hcur,hfree,hleaf⟩ := sample_solo powerOn
  obtain ⟨t,henter,E,S₁,-⟩ := solo_enter S (syscall INT_SYS_FORK 0)
  obtain ⟨i,hslot⟩ := solo_slot S E.quiet hcur
  have hneeds := forkNeeds_le S₁.inv [767,256,257] fun va hva hne => by
    have htable : currentTable t = (s.processes 1).p_pagetable := by
      rw [currentTable, E.current, hcur, (E.quiet.procs 1).2.1]
    rw [htable, E.quiet.mem] at hne
    rcases hleaf va hva hne with h | h | h <;> simp [h]
  rw [← freeCount_congr E.quiet.pageinfo] at hfree
  simp only [List.length_cons, List.length_nil] at hneeds
  exact ⟨label,s,t,i,hboot,henter,S₁,hslot,by omega⟩

end Needs

section Copy

/-- The child `i` in `s'` is a private copy of the process that is current in `s`. -/
structure ExactCopy (i : ℕ) (s s' : KState) : Prop where
  slot : 0 < i ∧ i < NPROC ∧ (s.processes i).p_state = .P_FREE ∧
    ∀ j, 0 < j → j < i → (s.processes j).p_state ≠ .P_FREE
  window : ∀ va, PROC_START_ADDR ≤ va → va < MEMSIZE_VIRTUAL →
    (translation s s.current va = .unmapped ∧ translation s' i va = .unmapped) ∨
    ∃ a f perm : ℕ, translation s s.current va = ⟨a,a*PAGESIZE+va % PAGESIZE,perm⟩ ∧
      translation s' i va = ⟨f,f*PAGESIZE+va % PAGESIZE,perm⟩ ∧ f ≠ a ∧ f < NPAGES ∧
      s.pageinfo f = ⟨PO_FREE,0⟩ ∧ s'.pageinfo f = ⟨i,1⟩ ∧
      ∀ k < PAGESIZE, s'.mem (f*PAGESIZE+k) = s.mem (a*PAGESIZE+k)
  low : ∀ va < PROC_START_ADDR, translation s' i va = translation s s.current va
  beyond : ∀ va, MEMSIZE_VIRTUAL ≤ va % 2^48 → translation s' i va = .unmapped
  child : s'.processes i = ⟨i,{ (s.processes s.current).p_registers with reg_rax := 0 },
    .P_RUNNABLE,(s'.processes i).p_pagetable⟩
  parent : s'.processes s.current = withRax (s.processes s.current) i
  others : ∀ pid, pid ≠ i → pid ≠ s.current → s'.processes pid = s.processes pid
  translations : ∀ pid < NPROC, live s pid → ∀ va, translation s' pid va = translation s pid va
  bytes : ∀ pid < NPROC, live s pid → ∀ va, UserPage s pid va →
    s'.mem (translation s pid va).pa = s.mem (translation s pid va).pa
  entries : ∀ pn < NPAGES, s.pageinfo pn ≠ ⟨PO_FREE,0⟩ → s'.pageinfo pn = s.pageinfo pn

variable (I : KInv K label s) (S : Isolated (rootsOf K s) label s)
  (hslot : free_slot s = some i) (F : Forked K i r label label' c s t)
include I hslot F

theorem child_translation (va : ℕ) :
    virtual_memory_lookup t.mem r va = leafMapping (leafWord t.mem r va) va := by
  have hroot : rootsOf K t i = some r := by
    rw [F.roots (free_slot_some hslot).1, Function.update_self]
  have I' := F.inv I hslot
  exact virtual_memory_lookup_eq I'.paging.forest (I'.paging.forest.root _ _ hroot) va

/-- The address spaces of the other processes. -/
theorem forked_translation (hp : Slot pid) (hl : live s pid) (va : ℕ) :
    virtual_memory_lookup t.mem (s.processes pid).p_pagetable va =
      virtual_memory_lookup s.mem (s.processes pid).p_pagetable va := by
  have hpi : pid ≠ i := fun h => hl.1 (h ▸ (free_slot_some hslot).2.1)
  have I' := F.inv I hslot
  have hlook := I'.lookup hp ((F.live_other hpi).2 hl) va
  rw [F.other hpi] at hlook
  rw [hlook, I.lookup hp hl, F.leaf_other I hp hl hpi]

theorem final_child : ((t.setRax s.current i).setRax i 0).processes i =
    ⟨i,{ (s.processes s.current).p_registers with reg_rax := 0 },.P_RUNNABLE,r⟩ := by
  rw [setRax_self, setRax_other _ _ (slot_ne_current I hslot), F.child]
  rfl

omit I hslot in
theorem final_other (hpi : pid ≠ i) (hpc : pid ≠ s.current) :
    ((t.setRax s.current i).setRax i 0).processes pid = s.processes pid := by
  rw [setRax_other _ _ hpi, setRax_other _ _ hpc, F.other hpi]

theorem final_parent : ((t.setRax s.current i).setRax i 0).processes s.current =
    withRax (s.processes s.current) i := by
  have hne := slot_ne_current I hslot
  rw [setRax_other _ _ hne.symm, setRax_self, F.other hne.symm]

theorem final_child_translation (va : ℕ) : translation ((t.setRax s.current i).setRax i 0) i va =
    virtual_memory_lookup t.mem r va := by
  rw [translation, final_child I hslot F]
  rfl

theorem final_translation (hp : Slot pid) (hl : live s pid) (va : ℕ) :
    translation ((t.setRax s.current i).setRax i 0) pid va = translation s pid va := by
  have hpi : pid ≠ i := fun h => hl.1 (h ▸ (free_slot_some hslot).2.1)
  have htable : (((t.setRax s.current i).setRax i 0).processes pid).p_pagetable =
      (s.processes pid).p_pagetable := by
    by_cases hpc : pid = s.current
    · rw [hpc, final_parent I hslot F]
    · rw [final_other F hpi hpc]
  rw [translation, htable]
  exact forked_translation I hslot F hp hl va

include S in
/-- No byte a process can access changes. -/
theorem forked_bytes (hp : Slot pid) (hl : live s pid) {va : ℕ} (hu : UserPage s pid va) :
    t.mem (translation s pid va).pa = s.mem (translation s pid va).pa := by
  have hpi : pid ≠ i := fun h => hl.1 (h ▸ (free_slot_some hslot).2.1)
  have hkept : ∀ pn, s.pageinfo pn ≠ freeInfo → (s.pageinfo pn).owner ≠ (i : ℤ) →
      Agree s.mem t.mem (pn*4096) 4096 := by
    intro pn hused ho
    have h := I.paging.page_kept F.grows hused ho
    exact h
  by_cases hlow : vpage va < 256
  · have hcon := (low_user I S hp hl hlow).1 hu
    rw [console_translation I S hp hl hcon]
    have hentry : pageinfo_init_entry K (0xB8*4096) = ⟨PO_RESERVED,1⟩ := rfl
    have hinfo : s.pageinfo 0xB8 = ⟨PO_RESERVED,1⟩ := by
      rw [I.paging.marked 0xB8 (by decide) (by rw [hentry]; decide), hentry]
    have hbyte := hkept 0xB8 (by rw [hinfo]; decide)
      (by rw [hinfo]; simp only [PO_RESERVED]; omega) (va % 4096) (by omega)
    have haddr : va % 2^48 = 0xB8*4096+va % 4096 := by
      simp only [vpage] at hcon
      omega
    simp only [haddr]
    exact hbyte
  · obtain ⟨a,-,⟨ha,-,hinfo⟩,hmap⟩ := high_user I S hp hl (by omega) hu
    rw [hmap]
    have hbyte := hkept (a / 4096) (by rw [hinfo]; exact info_ne_free _)
      (by rw [hinfo]; exact fun h => hpi (Int.ofNat.inj h)) (va % 4096) (by omega)
    have haddr : a / 4096*4096 = a := by
      have := ha.1
      omega
    rw [haddr] at hbyte
    exact hbyte

include S in
/-- A page of the window and its copy. -/
theorem forked_window (C : Complete i r label' s t) {va : ℕ} (hlo : PROC_START_ADDR ≤ va)
    (hhi : va < MEMSIZE_VIRTUAL) :
    (translation s s.current va = .unmapped ∧ virtual_memory_lookup t.mem r va = .unmapped) ∨
    ∃ a f perm : ℕ, translation s s.current va = ⟨a,a*PAGESIZE+va % PAGESIZE,perm⟩ ∧
      virtual_memory_lookup t.mem r va = ⟨f,f*PAGESIZE+va % PAGESIZE,perm⟩ ∧ f ≠ a ∧
      f < NPAGES ∧ s.pageinfo f = ⟨PO_FREE,0⟩ ∧ t.pageinfo f = ⟨i,1⟩ ∧
      ∀ k < PAGESIZE, t.mem (f*PAGESIZE+k) = s.mem (a*PAGESIZE+k) := by
  have hp := I.current_slot
  have hl := I.current_live
  simp only [PROC_START_ADDR] at hlo
  simp only [MEMSIZE_VIRTUAL] at hhi
  have hv : vpage va = va / 4096 := vpage_small va (by omega)
  have hlook := I.lookup hp hl va
  have hchild := child_translation I hslot F va
  have hcopy : ∀ {g x}, FreshCopy i r (currentTable s) x g label' s t → vpage x = vpage va →
      virtual_memory_lookup t.mem r va = ⟨g,g*PAGESIZE+va % PAGESIZE,7⟩ := by
    intro g x hg hx
    have hdiv : g*4096 / 4096 = g := by omega
    rw [hchild, ← leafWord_congr_page hx, hg.leaf, leafMapping_frame (free_frame hg.fresh)
      (Or.inr rfl), hdiv]
  by_cases hz : leafWord s.mem (currentTable s) va = 0
  · refine Or.inl ⟨by rw [translation, hlook, hz, leafMapping_zero],?_⟩
    rcases F.high va (by omega) with h | ⟨-,g,hg⟩
    · rw [hchild, h, leafMapping_zero]
    · -- a copied page is one the parent maps
      obtain ⟨a,-,ha,-⟩ := hg.bytes
      rw [hz] at ha
      omega
  · obtain ⟨-,a,hw,⟨ha,-,hinfo⟩⟩ :=
      S.high _ _ hp.owner (rootsOf_live hp hl) va (by omega) hz
    have hwindow : 256 ≤ vpage va ∧ vpage va < 768 := by omega
    obtain ⟨hmem,hpage⟩ := mem_window_vpage hwindow
    obtain ⟨f,hf⟩ := C.copies _ hmem (by rw [leafWord_congr_page hpage]; exact hz)
    obtain ⟨hlt,hfree⟩ := (mem_freePages s f).1 hf.fresh
    obtain ⟨a',ha',hw',hbytes⟩ := hf.bytes
    have haa : a' = a := by
      rw [leafWord_congr_page hpage, hw] at hw'
      omega
    have halign := ha.1
    have haddr : a / 4096*PAGESIZE = a := by
      simp only [PAGESIZE]
      omega
    refine Or.inr ⟨a / 4096,f,7,?_,hcopy hf hpage,fun h => ?_,hlt,hfree,hf.info,fun k hk => ?_⟩
    · rw [translation, hlook, hw, leafMapping_frame ha (Or.inr rfl), haddr]
    · rw [h, hinfo] at hfree
      exact info_ne_free _ hfree
    · rw [haddr, ← haa]
      exact hbytes k hk

end Copy

/-- A fork that returns a positive value has made an exact private copy. -/
theorem fork_makes_copy (hK : Loadable K) (C : Call K InWindow reg s t) (h : fork t = .ok s')
    (hi : 0 < i ∧ i < 2^63) (hrax : result s' = UInt64.ofNat i) : ExactCopy i t s' := by
  obtain ⟨label,X,S₀⟩ : ∃ label, Executing K label s ∧ Isolated (rootsOf K s) label s := by
    obtain ⟨label,-,S,hx⟩ := run_isolated hK C.run
    exact ⟨label,hx s rfl,S⟩
  obtain ⟨-,E⟩ := exception_enter_cases X.inv C.enter
  have I := entered_inv X E
  have S := isolated_quiet S₀ E.quiet
  have hnat : (UInt64.ofNat i).toNat = i := UInt64.toNat_ofNat_of_lt' (by
    change i < 2^64
    omega)
  rcases fork_result I h with ⟨hfail,-⟩ | ⟨j,r,label',u,hslot,-,F,hcomplete,hres,rfl⟩
  · -- a negative value
    exfalso
    rw [hfail] at hrax
    have := congrArg UInt64.toNat hrax
    rw [register_failed, hnat] at this
    omega
  obtain ⟨hj,hfree,hleast⟩ := free_slot_some hslot
  obtain rfl : j = i := by
    rw [hres] at hrax
    have := congrArg UInt64.toNat hrax
    rwa [register_nat (by have := hj.2; simp only [NPROC] at this; omega), hnat] at this
  have hlook := child_translation I hslot F
  have htrans := final_child_translation I hslot F
  refine ⟨⟨hj.1,hj.2,hfree,hleast⟩,fun va hlo hhi => ?_,fun va hva => ?_,fun va hva => ?_,?_,
    final_parent I hslot F,fun pid hpj hpc => final_other F hpj hpc,
    fun pid hp hl va => final_translation I hslot F (live_slot I hp hl) hl va,
    fun pid hp hl va hu => forked_bytes I S hslot F (live_slot I hp hl) hl hu,
    fun pn hpn hused => F.grows.pageinfo_used fun hf => hused ((mem_freePages t pn).1 hf).2⟩
  · rw [htrans]
    exact forked_window I S hslot F hcomplete hlo hhi
  · simp only [PROC_START_ADDR] at hva
    have hv := vpage_small va (by omega)
    rw [htrans, hlook, F.low va (by omega), translation, I.lookup I.current_slot I.current_live]
  · simp only [MEMSIZE_VIRTUAL] at hva
    rw [htrans, hlook]
    rcases F.high va (by simp only [vpage]; omega) with hz | ⟨hlt,-⟩
    · rw [hz, leafMapping_zero]
    · simp only [vpage] at hlt
      omega
  · rw [final_child I hslot F]

theorem sample_copy : ∃ s t s' i, kernel sampleKernel (some "fork") powerOn = .ok (.user s) ∧
    exception_enter sampleKernel (syscall INT_SYS_FORK 0) s = .ok t ∧ fork t = .ok s' ∧
    0 < i ∧ result s' = UInt64.ofNat i ∧ ExactCopy i t s' := by
  obtain ⟨label,s,t,i,hboot,henter,S,hslot,hcount⟩ := sample_fork
  obtain ⟨r,label',u,hrun,F,-⟩ := fork_ok S.inv hslot hcount
  obtain ⟨hpos,hlt⟩ := (free_slot_some hslot).1
  simp only [NPROC] at hlt
  have hres : result ((u.setRax t.current i).setRax i 0) = UInt64.ofNat i := by
    rw [result_forked F.current (slot_ne_current S.inv hslot)]
    refine UInt64.toNat_inj.1 ?_
    rw [register_nat (by omega), UInt64.toNat_ofNat_of_lt' (by change i < 2^64; omega)]
  exact ⟨s,t,_,i,hboot,henter,hrun,hpos,hres,
    fork_makes_copy sample_loadable ⟨.boot hboot,henter⟩ hrun ⟨hpos,by omega⟩ hres⟩

section Failure

/-- `fork` has changed nothing but the caller's `reg_rax`. -/
structure NothingElse (s s' : KState) : Prop where
  slots : ∀ pid, pid ≠ s.current → s'.processes pid = s.processes pid
  caller : s'.processes s.current = withRax (s.processes s.current) FAILED
  entries : ∀ pn < NPAGES, s'.pageinfo pn = s.pageinfo pn
  translations : ∀ pid < NPROC, live s pid → ∀ va, translation s' pid va = translation s pid va

theorem setRax_nothingElse (s : KState) : NothingElse s (s.setRax s.current FAILED) where
  slots pid h := setRax_other _ _ h
  caller := setRax_self _ _ _
  entries _ _ := rfl
  translations pid _ _ va := by
    have Q := Quiet.setRax s s.current FAILED
    rw [translation, (Q.procs pid).2.1, Q.mem]

/-- A fork that returns -1 has left no trace exactly when it did so for want of a slot: with
a free slot, either it succeeds or the number of free pages leads to a panic. -/
theorem failed_fork_unchanged_iff (hK : Loadable K) (C : Call K Any reg s t) :
    (∀ s', fork t = .ok s' → result s' = toRegister FAILED → NothingElse t s') ↔
    free_slot t = none ∨ (1 ≤ freeCount t ∧ freeCount t ≤ 3) ∨ forkNeeds t ≤ freeCount t := by
  obtain ⟨label,-,-,-,I⟩ := C.inv hK
  constructor
  · intro hall
    by_contra hbad
    rw [not_or, not_or] at hbad
    obtain ⟨hsome,hfew,hneeds⟩ := hbad
    cases hslot : free_slot t with
    | none => exact hsome hslot
    | some i =>
      have hne := slot_ne_current I hslot
      have hstate := (free_slot_some hslot).2.1
      -- the slot is taken whatever comes of it
      have htaken : ∀ u : KState, fork t = .ok (u.setRax t.current FAILED) → u.current = t.current →
          (u.processes i).p_state = .P_RUNNABLE → False := by
        intro u hrun hcur hu
        have h := (hall _ hrun (result_setRax hcur _)).slots i hne
        rw [setRax_other _ _ hne] at h
        rw [h, hstate] at hu
        cases hu
      by_cases hfree : freePages t = ∅
      · refine htaken _ (fork_none I hslot hfree) rfl ?_
        change ((nullChild i t).processes i).p_state = _
        rw [nullChild_child]
      · have hpos : freeCount t ≠ 0 := fun h => hfree ((freeCount_eq_zero t).1 h)
        obtain ⟨r,label',u,hrun,F⟩ := fork_short I hslot (by omega) (by omega)
        exact htaken u hrun F.current (by rw [F.child])
  · intro hcond s' h hres
    rcases fork_result I h with ⟨-,⟨-,rfl⟩ | ⟨i,hslot,hfree,-⟩ | ⟨i,r,label',u,hslot,hroot,hshort,-⟩⟩ |
      ⟨i,r,label',u,hslot,-,-,-,hi,-⟩
    · exact setRax_nothingElse t
    · exfalso
      rcases hcond with hnone | ⟨hone,-⟩ | hneeds
      · rw [hslot] at hnone
        cases hnone
      · have := (freeCount_eq_zero t).2 hfree
        omega
      · have := (freeCount_eq_zero t).2 hfree
        have hfour : 4 ≤ forkNeeds t := Nat.le_add_right 4 _
        omega
    · exfalso
      rcases hcond with hnone | ⟨-,hthree⟩ | hneeds
      · rw [hslot] at hnone
        cases hnone
      · omega
      · omega
    · -- a child's pid is not -1
      exfalso
      rw [hres] at hi
      have hlt := (free_slot_some hslot).1.2
      have := congrArg UInt64.toNat hi
      simp only [NPROC] at hlt
      rw [register_failed, register_nat (by omega)] at this
      omega

theorem failed_fork_unchanged_after_boot : ∃ s t,
    kernel sampleKernel (some "fork") powerOn = .ok (.user s) ∧
    exception_enter sampleKernel (syscall INT_SYS_FORK 0) s = .ok t ∧
    ∀ s', fork t = .ok s' → result s' = toRegister FAILED → NothingElse t s' := by
  obtain ⟨label,s,t,i,hboot,henter,S,hslot,hcount⟩ := sample_fork
  exact ⟨s,t,hboot,henter,(failed_fork_unchanged_iff sample_loadable
    ⟨.boot hboot,henter⟩).2 (Or.inr (Or.inr hcount))⟩

/-- The sample kernel in a fork with a free slot and no free page. -/
theorem sample_rootless : ∃ label s t i, Run sampleKernel Any (.user s) ∧
    exception_enter sampleKernel (syscall INT_SYS_FORK 0) s = .ok t ∧
    Sound sampleKernel label t ∧ free_slot t = some i ∧ freePages t = ∅ ∧
    (t.processes t.current).p_state = .P_RUNNABLE := by
  obtain ⟨label,s,R,S,hcur,hz⟩ := sample_drained
  obtain ⟨t,henter,E,S₁,hrun⟩ := solo_enter S (syscall INT_SYS_FORK 0)
  have hfree : freePages t = ∅ := by
    rw [freePages_congr E.quiet.pageinfo]
    exact (freeCount_eq_zero s).1 hz
  obtain ⟨i,hslot⟩ := solo_slot S E.quiet hcur
  exact ⟨label,s,t,i,R.mono fun _ _ _ => trivial,henter,S₁,hslot,hfree,hrun⟩

/-- With no page free the child is left in its slot without a page table. -/
theorem fork_without_pages : ∃ s t s', Run sampleKernel Any (.user s) ∧
    exception_enter sampleKernel (syscall INT_SYS_FORK 0) s = .ok t ∧ fork t = .ok s' ∧
    result s' = toRegister FAILED ∧ ∃ i, Slot i ∧ (t.processes i).p_state = .P_FREE ∧
      (s'.processes i).p_state = .P_RUNNABLE ∧ (s'.processes i).p_pagetable = NULL := by
  obtain ⟨label,s,t,i,R,henter,S,hslot,hfree,-⟩ := sample_rootless
  obtain ⟨hi,hstate,-⟩ := free_slot_some hslot
  have hne := slot_ne_current S.inv hslot
  have hchild : ((nullChild i t).setRax t.current FAILED).processes i =
      ⟨i,(t.processes t.current).p_registers,.P_RUNNABLE,NULL⟩ := by
    rw [setRax_other _ _ hne, nullChild_child]
  refine ⟨s,t,_,R,henter,fork_none S.inv hslot hfree,result_setRax rfl _,i,hi,hstate,?_,?_⟩
  · exact congrArg proc.p_state hchild
  · exact congrArg proc.p_pagetable hchild

end Failure

section Survival

/-- No exception at all: only stores of the process. -/
abbrev Never : KState → x86_64_registers → Prop := fun _ _ => False

theorem stored_mapped {m : Memory} (I : KInv K label s) (T : TablesKept label s m)
    (H : KernelMapped K s) : KernelMapped K { s with mem := m } := by
  intro pid hp hstate
  obtain ⟨hnull,hmap⟩ := H pid hp hstate
  have hl : live s pid := ⟨hstate,hnull⟩
  refine ⟨hnull,(MappingOk.congr fun va _ => ?_).2 hmap⟩
  have hlook := (store_inv I T).lookup hp hl va
  rw [hlook, I.lookup hp hl, T.leaves I.paging _ _ va (rootsOf_live hp hl)]

/-- Stores of a process do not disturb the kernel's checks. -/
theorem stores_mapped (X : Executing K label s) (H : KernelMapped K s)
    (C : Continues K Never s (.user s')) : ∃ label', Executing K label' s' ∧ KernelMapped K s' := by
  obtain ⟨label',-,H',hx⟩ := continues_keeps (P := fun _ t => KernelMapped K t) X H
    (fun _ _ _ _ _ _ _ h => absurd h id)
    (fun _ _ _ _ _ X _ T H => stored_mapped X.inv T H) C
  exact ⟨label',hx s' rfl,H'⟩

theorem fork_mapped (I : KInv K label s) (H : KernelMapped K s) (h : fork s = .ok s')
    (hcount : free_slot s = none ∨ 4 ≤ freeCount s) : KernelMapped K s' := by
  rcases fork_result I h with ⟨-,⟨-,rfl⟩ | ⟨i,hslot,hfree,-⟩ | ⟨i,r,label',u,hslot,-,-,F,rfl⟩⟩ |
    ⟨i,r,label',u,hslot,-,F,-,-,rfl⟩
  · exact H.quiet (Quiet.setRax _ _ _)
  · exfalso
    rw [hslot] at hcount
    have hz := (freeCount_eq_zero s).2 hfree
    rcases hcount with hc | hc
    · cases hc
    · omega
  · exact (F.mapped I hslot H).quiet (Quiet.setRax _ _ _)
  · exact (F.mapped I hslot H).quiet ((Quiet.setRax _ _ _).trans (Quiet.setRax _ _ _))

/-- What `fork` returns when it returns. -/
theorem fork_value (I : KInv K label s) (h : fork s = .ok s') :
    (∃ i, Slot i ∧ result s' = toRegister i) ∨ result s' = toRegister FAILED := by
  rcases fork_result I h with ⟨hres,-⟩ | ⟨i,r,label',u,hslot,-,-,-,hres,-⟩
  · exact Or.inr hres
  · exact Or.inl ⟨i,(free_slot_some hslot).1,hres⟩

/-- The kernel gets over a fork, and over the checks of the next exception, exactly when no
slot is free or there are pages for the child's root and low tables. -/
theorem fork_survives_iff (hK : Loadable K) (C : Call K Any reg s t)
    (hno : reg.reg_intno = INT_SYS_FORK) :
    (∃ s', fork t = .ok s' ∧
      ((∃ i, Slot i ∧ result s' = toRegister i) ∨ result s' = toRegister FAILED) ∧
      ∃ s'', exception_leave K s' = .ok (.user s'') ∧ ∀ u, Continues K Never s'' (.user u) →
        ∀ reg', ∃ u', exception_enter K reg' u = .ok u') ↔
    free_slot t = none ∨ 4 ≤ freeCount t := by
  obtain ⟨label,X,E,hmapped,I⟩ := C.inv hK
  have H := hmapped (Or.inl (by rw [hno]; decide))
  have hrun := entered_runnable X E
  have hafter : ∀ {s'}, fork t = .ok s' → (s'.processes s'.current).p_state = .P_RUNNABLE ∧
      ∃ label', KInv K label' s' := by
    intro s' h
    obtain ⟨label',F⟩ := fork_effect I hno h
    have hcur : s'.current = t.current := (F.change I.current_live).choose_spec.2.2
    rw [hcur, F.state_kept I (by rw [hno]; decide)]
    exact ⟨hrun,label',F.inv I⟩
  constructor
  · rintro ⟨s',h,-,s'',hret,hnext⟩
    obtain ⟨hrun',label',I'⟩ := hafter h
    obtain ⟨-,hs''⟩ := (return_iff I' hrun').1 hret
    cases hs''
    have I'' : KInv K label' (resumed s' s'.current) :=
      I'.same ⟨rfl,rfl,fun _ => ⟨Iff.rfl,rfl,rfl⟩⟩ rfl
    by_contra hbad
    rw [not_or] at hbad
    rcases fork_result I h with ⟨-,⟨hslot,-⟩ | ⟨i,hslot,hfree,heq⟩ | ⟨i,r,label',u,hslot,hroot,-⟩⟩ |
      ⟨i,r,label',u,hslot,hcount,-⟩
    · exact hbad.1 hslot
    · -- the next exception finds a process without a page table
      obtain ⟨u',henter⟩ := hnext _ .refl (syscall INT_SYS_YIELD 0)
      obtain ⟨hmap,-⟩ := exception_enter_cases I'' henter
      obtain ⟨hi,-,-⟩ := free_slot_some hslot
      have hchild : s'.processes i = ⟨i,(t.processes t.current).p_registers,.P_RUNNABLE,NULL⟩ := by
        rw [heq, setRax_other _ _ (slot_ne_current I hslot), nullChild_child]
      have hnull := (hmap (Or.inl (by decide)) i hi (by
        change (s'.processes i).p_state ≠ _
        rw [hchild]
        exact procstate.noConfusion)).1
      exact hnull (congrArg proc.p_pagetable hchild)
    · omega
    · have hfour : 4 ≤ forkNeeds t := Nat.le_add_right 4 _
      omega
  · intro hcond
    obtain ⟨s',h⟩ : ∃ s', fork t = .ok s' := by
      rcases hcond with hslot | hcount
      · exact ⟨_,by rw [fork, hslot]⟩
      · exact fork_returns I fun _ _ => hcount
    obtain ⟨hrun',label',I'⟩ := hafter h
    have H' := fork_mapped I H h hcond
    have hret := (return_iff I' hrun').2 ⟨mappingOk_handlers I' I'.current_slot I'.current_live
      (H' _ I'.current_slot I'.current_live.1).2,rfl⟩
    have Q : Quiet s' (resumed s' s'.current) := ⟨rfl,rfl,fun _ => ⟨Iff.rfl,rfl,rfl⟩⟩
    refine ⟨s',h,fork_value I h,_,hret,fun u hu reg' => ?_⟩
    obtain ⟨label'',X'',H''⟩ := stores_mapped ⟨I'.same Q rfl,hrun',rfl⟩ (H'.quiet Q) hu
    exact exception_enter_ok X''.inv reg' fun _ => H''

/-- The next exception after a fork without free pages fails the kernel's check. -/
theorem fork_without_pages_fails_check : ∃ s t s' s'', Run sampleKernel Any (.user s) ∧
    exception_enter sampleKernel (syscall INT_SYS_FORK 0) s = .ok t ∧ fork t = .ok s' ∧
    exception_leave sampleKernel s' = .ok (.user s'') ∧
    ∀ u, exception_enter sampleKernel (syscall INT_SYS_YIELD 0) s'' ≠ .ok u := by
  obtain ⟨label,s,t,i,R,henter,S,hslot,hfree,hrun⟩ := sample_rootless
  have I := S.inv
  obtain ⟨hi,-,-⟩ := free_slot_some hslot
  have hne := slot_ne_current I hslot
  have Q : Quiet (nullChild i t) ((nullChild i t).setRax t.current FAILED) := Quiet.setRax _ _ _
  have I' := (nullChild_inv I hslot).same Q rfl
  have hself : ((nullChild i t).setRax t.current FAILED).processes t.current =
      withRax (t.processes t.current) FAILED := by
    rw [setRax_self, nullChild_other hne.symm]
  have hchild : ((nullChild i t).setRax t.current FAILED).processes i =
      ⟨i,(t.processes t.current).p_registers,.P_RUNNABLE,NULL⟩ := by
    rw [setRax_other _ _ hne, nullChild_child]
  generalize hu : (nullChild i t).setRax t.current FAILED = u at I' hself hchild
  have hcur : u.current = t.current := by rw [← hu]; rfl
  have hmem : u.mem = t.mem := by rw [← hu]; rfl
  have hret := (return_iff I' (by rw [hcur, hself]; exact hrun)).2 ⟨by
    rw [hcur, hself, hmem]
    exact (S.handlers I.current_slot I.current_live.1).2,rfl⟩
  refine ⟨s,t,u,_,R,henter,by rw [← hu]; exact fork_none I hslot hfree,hret,fun v hv => ?_⟩
  have Q' : Quiet u (resumed u u.current) := ⟨rfl,rfl,fun _ => ⟨Iff.rfl,rfl,rfl⟩⟩
  obtain ⟨hmap,-⟩ := exception_enter_cases (I'.same Q' rfl) hv
  have hnull := (hmap (Or.inl (by decide)) i hi (by
    change (u.processes i).p_state ≠ _
    rw [hchild]
    exact procstate.noConfusion)).1
  exact hnull (congrArg proc.p_pagetable hchild)

theorem fork_survives_after_boot : ∃ s t s',
    kernel sampleKernel (some "fork") powerOn = .ok (.user s) ∧
    exception_enter sampleKernel (syscall INT_SYS_FORK 0) s = .ok t ∧ fork t = .ok s' ∧
    ∃ s'', exception_leave sampleKernel s' = .ok (.user s'') ∧
      ∃ u, exception_enter sampleKernel (syscall INT_SYS_YIELD 0) s'' = .ok u := by
  obtain ⟨label,s,t,i,hboot,henter,S,hslot,hcount⟩ := sample_fork
  have hfour : 4 ≤ forkNeeds t := Nat.le_add_right 4 _
  have hno : (syscall INT_SYS_FORK 0).reg_intno = INT_SYS_FORK := rfl
  obtain ⟨s',hfork,-,s'',hret,hnext⟩ := (fork_survives_iff sample_loadable
    ⟨.boot hboot,henter⟩ hno).2 (Or.inr (by omega))
  exact ⟨s,t,s',hboot,henter,hfork,s'',hret,hnext _ .refl _⟩

end Survival

section Sharing

/-- Page requests leave the kernel image, its stack and the console alone. -/
def AvoidsKernel (K : KernelImage) : KState → x86_64_registers → Prop := fun _ reg =>
  reg.reg_intno = INT_SYS_PAGE_ALLOC → reg.reg_rdi.toNat % PAGESIZE = 0 ∧
    ∀ a, a ∈ addrs KERNEL_START_ADDR K.kernel_end ∨ a = KERNEL_STACK_TOP-PAGESIZE ∨ a = console →
      reg.reg_rdi.toNat % 2^48 / PAGESIZE ≠ a / PAGESIZE

variable (I : KInv K label s)
include I

/-- The page a process accesses is the console's or one of its owner's. -/
theorem user_page (hp : Slot pid) (hl : live s pid) {va : ℕ} (hu : UserPage s pid va) :
    ∃ a, Frame a ∧ (translation s pid va).pn = (a / 4096 : ℕ) ∧ a / 4096 ∉ freePages s := by
  have hlook := I.lookup hp hl va
  have hleaf := I.leaf hp hl va
  have hused : ∀ {f}, leafWord s.mem (s.processes pid).p_pagetable va = f*4096+7 →
      f ∉ freePages s := fun hw => leaf_used I.paging (rootsOf_live hp hl) hp.ne_kernel hw
  rw [UserPage, translation, hlook] at hu
  rw [translation, hlook]
  have hdone : ∀ a, Frame a → leafWord s.mem (s.processes pid).p_pagetable va = a+7 →
      ∃ b, Frame b ∧ (leafMapping (a+7) va).pn = (b / 4096 : ℕ) ∧ b / 4096 ∉ freePages s := by
    intro a ha hw
    have haddr : a / 4096*4096 = a := by
      have := ha.1
      omega
    refine ⟨a,ha,by rw [leafMapping_frame ha (Or.inr rfl)],hused ?_⟩
    rw [haddr]
    exact hw
  generalize hw : leafWord s.mem (s.processes pid).p_pagetable va = e at hu hleaf hdone ⊢
  cases hleaf with
  | empty => exact absurd hu (by rw [leafMapping_zero]; decide)
  | kernel a ha hlow =>
    rw [leafMapping_frame ha (Or.inl rfl)] at hu
    exact absurd (show 3 &&& PTE_U = 0 from rfl) hu
  | console hlow => exact hdone console ⟨by decide,by decide⟩ rfl
  | user a ha hu' => exact hdone a ha rfl

omit I in
/-- A fork leaves parent and child without a common page but the console exactly when it does
not succeed or the parent has no other accessible page below `PROC_START_ADDR`. -/
theorem forks_share_nothing_iff (hK : Loadable K) (C : Call K (AvoidsKernel K) reg s t) :
    (∀ s' i, fork t = .ok s' → 0 < i → i < 2^63 → result s' = UInt64.ofNat i →
      ∀ va va', UserPage s' t.current va → UserPage s' i va' →
        (translation s' i va').pn = (translation s' t.current va).pn →
        (translation s' t.current va).pn = (console / PAGESIZE : ℕ)) ↔
    free_slot t = none ∨ freeCount t < forkNeeds t ∨ ∀ va, va % 2^48 < PROC_START_ADDR →
      UserPage t t.current va → (translation t t.current va).pn = (console / PAGESIZE : ℕ) := by
  obtain ⟨label,-,-,-,I⟩ := C.inv hK
  have hp := I.current_slot
  have hl := I.current_live
  have hshared : ∀ {i r c label' u}, free_slot t = some i → Forked K i r label label' c t u →
      ∀ va, vpage va < 256 →
      translation ((u.setRax t.current i).setRax i 0) i va = translation t t.current va := by
    intro i r c label' u hslot F va hva
    rw [final_child_translation I hslot F, child_translation I hslot F, F.low va hva,
      translation, I.lookup hp hl]
  have hpid : ∀ {i}, free_slot t = some i → 0 < i ∧ i < 2^63 ∧
      toRegister i = UInt64.ofNat i := by
    intro i hslot
    obtain ⟨hpos,hlt⟩ := (free_slot_some hslot).1
    simp only [NPROC] at hlt
    refine ⟨hpos,by omega,UInt64.toNat_inj.1 ?_⟩
    rw [register_nat (by omega), UInt64.toNat_ofNat_of_lt' (by change i < 2^64; omega)]
  constructor
  · intro hall
    by_contra hbad
    rw [not_or, not_or] at hbad
    obtain ⟨hsome,hneeds,hlow⟩ := hbad
    cases hslot : free_slot t with
    | none => exact hsome hslot
    | some i =>
      obtain ⟨r,label',u,hrun,F,-⟩ := fork_ok I hslot (by omega)
      obtain ⟨hpos,hlt,hreg⟩ := hpid hslot
      refine hlow fun va hva hu => ?_
      have hv : vpage va < 256 := by
        simp only [PROC_START_ADDR] at hva
        simp only [vpage]
        omega
      have hparent := final_translation I hslot F hp hl va
      have hchild := hshared hslot F va hv
      have hres := result_forked F.current (slot_ne_current I hslot)
      have h := hall _ i hrun hpos hlt (hres.trans hreg) va va
        (by rw [UserPage, hparent]; exact hu) (by rw [UserPage, hchild]; exact hu)
        (by rw [hparent, hchild])
      rwa [hparent] at h
  · intro hcond s' i hrun hpos hlt hres va va' hu hu' hpn
    have hnat : (UInt64.ofNat i).toNat = i := UInt64.toNat_ofNat_of_lt' (by
      change i < 2^64
      omega)
    rcases fork_result I hrun with ⟨hfail,-⟩ | ⟨j,r,label',u,hslot,hcount,F,-,hres',rfl⟩
    · exfalso
      rw [hfail] at hres
      have := congrArg UInt64.toNat hres
      rw [register_failed, hnat] at this
      omega
    obtain rfl : j = i := by
      rw [(hpid hslot).2.2] at hres'
      have := congrArg UInt64.toNat (hres'.symm.trans hres)
      rwa [UInt64.toNat_ofNat_of_lt' (by have := (hpid hslot).2.1; change j < 2^64; omega),
        hnat] at this
    have hlow : ∀ va, va % 2^48 < PROC_START_ADDR → UserPage t t.current va →
        (translation t t.current va).pn = (console / PAGESIZE : ℕ) := by
      rcases hcond with hnone | hfew | hlow
      · rw [hslot] at hnone
        cases hnone
      · omega
      · exact hlow
    have hparent := final_translation I hslot F hp hl va
    by_cases hv : vpage va' < 256
    · have hchild := hshared hslot F va' hv
      rw [UserPage, hchild] at hu'
      rw [← hpn, hchild]
      refine hlow va' ?_ hu'
      simp only [vpage] at hv
      simp only [PROC_START_ADDR]
      omega
    · -- the copy is in a page that was free
      exfalso
      have htrans := final_child_translation I hslot F va'
      have hlook := child_translation I hslot F va'
      rcases F.high va' (by omega) with hz | ⟨-,f,hf⟩
      · rw [UserPage, htrans, hlook, hz, leafMapping_zero] at hu'
        exact hu' rfl
      · have hdiv : f*4096 / 4096 = f := by omega
        rw [UserPage, hparent] at hu
        obtain ⟨a,ha,hpa,hused⟩ := user_page I hp hl hu
        rw [htrans, hlook, hf.leaf, leafMapping_frame (free_frame hf.fresh) (Or.inr rfl), hdiv,
          hparent, hpa] at hpn
        simp only [Nat.cast_inj] at hpn
        exact hused (hpn ▸ hf.fresh)

omit I in
/-- A page taken below `PROC_START_ADDR` is shared with the child. -/
theorem low_page_shared : ∃ s t s', ∃ i : ℕ,
    Run sampleKernel (AvoidsKernel sampleKernel) (.user s) ∧
    exception_enter sampleKernel (syscall INT_SYS_FORK 0) s = .ok t ∧ fork t = .ok s' ∧
    0 < i ∧ result s' = toRegister i ∧ UserPage s' t.current 0x1000 ∧ UserPage s' i 0x1000 ∧
    (translation s' i 0x1000).pn = (translation s' t.current 0x1000).pn ∧
    (translation s' t.current 0x1000).pn ≠ (console / PAGESIZE : ℕ) := by
  obtain ⟨label,s,s',f,hboot,hexc,I,H,hcur,hslots,hfree,htrans,hcon,hleaf⟩ := sample_low_page
  have R : Run sampleKernel (AvoidsKernel sampleKernel) (.user s') := by
    refine .exception (.boot hboot) (fun _ => ⟨by decide,fun a ha => ?_⟩) hexc
    have hreq : (syscall INT_SYS_PAGE_ALLOC 0x1000).reg_rdi.toNat % 2^48 / PAGESIZE = 1 := rfl
    rw [hreq]
    rcases ha with ha | rfl | rfl
    · have := kernel_addr_low ha
      simp only [PAGESIZE]
      omega
    · decide
    · decide
  obtain ⟨t,henter⟩ := exception_enter_ok I (syscall INT_SYS_FORK 0) fun _ => H
  obtain ⟨-,E⟩ := exception_enter_cases I henter
  have I' := I.same E.quiet E.current
  have hone : t.current = 1 := E.current.trans hcur
  have hp := I'.current_slot
  have hl := I'.current_live
  cases hslot : free_slot t with
  | none =>
    exfalso
    refine free_slot_none hslot 2 ⟨by decide,by decide⟩ ?_
    rw [((E.quiet.procs 2).1).2]
    exact hslots 2 ⟨by decide,by decide⟩ (by decide)
  | some i =>
    have hneeds := forkNeeds_le I' [767,256,257] fun va hva hne => by
      have htable : currentTable t = (s'.processes 1).p_pagetable := by
        rw [currentTable, hone, (E.quiet.procs 1).2.1]
      rw [htable, E.quiet.mem] at hne
      rcases hleaf va hva hne with h | h | h <;> simp [h]
    rw [← freeCount_congr E.quiet.pageinfo] at hfree
    simp only [List.length_cons, List.length_nil] at hneeds
    obtain ⟨r,label',u,hrun,F,-⟩ := fork_ok I' hslot (by omega)
    have hparent : translation ((u.setRax t.current i).setRax i 0) t.current 0x1000 =
        ⟨f,f*4096,7⟩ := by
      rw [final_translation I' hslot F hp hl, hone, translation, E.quiet.mem,
        (E.quiet.procs 1).2.1]
      exact htrans
    have hchild : translation ((u.setRax t.current i).setRax i 0) i 0x1000 = ⟨f,f*4096,7⟩ := by
      rw [final_child_translation I' hslot F, child_translation I' hslot F,
        F.low 0x1000 (by decide), ← I'.lookup hp hl]
      have h := final_translation I' hslot F hp hl 0x1000
      rw [hparent] at h
      exact h.symm
    have huser : 7 &&& PTE_U ≠ 0 := by decide
    refine ⟨s',t,_,i,R,henter,hrun,(free_slot_some hslot).1.1,
      result_forked F.current (slot_ne_current I' hslot),?_,?_,?_,?_⟩
    · rw [UserPage, hparent]
      exact huser
    · rw [UserPage, hchild]
      exact huser
    · rw [hparent, hchild]
    · rw [hparent]
      exact fun h => hcon (Int.ofNat.inj h)

omit I in
theorem forks_share_nothing_after_boot : ∃ s t,
    kernel sampleKernel (some "fork") powerOn = .ok (.user s) ∧
    exception_enter sampleKernel (syscall INT_SYS_FORK 0) s = .ok t ∧
    ∀ s' i, fork t = .ok s' → 0 < i → i < 2^63 → result s' = UInt64.ofNat i →
      ∀ va va', UserPage s' t.current va → UserPage s' i va' →
        (translation s' i va').pn = (translation s' t.current va).pn →
        (translation s' t.current va).pn = (console / PAGESIZE : ℕ) := by
  obtain ⟨label,s,t,i,hboot,henter,S,-⟩ := sample_fork
  refine ⟨s,t,hboot,henter,(forks_share_nothing_iff sample_loadable
    ⟨.boot hboot,henter⟩).2 (Or.inr (Or.inr fun va hva hu => ?_))⟩
  have hp := S.inv.current_slot
  have hl := S.inv.current_live
  have hv : vpage va < 256 := by
    simp only [PROC_START_ADDR] at hva
    simp only [vpage]
    omega
  have hcon := (low_user S.inv S.isolated hp hl hv).1 hu
  rw [console_translation S.inv S.isolated hp hl hcon]
  rfl

end Sharing

end WeensyOS.ForkRuns
