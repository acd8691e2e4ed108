import WeensyOS.PrivateRuns

/-!
# The kernel's checks along runs

A run never fails an assertion as long as page requests stay in the user window
and every fork gets the pages for its child's tables. `Sound` is what such runs
keep; from a sound state each expected exception comes to an end.
-/

set_option autoImplicit false

namespace WeensyOS.SelfChecks
open WeensyOS.FlatMemory WeensyOS.KernelState WeensyOS.PageTables WeensyOS.PageAllocator
open WeensyOS.Checks WeensyOS.Exceptions WeensyOS.Boot WeensyOS.CheckedRuns WeensyOS.RadixForest
open WeensyOS.TableWords WeensyOS.FreePages WeensyOS.PagingInvariant WeensyOS.PageMaps
open WeensyOS.TableCopies WeensyOS.ForkCopies WeensyOS.KernelInvariant WeensyOS.KernelChecks
open WeensyOS.KernelSteps WeensyOS.ForkResult WeensyOS.AllocResult WeensyOS.Isolation
open WeensyOS.BootResult WeensyOS.BootRun WeensyOS.Effects WeensyOS.Runs WeensyOS.PrivateRuns

variable {K : KernelImage} {label label' : Labels} {s s' s₁ s₂ t : KState}
  {reg : x86_64_registers} {out : Outcome} {i r f c pid : ℕ} {res : ℤ}

/-- Every process that has been started has a page table. -/
def AllLive (s : KState) : Prop :=
  ∀ pid, Slot pid → (s.processes pid).p_state ≠ .P_FREE → live s pid

structure Sound (K : KernelImage) (label : Labels) (s : KState) : Prop where
  inv : KInv K label s
  isolated : Isolated (rootsOf K s) label s
  started : AllLive s

/-- The exceptions that processes and the clock cause. -/
def Expected (reg : x86_64_registers) : Prop :=
  reg.reg_intno = INT_SYS_GETPID ∨ reg.reg_intno = INT_SYS_YIELD ∨
  reg.reg_intno = INT_SYS_PAGE_ALLOC ∨ reg.reg_intno = INT_SYS_FORK ∨
  reg.reg_intno = INT_TIMER ∨ (reg.reg_intno = INT_PAGEFAULT ∧ reg.reg_err &&& PFERR_USER ≠ 0)

/-- Where `fork` finds a slot there are free pages for the four tables of `copy_pagetable`. -/
def CopySupplied (s : KState) : Prop := ∀ i, free_slot s = some i → 4 ≤ freeCount s

section Sound

theorem Sound.quiet (S : Sound K label s) (Q : Quiet s s') (hcur : s'.current = s.current) :
    Sound K label s' where
  inv := S.inv.same Q hcur
  isolated := isolated_quiet S.isolated Q
  started pid hp hstate := by
    rw [ne_eq, (Q.procs pid).1] at hstate
    exact (Q.live pid).2 (S.started pid hp hstate)

theorem Sound.mapped (S : Sound K label s) : KernelMapped K s := by
  intro pid hp hstate
  have hl := S.started pid hp hstate
  refine ⟨hl.2,mappingOk_kernelWord fun va hva => ?_⟩
  rw [S.inv.lookup hp hl, S.isolated.low pid _ hp.owner (rootsOf_live hp hl) va]
  simp only [PROC_START_ADDR] at hva
  rw [vpage_small _ (by omega)]
  omega

theorem Sound.handlers (S : Sound K label s) (hp : Slot pid)
    (hstate : (s.processes pid).p_state ≠ .P_FREE) :
    live s pid ∧ HandlersOk K s.mem (s.processes pid).p_pagetable := by
  have hl := S.started pid hp hstate
  have hr := rootsOf_live (K := K) hp hl
  exact ⟨hl,low_handlers S.inv.paging hr (S.isolated.low pid _ hp.owner hr)⟩

theorem Sound.schedule (S : Sound K label s) : ∃ out, schedule K s = .ok out :=
  schedule_ok S.inv fun _ hp hstate => S.handlers hp hstate

theorem Sound.return (S : Sound K label s) : ∃ out, exception_leave K s = .ok out := by
  by_cases hrun : (s.processes s.current).p_state = .P_RUNNABLE
  · have hhandlers := (S.handlers S.inv.current_slot (by rw [hrun]; decide)).2
    exact ⟨_,(return_iff S.inv hrun).2 ⟨hhandlers,rfl⟩⟩
  · rw [exception_leave, if_neg hrun]
    exact S.schedule

theorem booted_sound (B : Booted K label s) : Sound K label s :=
  ⟨B.inv,B.isolated,fun pid hp hstate => ⟨hstate,(B.runnable pid hp hstate).2⟩⟩

end Sound

section Steps

/-- The call of `copy_pagetable` in a supplied `fork` gets every page it asks for, in no other. -/
theorem copySupplied_iff (I : KInv K label s) : CopySupplied s ↔
    ∀ i, free_slot s = some i → ∃ pt s',
      copy_pagetable (currentTable s) i (childSlot i s) = .ok (pt,s') ∧ pt ≠ NULL := by
  refine forall₂_congr fun i hslot => ?_
  have hsame : freePages (childSlot i s) = freePages s := freePages_congr rfl
  constructor
  · intro hcount
    obtain ⟨f,label',s',hcopy,hnull,-⟩ := copy_pagetable_ok (childSlot_paging I i)
      (free_slot_some hslot).1.owner (slot_rootless hslot)
      (rootsOf_live I.current_slot I.current_live) (childSlot_low I i)
      (by rw [freeCount, hsame]; exact hcount)
    exact ⟨_,s',hcopy,hnull⟩
  · rintro ⟨pt,s',hcopy,hpt⟩
    by_contra hcount
    by_cases hfree : freePages s = ∅
    · have hnone := copy_pagetable_none (s := childSlot i s) (currentTable s) i (hsame.trans hfree)
      rw [hcopy, Except.ok.injEq, Prod.mk.injEq] at hnone
      exact hpt hnone.1
    · have hpanic := copy_pagetable_panic (childSlot_paging I i) (free_slot_some hslot).1.owner
        (slot_rootless hslot) (rootsOf_live I.current_slot I.current_live) (childSlot_low I i)
        (hsame ▸ hfree) (by rw [freeCount, hsame]; unfold freeCount at hcount; omega)
      rw [hcopy] at hpanic
      cases hpanic

/-- A supplied fork returns. -/
theorem fork_returns (I : KInv K label s) (h : CopySupplied s) : ∃ s', fork s = .ok s' := by
  cases hslot : free_slot s with
  | none => exact ⟨_,by rw [fork, hslot]⟩
  | some i =>
    have hroot := h _ hslot
    by_cases hcount : forkNeeds s ≤ freeCount s
    · obtain ⟨r,label',s',hrun,-⟩ := fork_ok I hslot hcount
      exact ⟨_,hrun⟩
    · obtain ⟨r,label',s',hrun,-⟩ := fork_short I hslot hroot (by omega)
      exact ⟨_,hrun⟩

theorem alloc_returns (I : KInv K label s) (hva : request s % 4096 = 0) :
    ∃ s', sys_page_alloc s = .ok s' := by
  rcases page_alloc_cases I hva with ⟨-,h⟩ | ⟨f,res,label',c,s',-,h,-⟩
  · exact ⟨_,h⟩
  · exact ⟨_,h⟩

/-- Started processes keep their tables unless a child gets no root. -/
theorem started_kept (E : Effect K reg label s label' s') (I : KInv K label s)
    (A : AllLive s) (h : reg.reg_intno = INT_SYS_FORK → CopySupplied s) : AllLive s' := by
  have hquiet : ∀ {t t'}, Quiet t t' → AllLive t → AllLive t' := fun Q ht pid hp hstate => by
    rw [ne_eq, (Q.procs pid).1] at hstate
    exact (Q.live pid).2 (ht pid hp hstate)
  have hforked : ∀ {i r label' c t}, free_slot s = some i → Forked K i r label label' c s t →
      AllLive t := by
    intro i r label' c t hslot F pid hp hstate
    by_cases hpi : pid = i
    · rw [hpi, live, F.child]
      exact ⟨by simp,F.null⟩
    · rw [F.other hpi] at hstate
      exact (F.live_other hpi).2 (A pid hp hstate)
  cases E with
  | getpid hno => exact hquiet (Quiet.setRax s _ _) A
  | yield hno => exact A
  | timer hno => exact A
  | fault hno huser => exact hquiet (broken_quiet I.current_live) A
  | refused hno hfree => exact hquiet (Quiet.setRax _ _ _) A
  | alloc hno hva hres hmap X =>
    refine hquiet (Quiet.setRax _ _ _) fun pid hp hstate => ?_
    rw [X.processes] at hstate
    rw [live, X.processes]
    exact A pid hp hstate
  | noSlot hno hslot => exact hquiet (Quiet.setRax s _ _) A
  | rootless hno hslot hfree =>
    have hcount := h hno _ hslot
    rw [freeCount, hfree, Finset.card_empty] at hcount
    omega
  | unfinished hno hslot hroot hshort F => exact hquiet (Quiet.setRax _ _ _) (hforked hslot F)
  | forked hno hslot hcount F C =>
    exact hquiet ((Quiet.setRax _ _ _).trans (Quiet.setRax _ _ _)) (hforked hslot F)

theorem Sound.effect (S : Sound K label s) (E : Effect K reg label s label' s')
    (hwin : reg.reg_intno = INT_SYS_PAGE_ALLOC → 256 ≤ vpage (request s) ∧ vpage (request s) < 768)
    (hsupply : reg.reg_intno = INT_SYS_FORK → CopySupplied s) : Sound K label' s' := by
  obtain ⟨t,C,Q,-⟩ := E.change S.inv.current_live
  exact ⟨E.inv S.inv,isolated_quiet (change_isolated C S.inv S.isolated hwin) Q,
    started_kept E S.inv S.started hsupply⟩

end Steps

/-- The exceptions of runs in which every copy of a page table is supplied. -/
structure Supplied (K : KernelImage) (s : KState) (reg : x86_64_registers) : Prop where
  expected : Expected reg
  window : InWindow s reg
  supply : reg.reg_intno = INT_SYS_FORK → ∀ s₁, exception_enter K reg s = .ok s₁ → CopySupplied s₁

section Handle

/-- The `switch` of `exception` comes to an end from a sound state. -/
theorem handle_ok (S : Sound K label s) (h : Expected reg)
    (hwin : reg.reg_intno = INT_SYS_PAGE_ALLOC → request s % 4096 = 0 ∧
      256 ≤ vpage (request s) ∧ vpage (request s) < 768)
    (hsupply : reg.reg_intno = INT_SYS_FORK → CopySupplied s) :
    ∃ out, exception_handle K reg s = .ok out := by
  have I := S.inv
  have hafter : ∀ {label' s'}, Effect K reg label s label' s' → Sound K label' s' :=
    fun E => S.effect E (fun hno => (hwin hno).2) hsupply
  rcases h with h | h | h | h | h | ⟨h,huser⟩
  · obtain ⟨out,hout⟩ := (hafter (.getpid h)).return
    refine ⟨out,?_⟩
    rw [exception_handle, h]
    exact hout
  · obtain ⟨out,hout⟩ := (hafter (.yield h)).schedule
    refine ⟨out,?_⟩
    rw [exception_handle, h]
    exact hout
  · obtain ⟨s',halloc⟩ := alloc_returns I (hwin h).1
    obtain ⟨label',E⟩ := page_alloc_effect I h halloc
    obtain ⟨out,hout⟩ := (hafter E).return
    refine ⟨out,?_⟩
    rw [exception_handle, h]
    exact (bind_ok_iff _ _ _).2 ⟨s',halloc,hout⟩
  · obtain ⟨s',hfork⟩ := fork_returns I (hsupply h)
    obtain ⟨label',E⟩ := fork_effect I h hfork
    obtain ⟨out,hout⟩ := (hafter E).return
    refine ⟨out,?_⟩
    rw [exception_handle, h]
    exact (bind_ok_iff _ _ _).2 ⟨s',hfork,hout⟩
  · obtain ⟨out,hout⟩ := (hafter (.timer h)).schedule
    refine ⟨out,?_⟩
    rw [exception_handle, h]
    exact hout
  · obtain ⟨out,hout⟩ := (hafter (.fault h huser)).return
    refine ⟨out,?_⟩
    rw [exception_handle, h]
    simp only [if_neg huser]
    exact hout

theorem exception_ok (S : Sound K label s) (h : Supplied K s reg) :
    ∃ out, exception K reg s = .ok out := by
  obtain ⟨s₁,henter⟩ := exception_enter_ok S.inv reg fun _ => S.mapped
  obtain ⟨-,E⟩ := exception_enter_cases S.inv henter
  have S₁ := S.quiet E.quiet E.current
  obtain ⟨out,hout⟩ := handle_ok S₁ h.expected
    (fun hno => ⟨by rw [entered_request E]; exact (h.window hno).1,window_request h.window E hno⟩)
    fun hno => h.supply hno s₁ henter
  exact ⟨out,(bind_ok_iff _ _ _).2 ⟨s₁,henter,hout⟩⟩

end Handle

theorem run_sound (hK : Loadable K) (R : Run K (Supplied K) out) :
    ∃ label, Sound K label out.state ∧ ∀ s, out = .user s → Executing K label s := by
  obtain ⟨label₀,s₀,B,X₀,-,C⟩ := R.split hK
  suffices h : ∃ label, KInv K label out.state ∧ Sound K label out.state ∧
      ∀ s, out = .user s → Executing K label s by
    obtain ⟨label,-,h⟩ := h
    exact ⟨label,h⟩
  refine continues_keeps X₀ (booted_sound B) ?_ ?_ C
  · intro reg label label' t s₁ s₂ out h X H S
    have S₁ := S.quiet H.entered.quiet H.entered.current
    have S₂ := S₁.effect H.effect (window_request h.window H.entered)
      fun hno => h.supply hno s₁ H.enter
    obtain ⟨Q,hprocs⟩ := Leaves.quiet H.leaves
    refine ⟨Leaves.inv H.leaves S₂.inv,isolated_quiet S₂.isolated Q,fun pid hp hstate => ?_⟩
    rw [hprocs] at hstate
    rw [live, hprocs]
    exact S₂.started pid hp hstate
  · intro label t m va c X h T S
    exact ⟨store_inv X.inv T,isolated_stored S.isolated X.inv T,S.started⟩

section Consistent

/-- What `check_virtual_memory` looks for. -/
structure Consistent (K : KernelImage) (s : KState) : Prop where
  tables : ∀ pid < NPROC, live s pid → ∀ d a,
    TablePage s.mem (s.processes pid).p_pagetable d a → s.pageinfo (a / PAGESIZE) = ⟨pid,1⟩
  kernel_tables : ∀ d a, TablePage s.mem K.kernel_pagetable d a →
    s.pageinfo (a / PAGESIZE) = ⟨PO_KERNEL,1⟩
  kernel_identity : MappingOk K s.mem K.kernel_pagetable
  identity : ∀ pid < NPROC, (s.processes pid).p_state ≠ .P_FREE →
    (s.processes pid).p_pagetable ≠ NULL ∧ MappingOk K s.mem (s.processes pid).p_pagetable
  owners : ∀ pn < NPAGES, (s.pageinfo pn).refcount > 0 → (s.pageinfo pn).owner ≥ 0 →
    ∃ pid < NPROC, (s.pageinfo pn).owner = pid ∧ (s.processes pid).p_state ≠ .P_FREE

theorem Sound.consistent (S : Sound K label s) : Consistent K s where
  tables pid hp hl d a T := by
    have hslot := live_slot S.inv hp hl
    obtain ⟨p,ha,-⟩ := table_page_label S.inv.paging (rootsOf_live hslot hl) T
    exact (S.inv.paging.owned a _ ha).2
  kernel_tables d a T := by
    obtain ⟨p,ha,-⟩ := table_page_label S.inv.paging rootsOf_kernel T
    exact (S.inv.paging.owned a _ ha).2
  kernel_identity := ((mappings_check_iff _).1 (kernel_mappings S.inv)).2
  identity pid hp hstate :=
    S.mapped pid ⟨Nat.pos_of_ne_zero fun h => hstate (h ▸ S.inv.slot0),hp⟩ hstate
  owners pn hpn hcount howner := by
    obtain ⟨pid,hp,hinfo⟩ := pageinfo_owners S.inv hpn ⟨hcount,howner⟩
    exact ⟨pid,hp.2,congrArg physical_pageinfo.owner hinfo,S.inv.used pn hpn pid hp hinfo⟩

end Consistent

/-- In runs with supplied forks the self-check holds throughout, and every exception is
handled to its end. -/
theorem self_checks_pass (hK : Loadable K) (R : Run K (Supplied K) out) :
    Consistent K out.state ∧ ∀ s, out = .user s → ∀ reg, Supplied K s reg →
      ∃ out', exception K reg s = .ok out' := by
  obtain ⟨label,S,-⟩ := run_sound hK R
  refine ⟨S.consistent,fun s hs reg h => ?_⟩
  subst hs
  exact exception_ok S h

theorem self_checks_after_boot : ∃ s, kernel sampleKernel (some "fork") powerOn = .ok (.user s) ∧
    Consistent sampleKernel s ∧ ∃ out,
      exception sampleKernel { x86_64_registers.zero with reg_intno := INT_SYS_YIELD } s = .ok out := by
  obtain ⟨-,s,hboot,-⟩ := sample_boot powerOn
  obtain ⟨hcons,hok⟩ := self_checks_pass sample_loadable (.boot hboot)
  refine ⟨s,hboot,hcons,hok s rfl _ ⟨Or.inr (Or.inl rfl),fun h => ?_,fun h => ?_⟩⟩
  · exact absurd h (by decide)
  · exact absurd h (by decide)

end WeensyOS.SelfChecks
