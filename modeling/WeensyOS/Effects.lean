import WeensyOS.AllocResult

/-!
# What one exception does

`Effect` lists every way the `switch` of `exception` can change the state, with
all that is known about each. Whatever holds over runs is derived from it.
-/

set_option autoImplicit false

namespace WeensyOS.Effects
open WeensyOS.FlatMemory WeensyOS.KernelState WeensyOS.PageTables WeensyOS.PageAllocator
open WeensyOS.Checks WeensyOS.Exceptions WeensyOS.CheckedRuns WeensyOS.RadixForest
open WeensyOS.TableWords WeensyOS.FreePages WeensyOS.PagingInvariant WeensyOS.PageMaps
open WeensyOS.TableCopies WeensyOS.ForkCopies WeensyOS.KernelInvariant WeensyOS.KernelChecks
open WeensyOS.KernelSteps WeensyOS.ForkResult WeensyOS.AllocResult

variable {K : KernelImage} {label label' : Labels} {s s' t : KState} {reg : x86_64_registers}
  {i r f c pid : ℕ} {res : ℤ}

/-- A fork that succeeds copies each page of the parent and takes no page besides. -/
structure Complete (i r : ℕ) (label' : Labels) (s s' : KState) : Prop where
  copies : ∀ va ∈ window, leafWord s.mem (currentTable s) va ≠ 0 →
    ∃ f, FreshCopy i r (currentTable s) va f label' s s'
  pages : ∀ pn, s'.pageinfo pn = s.pageinfo pn ∨ (∃ q, label' (pn*4096) = some q) ∨
    ∃ va ∈ window, leafWord s'.mem r va = pn*4096+7

inductive Effect (K : KernelImage) (reg : x86_64_registers) (label : Labels) (s : KState) :
    Labels → KState → Prop where
  | getpid (hno : reg.reg_intno = INT_SYS_GETPID) :
    Effect K reg label s label (s.setRax s.current (s.processes s.current).p_pid)
  | yield (hno : reg.reg_intno = INT_SYS_YIELD) : Effect K reg label s label s
  | timer (hno : reg.reg_intno = INT_TIMER) :
    Effect K reg label s label { s with ticks := s.ticks+1 }
  | fault (hno : reg.reg_intno = INT_PAGEFAULT) (huser : reg.reg_err &&& PFERR_USER ≠ 0) :
    Effect K reg label s label (s.setState s.current .P_BROKEN)
  | refused (hno : reg.reg_intno = INT_SYS_PAGE_ALLOC) (hfree : freePages s = ∅) :
    Effect K reg label s label ({ s with pagetable_owner := s.current }.setRax s.current FAILED)
  | alloc {f c : ℕ} {res : ℤ} {label' : Labels} {t : KState}
    (hno : reg.reg_intno = INT_SYS_PAGE_ALLOC) (hva : request s % 4096 = 0)
    (hres : res = 0 ∨ res = -1)
    (hmap : index123 (request s) ≠ -1 →
      1+tablesMissing s.mem (currentTable s) (request s) ≤ freeCount s → res = 0)
    (A : Allocated K f res label label' c s t) :
    Effect K reg label s label' (t.setRax s.current res)
  | noSlot (hno : reg.reg_intno = INT_SYS_FORK) (hslot : free_slot s = none) :
    Effect K reg label s label (s.setRax s.current FAILED)
  | rootless {i : ℕ} (hno : reg.reg_intno = INT_SYS_FORK) (hslot : free_slot s = some i)
    (hfree : freePages s = ∅) :
    Effect K reg label s label ((nullChild i s).setRax s.current FAILED)
  | unfinished {i r : ℕ} {label' : Labels} {t : KState}
    (hno : reg.reg_intno = INT_SYS_FORK) (hslot : free_slot s = some i)
    (hroot : 4 ≤ freeCount s) (hshort : freeCount s < forkNeeds s)
    (F : Forked K i r label label' (freeCount s) s t) :
    Effect K reg label s label' (t.setRax s.current FAILED)
  | forked {i r : ℕ} {label' : Labels} {t : KState}
    (hno : reg.reg_intno = INT_SYS_FORK) (hslot : free_slot s = some i)
    (hcount : forkNeeds s ≤ freeCount s) (F : Forked K i r label label' (forkNeeds s) s t)
    (C : Complete i r label' s t) :
    Effect K reg label s label' ((t.setRax s.current i).setRax i 0)

/-- Two exceptions give up the processor without more ado. -/
abbrev Switches (reg : x86_64_registers) : Prop :=
  reg.reg_intno = INT_SYS_YIELD ∨ reg.reg_intno = INT_TIMER

/-- The `switch` of `exception`, up to the way out. -/
def exception_switch (reg : x86_64_registers) (s : KState) : Checked KState :=
  if reg.reg_intno = INT_SYS_PANIC then .error (.panic "PANIC")
  else if reg.reg_intno = INT_SYS_GETPID then
    .ok (s.setRax s.current (s.processes s.current).p_pid)
  else if reg.reg_intno = INT_SYS_YIELD then .ok s
  else if reg.reg_intno = INT_SYS_PAGE_ALLOC then sys_page_alloc s
  else if reg.reg_intno = INT_SYS_FORK then fork s
  else if reg.reg_intno = INT_TIMER then .ok { s with ticks := s.ticks+1 }
  else if reg.reg_intno = INT_PAGEFAULT then
    if reg.reg_err &&& PFERR_USER = 0 then
      .error (.panic "Kernel page fault for %p (%s %s, rip=%p)!\n")
    else .ok (s.setState s.current .P_BROKEN)
  else .error (.panic "Unexpected exception %d!\n")

theorem exception_handle_eq (K : KernelImage) (reg : x86_64_registers) (s : KState) :
    exception_handle K reg s = exception_switch reg s >>= fun s' =>
      if Switches reg then schedule K s' else exception_leave K s' := by
  rw [exception_handle, exception_switch]
  by_cases h48 : reg.reg_intno = INT_SYS_PANIC
  · rw [if_pos h48, if_pos h48]
    rfl
  rw [if_neg h48, if_neg h48]
  by_cases h49 : reg.reg_intno = INT_SYS_GETPID
  · have hstay : ¬Switches reg := by
      rw [Switches, h49]
      decide
    simp only [if_pos h49, if_neg hstay]
    rfl
  rw [if_neg h49, if_neg h49]
  by_cases h50 : reg.reg_intno = INT_SYS_YIELD
  · simp only [if_pos h50, if_pos (show Switches reg from Or.inl h50)]
    rfl
  rw [if_neg h50, if_neg h50]
  by_cases h32 : reg.reg_intno = INT_TIMER
  · have h51 : reg.reg_intno ≠ INT_SYS_PAGE_ALLOC := by rw [h32]; decide
    have h52 : reg.reg_intno ≠ INT_SYS_FORK := by rw [h32]; decide
    simp only [if_neg h51, if_neg h52, if_pos h32, if_pos (show Switches reg from Or.inr h32)]
    rfl
  have hstay : ¬Switches reg := fun h => h.elim h50 h32
  simp only [if_neg hstay, if_neg h32]
  split
  · rfl
  · split
    · rfl
    · split
      · split <;> rfl
      · rfl

section Cases

variable (I : KInv K label s)
include I

/-- Page allocation that returns to `exception`. -/
theorem page_alloc_effect (hno : reg.reg_intno = INT_SYS_PAGE_ALLOC)
    (h : sys_page_alloc s = .ok s') : ∃ label', Effect K reg label s label' s' := by
  by_cases hfree : freePages s = ∅
  · rw [page_alloc_none I hfree, Except.ok.injEq] at h
    rw [← h]
    exact ⟨label,.refused hno hfree⟩
  · by_cases hva : request s % 4096 = 0
    · by_cases hbad : index123 (request s) = -1 ∨
        freeCount s < 1+tablesMissing s.mem (currentTable s) (request s)
      · obtain ⟨f,label',c,t,hrun,A⟩ := page_alloc_failed I hva hfree hbad
        rw [hrun, Except.ok.injEq] at h
        rw [← h]
        exact ⟨label',.alloc hno hva (Or.inr rfl) (fun hidx hcount => by omega) A⟩
      · obtain ⟨hidx,hcount⟩ := not_or.1 hbad
        obtain ⟨f,label',t,hrun,A⟩ := page_alloc_mapped I hva hidx (by omega)
        rw [hrun, Except.ok.injEq] at h
        rw [← h]
        exact ⟨label',.alloc hno hva (Or.inl rfl) (fun _ _ => rfl) A⟩
    · rw [page_alloc_unaligned I hfree hva] at h
      cases h

theorem fork_effect (hno : reg.reg_intno = INT_SYS_FORK) (h : fork s = .ok s') :
    ∃ label', Effect K reg label s label' s' := by
  cases hslot : free_slot s with
  | none =>
    rw [fork, hslot, Except.ok.injEq] at h
    rw [← h]
    exact ⟨label,.noSlot hno hslot⟩
  | some i =>
    by_cases hfree : freePages s = ∅
    · rw [fork_none I hslot hfree, Except.ok.injEq] at h
      rw [← h]
      exact ⟨label,.rootless hno hslot hfree⟩
    · by_cases hroot : 4 ≤ freeCount s
      · by_cases hcount : forkNeeds s ≤ freeCount s
        · obtain ⟨r,label',t,hrun,F,hcopies,hpages⟩ := fork_ok I hslot hcount
          rw [hrun, Except.ok.injEq] at h
          rw [← h]
          exact ⟨label',.forked hno hslot hcount F ⟨hcopies,hpages⟩⟩
        · obtain ⟨r,label',t,hrun,F⟩ := fork_short I hslot hroot (by omega)
          rw [hrun, Except.ok.injEq] at h
          rw [← h]
          exact ⟨label',.unfinished hno hslot hroot (by omega) F⟩
      · rw [fork_panic I hslot hfree (by omega)] at h
        cases h

theorem exception_switch_effect (h : exception_switch reg s = .ok s') :
    ∃ label', Effect K reg label s label' s' := by
  rw [exception_switch] at h
  by_cases h48 : reg.reg_intno = INT_SYS_PANIC
  · rw [if_pos h48] at h
    cases h
  rw [if_neg h48] at h
  by_cases h49 : reg.reg_intno = INT_SYS_GETPID
  · rw [if_pos h49] at h
    cases h
    exact ⟨label,.getpid h49⟩
  rw [if_neg h49] at h
  by_cases h50 : reg.reg_intno = INT_SYS_YIELD
  · rw [if_pos h50] at h
    cases h
    exact ⟨label,.yield h50⟩
  rw [if_neg h50] at h
  by_cases h51 : reg.reg_intno = INT_SYS_PAGE_ALLOC
  · rw [if_pos h51] at h
    exact page_alloc_effect I h51 h
  rw [if_neg h51] at h
  by_cases h52 : reg.reg_intno = INT_SYS_FORK
  · rw [if_pos h52] at h
    exact fork_effect I h52 h
  rw [if_neg h52] at h
  by_cases h32 : reg.reg_intno = INT_TIMER
  · rw [if_pos h32] at h
    cases h
    exact ⟨label,.timer h32⟩
  rw [if_neg h32] at h
  by_cases h14 : reg.reg_intno = INT_PAGEFAULT
  · rw [if_pos h14] at h
    by_cases huser : reg.reg_err &&& PFERR_USER = 0
    · rw [if_pos huser] at h
      cases h
    · rw [if_neg huser] at h
      cases h
      exact ⟨label,.fault h14 huser⟩
  · rw [if_neg h14] at h
    cases h

theorem exception_handle_cases {out : Outcome} (h : exception_handle K reg s = .ok out) :
    ∃ label' s', Effect K reg label s label' s' ∧
      (if Switches reg then schedule K s' else exception_leave K s') = .ok out := by
  rw [exception_handle_eq] at h
  obtain ⟨s',hswitch,hout⟩ := (bind_ok_iff _ _ _).1 h
  obtain ⟨label',E⟩ := exception_switch_effect I hswitch
  exact ⟨label',s',E,hout⟩

end Cases

/-- The four kinds of change to memory and ownership. -/
inductive Change (K : KernelImage) (reg : x86_64_registers) (label : Labels) (s : KState) :
    Labels → KState → Prop where
  | none : Change K reg label s label s
  | page {f c : ℕ} {res : ℤ} {label' : Labels} {t : KState}
    (hno : reg.reg_intno = INT_SYS_PAGE_ALLOC) (A : Allocated K f res label label' c s t) :
    Change K reg label s label' t
  | null {i : ℕ} (hslot : free_slot s = some i) : Change K reg label s label (nullChild i s)
  | child {i r c : ℕ} {label' : Labels} {t : KState} (hslot : free_slot s = some i)
    (F : Forked K i r label label' c s t) : Change K reg label s label' t

theorem broken_quiet (hl : live s s.current) : Quiet s (s.setState s.current .P_BROKEN) := by
  refine Quiet.setState s _ _ ⟨fun h => ?_,fun h => ?_⟩
  · cases h
  · exact absurd h hl.1

/-- Apart from registers, clocks and broken processes an effect is one of these. -/
theorem Effect.change (E : Effect K reg label s label' s') (hl : live s s.current) :
    ∃ t, Change K reg label s label' t ∧ Quiet t s' ∧ s'.current = s.current := by
  cases E with
  | getpid hno => exact ⟨s,.none,Quiet.setRax s _ _,rfl⟩
  | yield hno => exact ⟨s,.none,Quiet.refl s,rfl⟩
  | timer hno => exact ⟨s,.none,⟨rfl,rfl,fun _ => ⟨Iff.rfl,rfl,rfl⟩⟩,rfl⟩
  | fault hno huser => exact ⟨s,.none,broken_quiet hl,rfl⟩
  | refused hno hfree =>
    have Q : Quiet s { s with pagetable_owner := s.current } :=
      ⟨rfl,rfl,fun _ => ⟨Iff.rfl,rfl,rfl⟩⟩
    exact ⟨s,.none,Q.trans (Quiet.setRax _ _ _),rfl⟩
  | alloc hno hva hres hmap A => exact ⟨_,.page hno A,Quiet.setRax _ _ _,A.grows.current⟩
  | noSlot hno hslot => exact ⟨s,.none,Quiet.setRax s _ _,rfl⟩
  | rootless hno hslot hfree => exact ⟨_,.null hslot,Quiet.setRax _ _ _,rfl⟩
  | unfinished hno hslot hroot hshort F =>
    exact ⟨_,.child hslot F,Quiet.setRax _ _ _,F.current⟩
  | forked hno hslot hcount F C =>
    exact ⟨_,.child hslot F,(Quiet.setRax _ _ _).trans (Quiet.setRax _ _ _),F.current⟩

theorem Change.inv (H : Change K reg label s label' t) (I : KInv K label s) : KInv K label' t := by
  cases H with
  | none => exact I
  | page hno A => exact A.inv I
  | null hslot => exact nullChild_inv I hslot
  | child hslot F => exact F.inv I hslot

theorem Change.current (H : Change K reg label s label' t) : t.current = s.current := by
  cases H with
  | none => rfl
  | page hno A => exact A.grows.current
  | null hslot => rfl
  | child hslot F => exact F.current

theorem Effect.inv (E : Effect K reg label s label' s') (I : KInv K label s) :
    KInv K label' s' := by
  obtain ⟨t,H,Q,hcur⟩ := E.change I.current_live
  exact (H.inv I).same Q (hcur.trans H.current.symm)

/-- The slots of other processes, apart from a child's. -/
theorem Effect.process (E : Effect K reg label s label' s') (h : pid ≠ s.current)
    (hchild : free_slot s ≠ some pid) : s'.processes pid = s.processes pid := by
  have hrax : ∀ (t : KState) (res : ℤ), (t.setRax s.current res).processes pid = t.processes pid :=
    fun t res => by simp [KState.setRax, KState.setRegisters, KState.setProc, h]
  have hne : ∀ {i}, free_slot s = some i → pid ≠ i := fun hslot hp => hchild (hp ▸ hslot)
  cases E with
  | getpid hno => exact hrax _ _
  | yield hno => rfl
  | timer hno => rfl
  | fault hno huser => simp [KState.setState, KState.setProc, h]
  | refused hno hfree => exact hrax _ _
  | alloc hno hva hres hmap A => rw [hrax, A.processes]
  | noSlot hno hslot => exact hrax _ _
  | rootless hno hslot hfree => rw [hrax, nullChild_other (hne hslot)]
  | unfinished hno hslot hroot hshort F => rw [hrax, F.other (hne hslot)]
  | @forked i r label' t hno hslot hcount F C =>
    have hi : ((t.setRax s.current i).setRax i 0).processes pid =
        (t.setRax s.current i).processes pid := by
      simp [KState.setRax, KState.setRegisters, KState.setProc, hne hslot]
    rw [hi, hrax, F.other (hne hslot)]

/-- Only a fork touches the slot of another process. -/
theorem Effect.other (E : Effect K reg label s label' s') (hno : reg.reg_intno ≠ INT_SYS_FORK)
    (h : pid ≠ s.current) : s'.processes pid = s.processes pid := by
  have hrax : ∀ (t : KState) (res : ℤ), (t.setRax s.current res).processes pid = t.processes pid :=
    fun t res => by simp [KState.setRax, KState.setRegisters, KState.setProc, h]
  cases E with
  | getpid hno => exact hrax _ _
  | yield hno => rfl
  | timer hno => rfl
  | fault hno huser => simp [KState.setState, KState.setProc, h]
  | refused hno hfree => exact hrax _ _
  | alloc hno hva hres hmap A => rw [hrax, A.processes]
  | noSlot hfork hslot => exact absurd hfork hno
  | rootless hfork hslot hfree => exact absurd hfork hno
  | unfinished hfork hslot hroot hshort F => exact absurd hfork hno
  | forked hfork hslot hcount F C => exact absurd hfork hno

/-- A process descriptor after the assignment to `reg_rax`. -/
abbrev withRax (p : proc) (res : ℤ) : proc :=
  { p with p_registers := { p.p_registers with reg_rax := toRegister res } }

theorem setRax_self (t : KState) (i : ℕ) (res : ℤ) :
    (t.setRax i res).processes i = withRax (t.processes i) res := by
  simp [KState.setRax, KState.setRegisters, KState.setProc]

theorem setRax_other (t : KState) (res : ℤ) (h : pid ≠ i) :
    (t.setRax i res).processes pid = t.processes pid := by
  simp [KState.setRax, KState.setRegisters, KState.setProc, h]

section Results

/-- The value a system call leaves for its caller. -/
abbrev result (s : KState) : UInt64 := (s.processes s.current).p_registers.reg_rax

theorem result_setRax (hcur : t.current = s.current) (res : ℤ) :
    result (t.setRax s.current res) = toRegister res := by
  have h : (t.setRax s.current res).current = s.current := hcur
  rw [result, h, setRax_self]

theorem result_forked (hcur : t.current = s.current) (hne : i ≠ s.current) :
    result ((t.setRax s.current i).setRax i 0) = toRegister i := by
  have h : ((t.setRax s.current i).setRax i 0).current = s.current := hcur
  rw [result, h, setRax_other _ _ hne.symm, setRax_self]

theorem register_nat {n : ℕ} (h : n < 2^64) : (toRegister n).toNat = n := by
  have hmod : ((n : ℤ) % 2^64).toNat = n := by omega
  simp [toRegister, UInt64.ofInt]
  omega

theorem register_failed : (toRegister FAILED).toNat = 2^64-1 := by decide

end Results

/-- What a system call returns to its caller. -/
inductive Returned (reg : x86_64_registers) (s : KState) : ℤ → Prop where
  | getpid (hno : reg.reg_intno = INT_SYS_GETPID) : Returned reg s (s.processes s.current).p_pid
  | page_alloc {res : ℤ} (hno : reg.reg_intno = INT_SYS_PAGE_ALLOC) (hres : res = 0 ∨ res = -1) :
    Returned reg s res
  | fork_failed (hno : reg.reg_intno = INT_SYS_FORK) : Returned reg s (-1)
  | forked {i : ℕ} (hno : reg.reg_intno = INT_SYS_FORK) (hslot : free_slot s = some i) :
    Returned reg s i

/-- The descriptor of the process that caused the exception. -/
theorem Effect.self (E : Effect K reg label s label' s') (I : KInv K label s) :
    (∃ v, Returned reg s v ∧ s'.processes s.current = withRax (s.processes s.current) v) ∨
    (Switches reg ∧ s'.processes s.current = s.processes s.current) ∨
    (reg.reg_intno = INT_PAGEFAULT ∧
      s'.processes s.current = { s.processes s.current with p_state := .P_BROKEN }) := by
  cases E with
  | getpid hno => exact Or.inl ⟨_,.getpid hno,setRax_self _ _ _⟩
  | yield hno => exact Or.inr (Or.inl ⟨Or.inl hno,rfl⟩)
  | timer hno => exact Or.inr (Or.inl ⟨Or.inr hno,rfl⟩)
  | fault hno huser =>
    exact Or.inr (Or.inr ⟨hno,by simp [KState.setState, KState.setProc]⟩)
  | refused hno hfree => exact Or.inl ⟨_,.page_alloc hno (Or.inr rfl),setRax_self _ _ _⟩
  | alloc hno hva hres hmap A =>
    exact Or.inl ⟨_,.page_alloc hno hres,by rw [setRax_self, A.processes]⟩
  | noSlot hno hslot => exact Or.inl ⟨_,.fork_failed hno,setRax_self _ _ _⟩
  | rootless hno hslot hfree =>
    have hne := slot_ne_current I hslot
    exact Or.inl ⟨_,.fork_failed hno,by rw [setRax_self, nullChild_other hne.symm]⟩
  | unfinished hno hslot hroot hshort F =>
    have hne := slot_ne_current I hslot
    exact Or.inl ⟨_,.fork_failed hno,by rw [setRax_self, F.other hne.symm]⟩
  | forked hno hslot hcount F C =>
    have hne := slot_ne_current I hslot
    exact Or.inl ⟨_,.forked hno hslot,by
      rw [setRax_other _ _ hne.symm, setRax_self, F.other hne.symm]⟩

theorem Effect.state_kept (E : Effect K reg label s label' s') (I : KInv K label s)
    (h : reg.reg_intno ≠ INT_PAGEFAULT) :
    (s'.processes s.current).p_state = (s.processes s.current).p_state := by
  rcases E.self I with ⟨v,-,h'⟩ | ⟨-,h'⟩ | ⟨h',-⟩
  · rw [h']
  · rw [h']
  · exact absurd h' h

theorem Effect.inspected (E : Effect K reg label s label' s') : Inspected reg := by
  have hne : ∀ {n : UInt64}, reg.reg_intno = n → n ≠ INT_PAGEFAULT → Inspected reg :=
    fun h hn => Or.inl (h ▸ hn)
  cases E with
  | getpid hno => exact hne hno (by decide)
  | yield hno => exact hne hno (by decide)
  | timer hno => exact hne hno (by decide)
  | fault hno huser => exact Or.inr huser
  | refused hno _ => exact hne hno (by decide)
  | alloc hno _ _ _ _ => exact hne hno (by decide)
  | noSlot hno _ => exact hne hno (by decide)
  | rootless hno _ _ => exact hne hno (by decide)
  | unfinished hno _ _ _ _ => exact hne hno (by decide)
  | forked hno _ _ _ _ => exact hne hno (by decide)

end WeensyOS.Effects
