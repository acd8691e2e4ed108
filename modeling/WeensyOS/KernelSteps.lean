import WeensyOS.KernelChecks

/-!
# Entering and leaving the kernel

What an exception does before and after its `switch`: the checks on entry, the
choice of the next process, and the return to it.
-/

set_option autoImplicit false

namespace WeensyOS.KernelSteps
open WeensyOS.FlatMemory WeensyOS.KernelState WeensyOS.PageTables WeensyOS.PageAllocator
open WeensyOS.Checks WeensyOS.Exceptions WeensyOS.CheckedRuns
open WeensyOS.RadixForest WeensyOS.TableWords WeensyOS.FreePages WeensyOS.PagingInvariant
open WeensyOS.TableCopies WeensyOS.KernelInvariant WeensyOS.KernelChecks

variable {K : KernelImage} {label : Labels} {s s' : KState} {pid : ℕ}

section SetPagetable

/-- `set_pagetable` wants these three addresses to map to themselves. -/
def HandlersOk (K : KernelImage) (m : Memory) (r : ℕ) : Prop :=
  ∀ a ∈ [K.default_int_handler,K.kernel_pagetable,K.virtual_memory_map],
    (virtual_memory_lookup m r a).pa = a

theorem kernel_identity {va : ℕ} (h : va < 0x200000) :
    (leafMapping (kernelWord va) va).pa = va := by
  have hv : vpage va = va / 4096 := vpage_small va (by omega)
  by_cases hlow : vpage va < 256
  · by_cases hcon : vpage va = 0xB8
    · rw [kernelWord, if_pos hlow, if_pos hcon, leafMapping_frame ⟨by decide,by decide⟩ (Or.inr rfl)]
      simp only [console]
      omega
    · rw [kernelWord, if_pos hlow, if_neg hcon,
        leafMapping_frame ⟨Nat.mul_mod_left _ _,by omega⟩ (Or.inl rfl)]
      simp only [hv]
      omega
  · rw [kernelWord, if_neg hlow, if_pos (by omega),
      leafMapping_frame ⟨Nat.mul_mod_left _ _,by omega⟩ (Or.inr rfl)]
    simp only [hv]
    omega

theorem set_pagetable_iff {roots : ℤ → Option ℕ} (P : Paging K roots label s) {r : ℕ}
    {q : Place ℤ Index} (hr : label r = some q) :
    set_pagetable K r s = .ok s' ↔ HandlersOk K s.mem r ∧ s' = { s with cr3 := r } := by
  have hoff : PAGEOFFSET r = 0 := by
    rw [pageoffset_eq]
    exact P.aligned hr
  have hself : (virtual_memory_lookup s.mem K.kernel_pagetable r).pa = r := by
    rw [kernel_lookup P]
    exact kernel_identity (P.owned r q hr).1
  simp only [set_pagetable, seq_ok_iff, kassert_ok_iff, hoff, hself, HandlersOk,
    List.mem_cons, List.not_mem_nil, or_false, forall_eq_or_imp, forall_eq, true_and,
    Except.ok.injEq]
  constructor
  · rintro ⟨h1,h2,h3,h⟩
    exact ⟨⟨h1,h2,h3⟩,h.symm⟩
  · rintro ⟨⟨h1,h2,h3⟩,h⟩
    exact ⟨h1,h2,h3,h.symm⟩

theorem handlers_range (K : KernelImage) :
    ∀ a ∈ [K.default_int_handler,K.kernel_pagetable,K.virtual_memory_map],
      KERNEL_START_ADDR ≤ a ∧ a < K.kernel_end ∧ a < 0x7F000 := by
  have h1 := K.handler_in_text
  have h2 := K.map_in_text
  have h3 := K.text_start
  have h4 := K.tables_in_data
  have h5 := K.tables_end
  have h6 := K.end_below_stack
  simp only [KERNEL_START_ADDR, KERNEL_STACK_TOP, PAGESIZE] at *
  simp only [List.mem_cons, List.not_mem_nil, or_false, forall_eq_or_imp, forall_eq,
    KernelImage.kernel_pagetable]
  omega

theorem kernel_handlers {roots : ℤ → Option ℕ} (P : Paging K roots label s) :
    HandlersOk K s.mem K.kernel_pagetable := by
  intro a ha
  rw [kernel_lookup P]
  exact kernel_identity (by have := (handlers_range K a ha).2.2; omega)

/-- A table with the kernel's own low leaves satisfies `set_pagetable`. -/
theorem low_handlers {roots : ℤ → Option ℕ} {o : ℤ} {r : ℕ} (P : Paging K roots label s)
    (hr : roots o = some r)
    (hlow : ∀ va, vpage va < 256 → leafWord s.mem r va = kernelWord va) :
    HandlersOk K s.mem r := by
  intro a ha
  have hlt := (handlers_range K a ha).2.2
  rw [virtual_memory_lookup_eq P.forest (P.forest.root o r hr),
    hlow a (by rw [vpage_small a (by omega)]; omega)]
  exact kernel_identity (by omega)

theorem leafMapping_identity {e x : ℕ}
    (h : (leafMapping e (x / 4096*4096)).pa = x / 4096*4096) : (leafMapping e x).pa = x := by
  by_cases hp : e &&& PTE_P ≠ 0
  · simp only [leafMapping, if_pos hp, pageoffset_eq, Nat.mul_mod_left, add_zero] at h ⊢
    omega
  · simp only [leafMapping, if_neg hp, vamapping.unmapped] at h
    omega

/-- A table that maps the kernel's memory satisfies `set_pagetable`. -/
theorem mappingOk_handlers (I : KInv K label s) (hp : Slot pid) (hl : live s pid)
    (h : MappingOk K s.mem (s.processes pid).p_pagetable) :
    HandlersOk K s.mem (s.processes pid).p_pagetable := by
  intro a ha
  obtain ⟨hstart,hend,hlt⟩ := handlers_range K a ha
  have hmem : a / 4096*4096 ∈ addrs KERNEL_START_ADDR K.kernel_end := by
    refine (mem_addrs _ _ _).2 ⟨a / 4096-64,?_,by omega⟩
    simp only [KERNEL_START_ADDR] at hstart ⊢
    omega
  have hpage := (h.1 _ hmem).1
  rw [I.lookup hp hl] at hpage ⊢
  have hsame : vpage (a / 4096*4096) = vpage a := by
    rw [vpage_small _ (by omega), vpage_small _ (by omega)]
    omega
  rw [leafWord_congr_page hsame] at hpage
  exact leafMapping_identity hpage

end SetPagetable

section Enter

/-- After `exception` has saved the registers and done its checks. -/
structure Entered (reg : x86_64_registers) (s s' : KState) : Prop where
  quiet : Quiet s s'
  current : s'.current = s.current
  process : s'.processes s.current = { s.processes s.current with p_registers := reg }
  others : ∀ pid, pid ≠ s.current → s'.processes pid = s.processes pid
  owner : s'.pagetable_owner = s.pagetable_owner

/-- The kernel's own page faults are the only exceptions without checks. -/
abbrev Inspected (reg : x86_64_registers) : Prop :=
  reg.reg_intno ≠ INT_PAGEFAULT ∨ reg.reg_err &&& PFERR_USER ≠ 0

/-- The state the checks run in. -/
abbrev saved (K : KernelImage) (reg : x86_64_registers) (s : KState) : KState :=
  { s.setRegisters s.current reg with cr3 := K.kernel_pagetable }

theorem saved_quiet (K : KernelImage) (reg : x86_64_registers) (s : KState) : Quiet s (saved K reg s) :=
  ⟨rfl,rfl,(Quiet.setRegisters s s.current reg).procs⟩

theorem exception_enter_eq (I : KInv K label s) (reg : x86_64_registers) :
    exception_enter K reg s = if Inspected reg
      then (check_virtual_memory K (saved K reg s)).bind
        fun _ => memshow_virtual_animate (saved K reg s)
      else .ok (saved K reg s) := by
  have I' := I.same (Quiet.setRegisters s s.current reg) rfl
  have hset := (set_pagetable_iff I'.paging I'.kernel_root).2 ⟨kernel_handlers I'.paging,rfl⟩
  simp only [exception_enter, hset, bind, Except.bind]

theorem Entered.display (reg : x86_64_registers) (s : KState) (last : UInt32) (showing : ℕ) :
    Entered reg s { saved K reg s with last_ticks := last, showing := showing } where
  quiet := ⟨rfl,rfl,(saved_quiet K reg s).procs⟩
  current := rfl
  process := by simp [KState.setRegisters, KState.setProc]
  others pid h := by simp [KState.setRegisters, KState.setProc, h]
  owner := rfl

theorem exception_enter_ok (I : KInv K label s) (reg : x86_64_registers)
    (H : Inspected reg → KernelMapped K s) : ∃ s', exception_enter K reg s = .ok s' := by
  rw [exception_enter_eq I]
  by_cases hc : Inspected reg
  · have H₀ := (H hc).quiet (saved_quiet K reg s)
    have I₀ := I.same (saved_quiet K reg s) rfl
    obtain ⟨last,showing,hani⟩ := animate_ok I₀ fun pid hp h => H₀.live hp h
    rw [if_pos hc, (check_virtual_memory_iff I₀).2 H₀]
    exact ⟨_,hani⟩
  · exact ⟨_,if_neg hc⟩

theorem exception_enter_cases (I : KInv K label s) {reg : x86_64_registers}
    (h : exception_enter K reg s = .ok s') :
    (Inspected reg → KernelMapped K s) ∧ Entered reg s s' := by
  rw [exception_enter_eq I] at h
  by_cases hc : Inspected reg
  · have I₀ := I.same (saved_quiet K reg s) rfl
    rw [if_pos hc] at h
    obtain ⟨u,hcheck,hani⟩ := (bind_ok_iff _ _ _).1 h
    have H₀ := (check_virtual_memory_iff I₀).1 hcheck
    obtain ⟨last,showing,hok⟩ := animate_ok I₀ fun pid hp h => H₀.live hp h
    rw [hok, Except.ok.injEq] at hani
    rw [← hani]
    exact ⟨fun _ => H₀.quiet (saved_quiet K reg s).symm,Entered.display reg s last showing⟩
  · rw [if_neg hc, Except.ok.injEq] at h
    rw [← h]
    exact ⟨fun h => absurd h hc,Entered.display reg s s.last_ticks s.showing⟩

end Enter

section Leave

/-- The state in which the process `pid` executes. -/
abbrev resumed (s : KState) (pid : ℕ) : KState :=
  { s with current := pid, cr3 := (s.processes pid).p_pagetable }

theorem run_iff (I : KInv K label s) (hp : Slot pid) (hl : live s pid) (out : Outcome) :
    run K pid s = .ok out ↔ (s.processes pid).p_state = .P_RUNNABLE ∧
      HandlersOk K s.mem (s.processes pid).p_pagetable ∧ out = .user (resumed s pid) := by
  have I' : KInv K label { s with current := pid } :=
    I.quiet ⟨rfl,rfl,fun _ => ⟨Iff.rfl,rfl,rfl⟩⟩ hp hl
  have hset : ∀ s', set_pagetable K (s.processes pid).p_pagetable { s with current := pid } =
      .ok s' ↔ HandlersOk K s.mem (s.processes pid).p_pagetable ∧ s' = resumed s pid :=
    fun _ => set_pagetable_iff I'.paging (I.root hp hl)
  simp only [run, seq_ok_iff, kassert_ok_iff]
  refine and_congr_right fun _ => ?_
  rw [bind_ok_iff]
  constructor
  · rintro ⟨s',hs,hout⟩
    obtain ⟨hok,rfl⟩ := (hset s').1 hs
    exact ⟨hok,(Except.ok.inj hout).symm⟩
  · rintro ⟨hok,rfl⟩
    exact ⟨_,(hset _).2 ⟨hok,rfl⟩,rfl⟩

theorem schedule_loop_some {n p : ℕ} (h : schedule_loop s n p = some pid) :
    pid < NPROC ∧ (s.processes pid).p_state = .P_RUNNABLE := by
  induction n generalizing p with
  | zero => simp [schedule_loop] at h
  | succ n ih =>
    rw [schedule_loop] at h
    split at h
    · rename_i hstate
      cases h
      exact ⟨Nat.mod_lt _ (by decide),hstate⟩
    · exact ih h

/-- How the kernel can be left from a state: spinning, or in a runnable process. -/
def Leaves (s : KState) (out : Outcome) : Prop :=
  out = .spin s ∨ ∃ pid, Slot pid ∧ live s pid ∧ (s.processes pid).p_state = .P_RUNNABLE ∧
    out = .user (resumed s pid)

variable {out : Outcome}

theorem schedule_cases (I : KInv K label s)
    (hlive : ∀ pid, Slot pid → (s.processes pid).p_state ≠ .P_FREE → live s pid)
    (h : schedule K s = .ok out) : Leaves s out := by
  rw [schedule] at h
  split at h
  · rename_i pid hpid
    obtain ⟨hlt,hstate⟩ := schedule_loop_some hpid
    have hpos : 0 < pid := Nat.pos_of_ne_zero fun hz => by
      rw [hz, I.slot0] at hstate
      cases hstate
    have hl := hlive pid ⟨hpos,hlt⟩ (by rw [hstate]; decide)
    exact Or.inr ⟨pid,⟨hpos,hlt⟩,hl,hstate,((run_iff I ⟨hpos,hlt⟩ hl out).1 h).2.2⟩
  · exact Or.inl (Except.ok.inj h).symm

theorem schedule_ok (I : KInv K label s) (H : ∀ pid, Slot pid →
    (s.processes pid).p_state ≠ .P_FREE → live s pid ∧
      HandlersOk K s.mem (s.processes pid).p_pagetable) :
    ∃ out, schedule K s = .ok out := by
  rw [schedule]
  split
  · rename_i pid hpid
    obtain ⟨hlt,hstate⟩ := schedule_loop_some hpid
    have hpos : 0 < pid := Nat.pos_of_ne_zero fun hz => by
      rw [hz, I.slot0] at hstate
      cases hstate
    obtain ⟨hl,hhandlers⟩ := H pid ⟨hpos,hlt⟩ (by rw [hstate]; decide)
    exact ⟨_,(run_iff I ⟨hpos,hlt⟩ hl _).2 ⟨hstate,hhandlers,rfl⟩⟩
  · exact ⟨_,rfl⟩

/-- Back to the current process when it can run. -/
theorem return_iff (I : KInv K label s) (hrun : (s.processes s.current).p_state = .P_RUNNABLE) :
    exception_leave K s = .ok out ↔
      HandlersOk K s.mem (s.processes s.current).p_pagetable ∧
        out = .user (resumed s s.current) := by
  rw [exception_leave, if_pos hrun, run_iff I I.current_slot I.current_live]
  exact and_iff_right hrun

end Leave

end WeensyOS.KernelSteps
