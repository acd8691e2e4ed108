import WeensyOS.SelfChecks

/-!
# One process and all of memory

A process that is alone gets a page for every request in its window until no
page is free. Asking for the same address again takes one more page each time.
-/

set_option autoImplicit false

namespace WeensyOS.Exhaustion
open WeensyOS.FlatMemory WeensyOS.KernelState WeensyOS.PageTables WeensyOS.PageAllocator
open WeensyOS.Exceptions WeensyOS.Boot WeensyOS.CheckedRuns WeensyOS.RadixForest
open WeensyOS.TableWords WeensyOS.FreePages WeensyOS.PagingInvariant WeensyOS.PageMaps
open WeensyOS.KernelInvariant WeensyOS.KernelChecks
open WeensyOS.KernelSteps WeensyOS.ForkResult WeensyOS.AllocResult WeensyOS.Isolation
open WeensyOS.BootResult WeensyOS.BootRun WeensyOS.Effects WeensyOS.Runs WeensyOS.PrivateRuns
open WeensyOS.SelfChecks

variable {K : KernelImage} {allow : KState → x86_64_registers → Prop} {label label' : Labels}
  {s s' s₁ s₂ : KState} {reg : x86_64_registers} {out : Outcome} {pid : ℕ}

/-- The registers of a system call with one argument. -/
def syscall (intno rdi : UInt64) : x86_64_registers :=
  { x86_64_registers.zero with reg_intno := intno, reg_rdi := rdi }

/-- A sound state in which one process executes and no other exists. -/
structure Solo (K : KernelImage) (label : Labels) (s : KState) : Prop where
  sound : Sound K label s
  executing : Executing K label s
  alone : ∀ pid, Slot pid → pid ≠ s.current → (s.processes pid).p_state = .P_FREE

/-- The kernel can be entered with any registers. -/
theorem solo_enter (S : Solo K label s) (reg : x86_64_registers) : ∃ t,
    exception_enter K reg s = .ok t ∧ Entered reg s t ∧ Sound K label t ∧
      (t.processes t.current).p_state = .P_RUNNABLE := by
  obtain ⟨t,henter⟩ := exception_enter_ok S.sound.inv reg fun _ => S.sound.mapped
  obtain ⟨-,E⟩ := exception_enter_cases S.sound.inv henter
  exact ⟨t,henter,E,S.sound.quiet E.quiet E.current,entered_runnable S.executing E⟩

/-- A `getpid` or a page request in the window returns to the process, and concerns no other. -/
theorem sound_call (S : Sound K label s) (X : Executing K label s)
    (hno : reg.reg_intno = INT_SYS_GETPID ∨ reg.reg_intno = INT_SYS_PAGE_ALLOC)
    (hwin : InWindow s reg) : ∃ label' s₁ s₂ s',
      exception K reg s = .ok (.user s') ∧ Handling K reg label label' s s₁ s₂ (.user s') ∧
      Sound K label' s' ∧ Executing K label' s' ∧ s'.current = s.current ∧ Quiet s₂ s' ∧
      ∀ pid, pid ≠ s.current → s'.processes pid = s.processes pid := by
  have hplain : reg.reg_intno ≠ INT_SYS_FORK ∧ reg.reg_intno ≠ INT_PAGEFAULT ∧ ¬Switches reg := by
    rcases hno with h | h <;> rw [Switches, h] <;> decide
  have hsupplied : Supplied K s reg :=
    ⟨hno.imp_right fun h => Or.inr (Or.inl h),hwin,fun h => absurd h hplain.1⟩
  obtain ⟨out,hout⟩ := exception_ok S hsupplied
  obtain ⟨label',s₁,s₂,H⟩ := exception_cases X hout
  have hcur : s₂.current = s₁.current := (H.effect.change H.inv.current_live).choose_spec.2.2
  have hrun : (s₂.processes s₂.current).p_state = .P_RUNNABLE := by
    rw [hcur, H.effect.state_kept H.inv hplain.2.1]
    exact entered_runnable X H.entered
  obtain rfl := H.back hplain.2.2 hrun
  have Q : Quiet s₂ (resumed s₂ s₂.current) := ⟨rfl,rfl,fun _ => ⟨Iff.rfl,rfl,rfl⟩⟩
  have S₁ := S.quiet H.entered.quiet H.entered.current
  have S₂ := S₁.effect H.effect (window_request hwin H.entered) fun h => absurd h hplain.1
  refine ⟨label',s₁,s₂,_,hout,H,S₂.quiet Q rfl,Leaves.executing H.leaves H.inv',
    hcur.trans H.entered.current,Q,fun pid hne => ?_⟩
  change s₂.processes pid = _
  rw [H.effect.other hplain.1 fun h => hne (h.trans H.entered.current), H.entered.others pid hne]

theorem solo_call (S : Solo K label s)
    (hno : reg.reg_intno = INT_SYS_GETPID ∨ reg.reg_intno = INT_SYS_PAGE_ALLOC)
    (hwin : InWindow s reg) : ∃ label' s₁ s₂ s', exception K reg s = .ok (.user s') ∧
      Handling K reg label label' s s₁ s₂ (.user s') ∧ Solo K label' s' ∧
      s'.current = s.current ∧ Quiet s₂ s' := by
  obtain ⟨label',s₁,s₂,s',hrun,H,S',X',hcur,Q,hothers⟩ :=
    sound_call S.sound S.executing hno hwin
  refine ⟨label',s₁,s₂,s',hrun,H,⟨S',X',fun pid hp hne => ?_⟩,hcur,Q⟩
  rw [hcur] at hne
  rw [hothers pid hne]
  exact S.alone pid hp hne

/-- Each request takes a page while there is one. -/
theorem request_spends (H : Handling K reg label label' s s₁ s₂ out)
    (hno : reg.reg_intno = INT_SYS_PAGE_ALLOC) (hfree : freeCount s ≠ 0) :
    freeCount s₂ < freeCount s := by
  have hsame : freeCount s₁ = freeCount s := freeCount_congr H.entered.quiet.pageinfo
  have E := H.effect
  cases E with
  | refused h hempty => exact absurd ((freeCount_eq_zero s₁).2 hempty) (by omega)
  | @alloc f c res label' t h hva hres hmap A =>
    have hcount := A.grows.count
    have hc : c ≠ 0 := by
      rintro rfl
      have hinfo := A.grows.pageinfo_zero f
      rw [A.info, ((mem_freePages s₁ f).1 A.fresh).2] at hinfo
      exact info_ne_free _ hinfo
    have hrax : freeCount (t.setRax s₁.current res) = freeCount t := freeCount_congr rfl
    omega
  | getpid h => exact absurd (hno.symm.trans h) (by decide)
  | yield h => exact absurd (hno.symm.trans h) (by decide)
  | timer h => exact absurd (hno.symm.trans h) (by decide)
  | fault h _ => exact absurd (hno.symm.trans h) (by decide)
  | noSlot h _ => exact absurd (hno.symm.trans h) (by decide)
  | rootless h _ _ => exact absurd (hno.symm.trans h) (by decide)
  | unfinished h _ _ _ _ => exact absurd (hno.symm.trans h) (by decide)
  | forked h _ _ _ _ => exact absurd (hno.symm.trans h) (by decide)

/-- By asking for one address over and over a process uses up every page. -/
theorem solo_drain (R : Run K InWindow (.user s)) (S : Solo K label s) : ∃ label' s',
    Run K InWindow (.user s') ∧ Solo K label' s' ∧ s'.current = s.current ∧ freeCount s' = 0 := by
  induction hn : freeCount s using Nat.strong_induction_on generalizing s label with
  | _ n ih =>
    by_cases hz : n = 0
    · exact ⟨label,s,R,S,rfl,by omega⟩
    · have hwin : InWindow s (syscall INT_SYS_PAGE_ALLOC 0x100000) :=
        fun _ => ⟨by decide,by decide,by decide⟩
      obtain ⟨label',s₁,s₂,s',hrun,H,S',hcur,Q⟩ := solo_call S (Or.inr rfl) hwin
      have hless := request_spends H rfl (by omega)
      rw [← freeCount_congr Q.pageinfo] at hless
      obtain ⟨label'',s'',R'',S'',hcur'',hz⟩ :=
        ih _ (hn ▸ hless) (.exception R hwin hrun) S' rfl
      exact ⟨label'',s'',R'',S'',hcur''.trans hcur,hz⟩

section Sample

/-- The sample kernel starts with one process. -/
theorem sample_solo (m : KState) : ∃ label s, kernel sampleKernel (some "fork") m = .ok (.user s) ∧
    Solo sampleKernel label s ∧ s.current = 1 ∧ 55 ≤ freeCount s ∧
    ∀ va, 256 ≤ vpage va → leafWord s.mem (s.processes 1).p_pagetable va ≠ 0 →
      vpage va = 767 ∨ vpage va = 256 ∨ vpage va = 257 := by
  obtain ⟨label,s,hboot,B,hfree,hslots,hleaf⟩ := sample_boot m
  obtain ⟨label',s',hs,B',hcr3⟩ := kernel_ok sample_loadable hboot
  cases hs
  refine ⟨label',s,hboot,⟨booted_sound B',booted_executing B' hcr3,fun pid hp hne => ?_⟩,
    B.current,hfree,hleaf⟩
  exact hslots pid hp (B.current ▸ hne)

/-- It can get into a state without free pages. -/
theorem sample_drained : ∃ label s, Run sampleKernel InWindow (.user s) ∧
    Solo sampleKernel label s ∧ s.current = 1 ∧ freeCount s = 0 := by
  obtain ⟨label,s,hboot,S,hcur,-⟩ := sample_solo powerOn
  obtain ⟨label',s',R,S',hcur',hz⟩ := solo_drain (.boot hboot) S
  exact ⟨label',s',R,S',hcur'.trans hcur,hz⟩

end Sample

end WeensyOS.Exhaustion
