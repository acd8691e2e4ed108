import WeensyOS.LifeCycle
import WeensyOS.ForkRuns
import WeensyOS.ReturnRuns
import WeensyOS.Scheduling

/-!
# Saved registers

The descriptor of a process holds the frame that its last exception saved,
apart from the result of a system call, and no other process changes it. What
`run` loads is read through the table of the process, so it is this frame as
long as no page request takes a page of the kernel.
-/

set_option autoImplicit false

namespace WeensyOS.SavedRegisters
open WeensyOS.FlatMemory WeensyOS.KernelState WeensyOS.PageTables WeensyOS.PageAllocator
open WeensyOS.Exceptions WeensyOS.Boot WeensyOS.KernelInvariant WeensyOS.KernelSteps
open WeensyOS.PagingInvariant WeensyOS.KernelChecks WeensyOS.ForkResult WeensyOS.AllocResult
open WeensyOS.Isolation WeensyOS.BootResult WeensyOS.BootRun WeensyOS.Effects WeensyOS.Runs
open WeensyOS.SelfChecks WeensyOS.LifeCycle WeensyOS.PrivateRuns WeensyOS.Exhaustion
open WeensyOS.CheckedRuns WeensyOS.FreePages WeensyOS.Scheduling WeensyOS.AllocRuns
open WeensyOS.ForkRuns WeensyOS.FreshPages WeensyOS.PairedRuns WeensyOS.SoftReboot
open WeensyOS.ReturnPath WeensyOS.ReturnRuns

variable {K : KernelImage} {P : WayBack K} {label label' : Labels} {s t u v : KState}
  {reg : x86_64_registers} {out : Outcome} {pid i j : ℕ}

/-- The registers in the descriptor of the process. -/
abbrev registers (s : KState) (pid : ℕ) : x86_64_registers := (s.processes pid).p_registers

/-- The process itself causes no exception. -/
def Away (pid : ℕ) : KState → x86_64_registers → Prop := fun s _ => s.current ≠ pid

/-- The frame with another result. -/
abbrev returning (reg : x86_64_registers) (res : ℤ) : x86_64_registers :=
  { reg with reg_rax := toRegister res }

/-- The result of a system call, for the caller and for a new child. -/
inductive Answer (reg : x86_64_registers) (s t : KState) : Prop where
  | none (hno : reg.reg_intno = INT_SYS_YIELD ∨ reg.reg_intno = INT_TIMER ∨
      reg.reg_intno = INT_PAGEFAULT) (h : registers t s.current = reg)
  | getpid (hno : reg.reg_intno = INT_SYS_GETPID)
    (h : registers t s.current = returning reg s.current)
  | page_alloc (hno : reg.reg_intno = INT_SYS_PAGE_ALLOC)
    (h : registers t s.current = returning reg 0 ∨ registers t s.current = returning reg (-1))
  | fork_failed (hno : reg.reg_intno = INT_SYS_FORK)
    (h : registers t s.current = returning reg (-1))
  | forked {i : ℕ} (hno : reg.reg_intno = INT_SYS_FORK) (hi : 0 < i ∧ i < NPROC)
    (hfree : (s.processes i).p_state = .P_FREE)
    (hstart : (t.processes i).p_state = .P_RUNNABLE)
    (h : registers t s.current = returning reg i) (hchild : registers t i = returning reg 0)

section Steps

theorem setRax_registers (t : KState) (i : ℕ) (res : ℤ) :
    registers (t.setRax i res) i = returning (registers t i) res := by
  rw [registers, setRax_self]

/-- What the handler leaves in the registers of its process. -/
theorem effect_answer (E : Effect K reg label s label' t) (I : KInv K label s)
    (hreg : registers s s.current = reg) : Answer reg s t := by
  have hrax : ∀ (u : KState) (res : ℤ), registers u s.current = reg →
      registers (u.setRax s.current res) s.current = returning reg res := by
    intro u res hu
    rw [setRax_registers, hu]
  cases E with
  | getpid hno =>
    refine .getpid hno ?_
    rw [I.pids s.current I.current_slot.2]
    exact hrax _ _ hreg
  | yield hno => exact .none (Or.inl hno) hreg
  | timer hno => exact .none (Or.inr (Or.inl hno)) hreg
  | fault hno huser =>
    refine .none (Or.inr (Or.inr hno)) ?_
    simpa [registers, KState.setState, KState.setProc] using hreg
  | refused hno hfree => exact .page_alloc hno (Or.inr (hrax _ _ hreg))
  | alloc hno hva hres hmap A =>
    have hself : registers _ s.current = reg := (congrArg _ (congrFun A.processes _)).trans hreg
    rcases hres with rfl | rfl
    · exact .page_alloc hno (Or.inl (hrax _ _ hself))
    · exact .page_alloc hno (Or.inr (hrax _ _ hself))
  | noSlot hno hslot => exact .fork_failed hno (hrax _ _ hreg)
  | rootless hno hslot hfree =>
    have hne := (slot_ne_current I hslot).symm
    refine .fork_failed hno (hrax _ _ ?_)
    rw [registers, nullChild_other hne]
    exact hreg
  | unfinished hno hslot hroot hshort F =>
    have hne := (slot_ne_current I hslot).symm
    refine .fork_failed hno (hrax _ _ ?_)
    rw [registers, F.other hne]
    exact hreg
  | @forked i r label' t hno hslot hcount F C =>
    obtain ⟨hi,hfree,-⟩ := free_slot_some hslot
    have hne := slot_ne_current I hslot
    have hchild : (t.setRax s.current i).processes i =
        ⟨i,(s.processes s.current).p_registers,.P_RUNNABLE,r⟩ := by
      rw [setRax_other _ _ hne, F.procs, Function.update_self]
    refine .forked hno hi hfree ?_ ?_ ?_
    · rw [setRax_self, hchild]
    · rw [registers, setRax_other _ _ hne.symm]
      refine hrax _ _ ?_
      rw [registers, F.other hne.symm]
      exact hreg
    · rw [registers, setRax_self, hchild]
      exact congrArg (returning · 0) hreg

theorem Answer.transfer (h : Answer reg s t) (hcur : s.current = u.current)
    (hfree : ∀ i, (s.processes i).p_state = .P_FREE → (u.processes i).p_state = .P_FREE)
    (hprocs : v.processes = t.processes) : Answer reg u v := by
  have hregs : ∀ pid, registers v pid = registers t pid := fun pid => by
    rw [registers, hprocs]
  cases h with
  | none hno h => exact .none hno (by rw [hregs, ← hcur, h])
  | getpid hno h => exact .getpid hno (by rw [hregs, ← hcur, h])
  | page_alloc hno h => exact .page_alloc hno (by rwa [hregs, ← hcur])
  | fork_failed hno h => exact .fork_failed hno (by rw [hregs, ← hcur, h])
  | forked hno hi hslot hstart h hchild =>
    exact .forked hno hi (hfree _ hslot) (by rw [hprocs, hstart]) (by rw [hregs, ← hcur, h])
      (by rw [hregs, hchild])

theorem handling_answer (H : Handling K reg label label' s t u out) : Answer reg s out.state := by
  have hcur := H.entered.current
  have hreg : registers t t.current = reg := by rw [registers, hcur, H.entered.process]
  have h := effect_answer H.effect H.inv hreg
  exact h.transfer hcur (fun i hi => (H.entered.quiet.procs i).1.1 hi) (Leaves.quiet H.leaves).2

/-- Exceptions of other processes leave the slot of a process alone. -/
theorem handling_away (H : Handling K reg label label' s t u out) (haway : s.current ≠ pid)
    (hused : (s.processes pid).p_state ≠ .P_FREE) :
    out.state.processes pid = s.processes pid := by
  have hkeep := H.entered.others pid haway.symm
  have hslot : free_slot t ≠ some pid := by
    intro hslot
    have hfree := (free_slot_some hslot).2.1
    rw [hkeep] at hfree
    exact hused hfree
  have hcur := H.entered.current
  rw [(Leaves.quiet H.leaves).2, H.effect.process (hcur ▸ haway.symm) hslot, hkeep]

end Steps

/-- As long as a process causes no exception its descriptor stays as it is. -/
theorem continues_away {allow : KState → x86_64_registers → Prop}
    (haway : ∀ s reg, allow s reg → Away pid s reg) (X : Executing K label s)
    (hused : (s.processes pid).p_state ≠ .P_FREE) (C : Continues K allow s out) : out.state.processes pid = s.processes pid := by
  suffices h : ∃ label', KInv K label' out.state ∧
      out.state.processes pid = s.processes pid ∧ ∀ t, out = .user t → Executing K label' t by
    exact h.choose_spec.2.1
  refine continues_keeps (P := fun _ t => t.processes pid = s.processes pid) X rfl ?_ ?_ C
  · intro reg label label' t s₁ s₂ out hallow X H h
    rw [handling_away H (haway _ _ hallow) (by rw [h]; exact hused), h]
  · intro label t m va c X hst T h
    exact h

/-- Other processes run, and their page requests spare the kernel. -/
def Elsewhere (K : KernelImage) (pid : ℕ) : KState → x86_64_registers → Prop := fun s reg =>
  Away pid s reg ∧ SparesKernel K s reg

theorem Continues.mono {allow allow' : KState → x86_64_registers → Prop}
    (C : Continues K allow s out) (h : ∀ s reg, allow s reg → allow' s reg) :
    Continues K allow' s out := by
  induction C with
  | refl => exact .refl
  | exception _ hallow h' ih => exact .exception ih (h _ _ hallow) h'
  | store _ h' ih => exact .store ih h'

/-- In runs that spare the kernel the frame of an exception, with the answer of a system call, is
what the process gets when it runs again, whatever the other processes have done by then. A child
starts with the frame of its parent and zero in `reg_rax`. -/
theorem registers_preserved (hK : Loadable K) (P : WayBack K)
    (R : Run K (SparesKernel K) (.user s)) (hspare : SparesKernel K s reg)
    (h : exception K reg s = .ok (.user t)) :
    Answer reg s t ∧ ∀ pid, (t.processes pid).p_state ≠ .P_FREE → ∀ out,
      Continues K (Elsewhere K pid) t out → registers out.state pid = registers t pid ∧
        ∀ u, out = .user u → u.current = pid → Resumes P u (registers t pid) := by
  obtain ⟨label,X⟩ := run_executing hK R
  obtain ⟨label',s₁,s₂,H⟩ := exception_cases X h
  have R' : Run K (SparesKernel K) (.user t) := .exception R hspare h
  obtain ⟨label'',X'⟩ := run_executing hK R'
  refine ⟨handling_answer H,fun pid hused out C => ?_⟩
  have hsame : registers out.state pid = registers t pid := by
    rw [registers, continues_away (fun _ _ h => h.1) X' hused C]
  refine ⟨hsame,?_⟩
  rintro u rfl hcur
  obtain ⟨label₃,X'',S⟩ := run_selfMapped hK (fun _ _ h => h)
    (R'.continue (Continues.mono C fun _ _ h => h.2))
  have hresumes := S.resumes (P := P) X''
  rw [hcur] at hresumes
  rw [← hsame]
  exact hresumes

section Pairs

/-- Two processes that can run, of which the first executes. -/
structure Pair (K : KernelImage) (label : Labels) (s : KState) (i j : ℕ) : Prop where
  sound : Sound K label s
  executing : Executing K label s
  current : s.current = i
  slot : Slot j
  other : j ≠ i
  ready : Runnable s j
  alone : ∀ pid, Slot pid → pid ≠ i → pid ≠ j → (s.processes pid).p_state = .P_FREE

/-- A yield hands over to the other process. -/
theorem Pair.yield (Q : Pair K label s i j) (hno : reg.reg_intno = INT_SYS_YIELD) :
    ∃ u, exception K reg s = .ok (.user u) ∧ Pair K label u j i := by
  obtain ⟨t,k,q,henter,E,F,hq,hsched,S,X⟩ := yield_resumes Q.sound Q.executing reg
  rw [Q.current] at F
  have hkeep : ∀ pid, pid ≠ i → t.processes pid = s.processes pid := fun pid hne =>
    E.others pid fun h => hne (h.trans Q.current)
  have hready : Runnable t j := by
    rw [Runnable, hkeep j Q.other]
    exact Q.ready
  have hrun := entered_runnable Q.executing E
  rw [E.current, Q.current] at hrun
  have hi : Slot i := Q.current ▸ Q.sound.inv.current_slot
  have honly : q = i ∨ q = j := by
    by_contra hne
    rw [not_or] at hne
    have hrunnable := F.runnable
    rw [Runnable, hkeep q hne.1, Q.alone q hq hne.1 hne.2] at hrunnable
    cases hrunnable
  have hother : q = j := by
    refine honly.resolve_left fun h => ?_
    -- the other process is found before the probes come round
    obtain ⟨m,hm,hmn,hmod⟩ := probe_reaches i Q.slot.2
    have hslot := F.slot
    have hprobes := F.probes
    have hne := Q.other
    obtain ⟨-,hlt⟩ := hi
    simp only [NPROC] at hprobes hmod hslot hlt hmn
    refine F.skipped m hm ?_ (hmod ▸ hready)
    have := F.pos
    omega
  subst hother
  refine ⟨_,(yield_schedules hno henter).trans hsched,S,X,rfl,hi,Q.other.symm,hrun,
    fun pid hp hj hi => ?_⟩
  change (t.processes pid).p_state = _
  rw [hkeep pid hi]
  exact Q.alone pid hp hi hj

/-- A page request in the window comes back. -/
theorem Pair.page_alloc (Q : Pair K label s i j) (hno : reg.reg_intno = INT_SYS_PAGE_ALLOC)
    (hwin : InWindow s reg) : ∃ label' u, exception K reg s = .ok (.user u) ∧
      Pair K label' u i j := by
  obtain ⟨label',s₁,s₂,u,hrun,-,S,X,hcur,-,hothers⟩ :=
    sound_call Q.sound Q.executing (Or.inr hno) hwin
  rw [Q.current] at hcur hothers
  refine ⟨label',u,hrun,S,X,hcur,Q.slot,Q.other,?_,fun pid hp hi hj => ?_⟩
  · rw [Runnable, hothers j Q.other]
    exact Q.ready
  · rw [hothers pid hi]
    exact Q.alone pid hp hi hj

end Pairs

section Sample

/-- The sample process and its child. -/
theorem sample_pair : ∃ label s t, kernel sampleKernel (some "fork") powerOn = .ok (.user s) ∧
    Supplied sampleKernel s (syscall INT_SYS_FORK 0) ∧
    exception sampleKernel (syscall INT_SYS_FORK 0) s = .ok (.user t) ∧
    Pair sampleKernel label t 1 2 := by
  obtain ⟨label,s,hboot,S,hcur,-⟩ := sample_solo powerOn
  obtain ⟨label',s',t,i,hboot',henter,S',hslot,hcount⟩ := sample_fork
  obtain rfl : s' = s := Outcome.user.inj (Except.ok.inj (hboot'.symm.trans hboot))
  obtain ⟨-,E⟩ := exception_enter_cases S.sound.inv henter
  have I := S'.inv
  have hone : t.current = 1 := E.current.trans hcur
  have hrun := entered_runnable S.executing E
  have hfree : ∀ pid, Slot pid → pid ≠ 1 → (t.processes pid).p_state = .P_FREE := by
    intro pid hp hne
    rw [E.others pid fun h => hne (h.trans hcur)]
    exact S.alone pid hp fun h => hne (h.trans hcur)
  obtain ⟨hi,hslotfree,hleast⟩ := free_slot_some hslot
  have htwo : i = 2 := by
    have hne : i ≠ 1 := fun h => by
      rw [h, ← hone, hrun] at hslotfree
      cases hslotfree
    obtain ⟨hpos,-⟩ := hi
    by_contra h
    exact hleast 2 (by decide) (by omega) (hfree 2 ⟨by decide,by decide⟩ (by decide))
  subst htwo
  obtain ⟨r,label₁,u,hfork,F,-⟩ := fork_ok I hslot hcount
  have hfour : 4 ≤ forkNeeds t := Nat.le_add_right 4 _
  have hsupplied : Supplied sampleKernel s' (syscall INT_SYS_FORK 0) :=
    ⟨Or.inr (Or.inr (Or.inr (Or.inl rfl))),fun h => absurd h (by decide),fun _ t' ht' =>
      Except.ok.inj (ht'.symm.trans henter) ▸ fun _ _ => hfour.trans hcount⟩
  obtain ⟨out,hout⟩ := exception_ok S.sound hsupplied
  obtain ⟨label₂,S₂,hx⟩ := run_sound sample_loadable (.exception (.boot hboot) hsupplied hout)
  have hparent := final_parent I hslot F
  have hleave : exception_leave sampleKernel ((u.setRax t.current 2).setRax 2 0) = .ok out := by
    rw [exception, henter] at hout
    change fork t >>= _ = _ at hout
    rw [hfork] at hout
    exact hout
  have Q : Quiet u ((u.setRax t.current 2).setRax 2 0) :=
    (Quiet.setRax u t.current 2).trans (Quiet.setRax _ _ _)
  have hcur₂ : ((u.setRax t.current 2).setRax 2 0).current = t.current := F.current
  have hrun₂ : (((u.setRax t.current 2).setRax 2 0).processes
      ((u.setRax t.current 2).setRax 2 0).current).p_state = .P_RUNNABLE := by
    rw [hcur₂]
    exact (congrArg proc.p_state hparent).trans hrun
  obtain ⟨-,rfl⟩ := (return_iff ((F.inv I hslot).same Q rfl) hrun₂).1 hleave
  refine ⟨label₂,s',_,hboot,hsupplied,hout,S₂,hx _ rfl,hcur₂.trans hone,hi,by decide,?_,
    fun pid hp h1 h2 => ?_⟩
  · exact congrArg proc.p_state (final_child I hslot F)
  · have hother := final_other F h2 fun h => h1 (h.trans hone)
    exact (congrArg proc.p_state hother).trans (hfree pid hp h1)

/-- The frame of a yield. -/
abbrev sampleYield : x86_64_registers := { syscall INT_SYS_YIELD 0 with reg_rbx := 7 }

/-- The parent yields with some registers, the child asks for a page and yields, and the parent
goes on with them. -/
theorem registers_after_child : ∃ s t u v w,
    kernel sampleKernel (some "fork") powerOn = .ok (.user s) ∧
    exception sampleKernel (syscall INT_SYS_FORK 0) s = .ok (.user t) ∧ t.current = 1 ∧
    exception sampleKernel sampleYield t = .ok (.user u) ∧ u.current = 2 ∧
    exception sampleKernel sampleRequest u = .ok (.user v) ∧
    exception sampleKernel (syscall INT_SYS_YIELD 0) v = .ok (.user w) ∧ w.current = 1 ∧
    Resumes samplePath w sampleYield := by
  obtain ⟨label,s,t,hboot,-,hfork,A⟩ := sample_pair
  obtain ⟨u,hu,B⟩ := A.yield (show sampleYield.reg_intno = _ from rfl)
  obtain ⟨label',v,hv,C⟩ := B.page_alloc (show sampleRequest.reg_intno = _ from rfl)
    fun _ => ⟨by decide,by decide,by decide⟩
  obtain ⟨w,hw,D⟩ := C.yield (show (syscall INT_SYS_YIELD 0).reg_intno = _ from rfl)
  have hspare : ∀ {reg : x86_64_registers} (s : KState), reg.reg_intno ≠ INT_SYS_PAGE_ALLOC →
      SparesKernel sampleKernel s reg := fun _ hne hno => absurd hno hne
  have hrequest : SparesKernel sampleKernel u sampleRequest := fun _ => Or.inr fun a ha hreq => by
    have hlow := sample_kernel_page ha
    have hpage : sampleRequest.reg_rdi.toNat % 2^48 / PAGESIZE = 0x102 := rfl
    rw [Requested, hpage] at hreq
    omega
  have haway : ∀ {s : KState}, s.current = 2 → s.current ≠ 1 := fun h => by
    rw [h]
    decide
  have R : Run sampleKernel (SparesKernel sampleKernel) (.user t) :=
    .exception (.boot hboot) (hspare s (by decide)) hfork
  have E : Continues sampleKernel (Elsewhere sampleKernel 1) u (.user w) :=
    .exception (.exception .refl ⟨haway B.current,hrequest⟩ hv)
      ⟨haway C.current,hspare v (by decide)⟩ hw
  obtain ⟨hanswer,hlater⟩ := registers_preserved sample_loadable samplePath R
    (hspare t (by decide)) hu
  have hready : (u.processes 1).p_state ≠ .P_FREE := by
    rw [B.ready]
    decide
  have hresumes := (hlater 1 hready _ E).2 w rfl D.current
  have hsaved : registers u 1 = sampleYield := by
    cases hanswer with
    | none _ h => exact A.current ▸ h
    | getpid hno _ => exact absurd hno (by decide)
    | page_alloc hno _ => exact absurd hno (by decide)
    | fork_failed hno _ => exact absurd hno (by decide)
    | forked hno _ _ _ _ _ => exact absurd hno (by decide)
  rw [hsaved] at hresumes
  exact ⟨s,t,u,v,w,hboot,hfork,A.current,hu,B.current,hv,hw,D.current,hresumes⟩

/-- The first boot writes to no page that it leaves free. -/
theorem sample_blank (hboot : kernel sampleKernel (some "fork") powerOn = .ok (.user s)) {x : ℕ}
    (hx : x / 4096 ∈ freePages s) : s.mem x = 0 := by
  obtain ⟨y,-,label,V,s₀,t₀,hs₀,-,D⟩ := Both.left
    (kernel_both sample_loadable (some "fork") powerOn powerOn) hboot
  rw [Outcome.user.injEq] at hs₀
  subst hs₀
  exact (D.twin.kept x fun h => D.books.used x h hx).1

/-- A request for the page of `processes`. -/
abbrev tableRequest : x86_64_registers := syscall INT_SYS_PAGE_ALLOC 0x53000

/-- A process that takes the page of `processes` gets registers that nobody has saved. -/
theorem registers_lost : ∃ s s', kernel sampleKernel (some "fork") powerOn = .ok (.user s) ∧
    exception sampleKernel tableRequest s = .ok (.user s') ∧ s'.current = s.current ∧
    ∀ r, ¬Loads samplePath s' { tableRequest with reg_rax := r } := by
  obtain ⟨label,s,hboot,S,hcur,hcount,-⟩ := sample_solo powerOn
  have hno : tableRequest.reg_intno = INT_SYS_PAGE_ALLOC := rfl
  have hcheck := (check_virtual_memory_iff S.sound.inv).2 S.sound.mapped
  have hcover : ¬CoversHandler sampleKernel 0x53000 := by
    rintro ⟨a,ha,hpage⟩
    simp only [List.mem_cons, List.not_mem_nil, or_false] at ha
    rcases ha with rfl | rfl | rfl <;> exact absurd hpage (by decide)
  obtain ⟨s',h,hcur',-⟩ := (page_alloc_returns_iff sample_loadable (.boot hboot) hno).2
    ⟨hcheck,Or.inr ⟨by decide,hcover⟩⟩
  refine ⟨s,s',hboot,h,hcur',fun r hloads => ?_⟩
  obtain ⟨label',s₁,s₂,E,I,-,F,rfl⟩ := request_resumed S.executing hno h
  have hone : s₁.current = 1 := E.current.trans hcur
  have hreq : request s₁ = 0x53000 := entered_request E
  have hfree : freePages s₁ ≠ ∅ := fun h => by
    rw [← freeCount_congr E.quiet.pageinfo, freeCount, h, Finset.card_empty] at hcount
    omega
  rcases request_effect F hno with ⟨hnone,-⟩ | ⟨f,c,res,t,-,hmap,A,rfl⟩
  · exact hfree hnone
  have hzero := hmap (low_mappable I hfree (by rw [hreq]; decide))
  obtain ⟨w,hw,hfield⟩ := loads_iff.1 hloads 6 (by decide)
  -- the saved rdi lies in the requested page, which shows a blank frame instead
  have hcur₂ : (t.setRax s₁.current res).current = s₁.current := A.grows.current
  have hpop : pop samplePath (served s₁ t res) 0x53130 = some w := by
    rw [hcur₂] at hw
    change pop samplePath (served s₁ t res) (samplePath.register_word s₁.current 6) = _ at hw
    rw [hone] at hw
    exact hw
  have hcovered : Covered s₁ res 0x53130 := ⟨hzero,by rw [hreq]; decide⟩
  rw [served_word I A hcovered rfl, Option.some.injEq] at hpop
  have hblank : load64 s₁.mem (f*4096+0x53130 % 4096) = load64 (fun _ => 0) 0 := by
    rw [load64, load64]
    refine load_moved 8 fun k hk => ?_
    have hdiv : (f*4096+0x53130 % 4096+k) / 4096 = f := by omega
    rw [E.quiet.mem]
    refine sample_blank hboot ?_
    rw [hdiv, ← freePages_congr E.quiet.pageinfo]
    exact A.fresh
  rw [← hpop, hblank, field_word (by decide), field_word (by decide)] at hfield
  have hrdi : UInt64.ofNat (load64 (fun _ => 0) 0) = tableRequest.reg_rdi := hfield
  exact absurd hrdi (by decide +kernel)

end Sample

end WeensyOS.SavedRegisters
