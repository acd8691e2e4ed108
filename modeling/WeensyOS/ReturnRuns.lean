import WeensyOS.ReturnPath
import WeensyOS.FreshPages

/-!
# Returning along runs

When the processor finds its way from the kernel back to a process. The tables
that pass the kernel's checks map the kernel to itself, so only a page request
can change what is read on the way back, and only by naming a page of it.
-/

set_option autoImplicit false

namespace WeensyOS.ReturnRuns
open WeensyOS.FlatMemory WeensyOS.KernelState WeensyOS.PageTables WeensyOS.Exceptions
open WeensyOS.Boot WeensyOS.Checks WeensyOS.CheckedRuns WeensyOS.ExceptionEntry
open WeensyOS.ReturnPath WeensyOS.TableWords WeensyOS.FreePages WeensyOS.PagingInvariant
open WeensyOS.PageMaps WeensyOS.TableCopies WeensyOS.KernelInvariant WeensyOS.KernelChecks
open WeensyOS.KernelSteps WeensyOS.ForkResult WeensyOS.AllocResult WeensyOS.Isolation
open WeensyOS.BootResult WeensyOS.BootRun WeensyOS.Effects WeensyOS.Runs WeensyOS.PrivateRuns WeensyOS.SelfChecks
open WeensyOS.Exhaustion WeensyOS.AllocRuns WeensyOS.FreshPages

variable {K : KernelImage} {P : WayBack K} {label label' : Labels} {s s' t : KState}
  {reg : x86_64_registers} {f c pid a : ℕ} {res : ℤ}

section Identity

/-- The current table maps the kernel to itself. -/
def KernelIdentity (K : KernelImage) (s : KState) : Prop :=
  ∀ a, KernelAddress K a → (virtual_memory_lookup s.mem s.cr3 a).pa = a

theorem kernel_vpage (h : KernelAddress K a) : a < 0x80000 ∧ vpage a = a / 4096 ∧ vpage a < 256 := by
  have hend := K.end_below_stack
  simp only [KernelAddress, KERNEL_START_ADDR, KERNEL_STACK_TOP, PAGESIZE] at h hend
  have hlt : a < 0x80000 := by omega
  have hv := vpage_small a (by omega)
  exact ⟨hlt,hv,by omega⟩

/-- A table that passes the kernel's checks maps the kernel to itself. -/
theorem mapped_identity (I : KInv K label s) (hp : Slot pid) (hl : live s pid)
    (H : MappingOk K s.mem (s.processes pid).p_pagetable) (h : KernelAddress K a) :
    (translation s pid a).pa = a := by
  have hpage : (translation s pid (a / 4096*4096)).pa = a / 4096*4096 := by
    have hend := K.end_below_stack
    simp only [KernelAddress, KERNEL_START_ADDR, KERNEL_STACK_TOP, PAGESIZE] at h hend
    by_cases hstack : 0x7F000 ≤ a
    · have haddr : a / 4096*4096 = KERNEL_STACK_TOP-PAGESIZE := by
        simp only [KERNEL_STACK_TOP, PAGESIZE]
        omega
      rw [haddr]
      exact H.2.1
    · refine (H.1 _ ((mem_addrs _ _ _).2 ⟨a / 4096-64,?_,?_⟩)).1
      · simp only [KERNEL_START_ADDR]
        omega
      · omega
  obtain ⟨hlt,-,-⟩ := kernel_vpage h
  rw [translation, I.lookup hp hl] at hpage ⊢
  have hsame : vpage (a / 4096*4096) = vpage a := by
    rw [vpage_small _ (by omega), vpage_small _ (by omega)]
    omega
  rw [leafWord_congr_page hsame] at hpage
  exact leafMapping_identity hpage

theorem identity_resumes (hcur : s.current < NPROC) (h : KernelIdentity K s) :
    Resumes P s (s.processes s.current).p_registers := by
  have htranslate : ∀ a, KernelAddress K a → physical_address s a = some a := fun a ha => by
    have hlt := (kernel_vpage ha).1
    exact physical_identity (h a ha) (by omega)
  refine ⟨fun a ha => ?_,loads_iff.2 fun n hn => ⟨_,?_,rfl⟩⟩
  · rw [fetch, htranslate a (reads_kernel ha), Option.map_some, physical_byte_own ha]
  · rw [pop, htranslate _ (register_word_kernel P hcur (mem_popped hn)), Option.map_some,
      physical_word_own hcur (mem_popped hn)]

theorem resumed_identity (I : KInv K label s) (hp : Slot pid) (hl : live s pid)
    (H : MappingOk K s.mem (s.processes pid).p_pagetable) : KernelIdentity K (resumed s pid) :=
  fun _ ha => mapped_identity (s := s) I hp hl H ha

/-- A process that is resumed as the kernel's checks have found it gets its registers. -/
theorem mapped_resumes (I : KInv K label s) (H : KernelMapped K s) (hp : Slot pid)
    (hl : live s pid) : Resumes P (resumed s pid) (s.processes pid).p_registers :=
  identity_resumes hp.2 (resumed_identity I hp hl (H pid hp hl.1).2)

end Identity

section Request

/-- The address lies in the page that the process asks for, as the tables decode it. -/
abbrev Requested (reg : x86_64_registers) (a : ℕ) : Prop :=
  reg.reg_rdi.toNat % 2^48 / PAGESIZE = a / PAGESIZE

/-- The page that the kernel is about to hand out holds, wherever it will cover the way back,
what the kernel has there: its own bytes, and the registers of the caller with the result 0. -/
structure Spares (P : WayBack K) (reg : x86_64_registers) (s : KState) : Prop where
  bytes : ∀ f, FirstFree s f → ∀ a ∈ P.reads, Requested reg a →
    s.mem (f*PAGESIZE+a % PAGESIZE) = P.content s.current a
  registers : ∀ f, FirstFree s f → ∀ n ∈ popped, Requested reg (P.register_word s.current n) →
    field n (UInt64.ofNat (load64 s.mem (f*PAGESIZE+P.register_word s.current n % PAGESIZE))) =
      field n (register_words { reg with reg_rax := 0 } n)

/-- A request outside the kernel spares the way back. -/
theorem spares_outside (h : ∀ a, KernelAddress K a → ¬Requested reg a) (hcur : s.current < NPROC) :
    Spares P reg s where
  bytes _ _ a ha hreq := absurd hreq (h a (reads_kernel ha))
  registers _ _ _ hn hreq := absurd hreq (h _ (register_word_kernel P hcur (mem_popped hn)))

theorem spares_full (h : NoFreePage s) : Spares P reg s where
  bytes f F := absurd F.free (h f F.page)
  registers f F := absurd F.free (h f F.page)

theorem requested_iff (ha : KernelAddress K a) :
    Requested reg a ↔ vpage a = vpage reg.reg_rdi.toNat := by
  rw [(kernel_vpage ha).2.1, vpage]
  exact eq_comm

theorem allocated_first (A : Allocated K f res label label' c s t) : FirstFree s f := by
  obtain ⟨hlt,hfree⟩ := (mem_freePages s f).1 A.fresh
  refine ⟨hlt,hfree,fun g hg hgfree => ?_⟩
  have := A.least g ((mem_freePages s g).2 ⟨hg.trans hlt,hgfree⟩)
  omega

/-- The kernel has nothing of its own in a page that it hands out. -/
theorem fresh_outside (I : KInv K label s) (A : Allocated K f res label label' c s t) {k : ℕ}
    (hk : k < 4096) : ¬KernelAddress K (f*4096+k) := by
  intro h
  have hdiv : (f*4096+k) / 4096 = f := by omega
  exact kernel_used I h (hdiv.symm ▸ A.fresh)

/-- The process that the kernel returns to after a request that took a page. -/
abbrev served (s t : KState) (res : ℤ) : KState := resumed (t.setRax s.current res) s.current

section Served

variable (I : KInv K label s) (H : KernelMapped K s) (A : Allocated K f res label label' c s t)
include I A

/-- The page covers an address of the kernel. -/
abbrev Covered (s : KState) (res : ℤ) (a : ℕ) : Prop := res = 0 ∧ vpage a = vpage (request s)

theorem served_covered (h : Covered s res a) :
    physical_address (served s t res) a = some (f*4096+a % 4096) := by
  have htrans := alloc_translation I A I.current_slot I.current_live a res
  rw [if_pos ⟨h.1,rfl,h.2⟩] at htrans
  change virtual_memory_lookup t.mem (served s t res).cr3 a = _ at htrans
  have hP : 7 &&& PTE_P ≠ 0 := by decide
  change (if (virtual_memory_lookup t.mem (served s t res).cr3 a).perm &&& PTE_P ≠ 0
    then some (virtual_memory_lookup t.mem (served s t res).cr3 a).pa else none) = _
  rw [htrans, if_pos hP]

include H in
theorem served_identity (ha : KernelAddress K a) (h : ¬Covered s res a) :
    physical_address (served s t res) a = some a := by
  have htrans := alloc_translation I A I.current_slot I.current_live a res
  rw [if_neg fun hc => h ⟨hc.1,hc.2.2⟩] at htrans
  have hid := mapped_identity I I.current_slot I.current_live
    (H _ I.current_slot I.current_live.1).2 ha
  rw [← htrans] at hid
  have hlt := (kernel_vpage ha).1
  exact physical_identity hid (by omega)

/-- A covered byte comes from the frame, which the request has not written. -/
theorem served_byte (h : Covered s res a) :
    fetch P (served s t res) a = some (s.mem (f*4096+a % 4096)) := by
  have hk := Nat.mod_lt a (show 4096 > 0 by decide)
  rw [fetch, served_covered I A h, Option.map_some, physical_byte_other (fresh_outside I A hk)]
  exact congrArg some (A.content _ hk)

theorem served_word (h : Covered s res a) (halign : a % 8 = 0) :
    pop P (served s t res) a = some (UInt64.ofNat (load64 s.mem (f*4096+a % 4096))) := by
  have hk := Nat.mod_lt a (show 4096 > 0 by decide)
  rw [pop, served_covered I A h, Option.map_some, physical_word_other (fresh_outside I A hk)]
  have hload : load64 t.mem (f*4096+a % 4096) = load64 s.mem (f*4096+a % 4096) :=
    load64_congr fun k hk => by
      have h := A.content (a % 4096+k) (by omega)
      rw [add_assoc]
      exact h
  exact congrArg (fun w => some (UInt64.ofNat w)) hload

include H in
/-- The process gets its registers, with the answer of the call, exactly when the page that was
handed out spares the way back. -/
theorem served_resumes_iff (hreg : (s.processes s.current).p_registers = reg)
    (hmap : Mappable s → res = 0) :
    Resumes P (served s t res) { reg with reg_rax := toRegister res } ↔ Spares P reg s := by
  have hcur : s.current < NPROC := I.current_slot.2
  have hprocs : ((served s t res).processes s.current).p_registers =
      { reg with reg_rax := toRegister res } := by
    rw [← hreg]
    change ((t.setRax s.current res).processes s.current).p_registers = _
    rw [setRax_self, A.processes]
  have hrdi : reg.reg_rdi.toNat = request s := by rw [← hreg]
  -- every page below `PROC_START_ADDR` can be mapped
  have hcover : ∀ {a}, KernelAddress K a → (Requested reg a ↔ Covered s res a) := by
    intro a ha
    rw [requested_iff ha, hrdi]
    refine ⟨fun hv => ⟨hmap (low_mappable I ?_ ?_),hv⟩,fun h => h.2⟩
    · exact Finset.nonempty_iff_ne_empty.1 ⟨f,A.fresh⟩
    · rw [← hv]
      exact (kernel_vpage ha).2.2
  have hzero : ∀ {a}, Covered s res a → { reg with reg_rax := toRegister res } =
      { reg with reg_rax := 0 } := fun h => by
    rw [h.1]
    rfl
  constructor
  · intro R
    refine ⟨fun g G a ha hreq => ?_,fun g G n hn hreq => ?_⟩
    · have hc := (hcover (reads_kernel ha)).1 hreq
      have hpath := R.path a ha
      rw [served_byte I A hc, Option.some.injEq] at hpath
      rw [firstFree_unique G (allocated_first A)]
      exact hpath
    · have hc := (hcover (register_word_kernel P hcur (mem_popped hn))).1 hreq
      obtain ⟨w,hw,hfield⟩ := loads_iff.1 R.loads n hn
      change pop P _ (P.register_word s.current n) = _ at hw
      rw [served_word I A hc (register_word_aligned P _ _), Option.some.injEq] at hw
      rw [firstFree_unique G (allocated_first A), ← hzero hc]
      exact hw ▸ hfield
  · intro S
    refine ⟨fun a ha => ?_,loads_iff.2 fun n hn => ?_⟩
    · have hk := reads_kernel ha
      by_cases hc : Covered s res a
      · rw [served_byte I A hc]
        exact congrArg some (S.bytes f (allocated_first A) a ha ((hcover hk).2 hc))
      · rw [fetch, served_identity I H A hk hc, Option.map_some, physical_byte_own ha]
    · have hk := register_word_kernel P hcur (mem_popped hn)
      change ∃ w, pop P _ (P.register_word s.current n) = some w ∧ _
      by_cases hc : Covered s res (P.register_word s.current n)
      · rw [served_word I A hc (register_word_aligned P _ _), hzero hc]
        exact ⟨_,rfl,S.registers f (allocated_first A) n hn ((hcover hk).2 hc)⟩
      · rw [pop, served_identity I H A hk hc, Option.map_some,
          physical_word_own hcur (mem_popped hn), hprocs]
        exact ⟨_,rfl,rfl⟩

end Served

theorem Spares.same (h : Spares P reg s) (Q : Quiet s s') (hcur : s'.current = s.current) :
    Spares P reg s' := by
  have hfirst : ∀ f, FirstFree s' f → FirstFree s f := fun f F =>
    ⟨F.page,Q.pageinfo ▸ F.free,Q.pageinfo ▸ F.least⟩
  refine ⟨fun f F a ha hreq => ?_,fun f F n hn hreq => ?_⟩
  · rw [Q.mem, hcur]
    exact h.bytes f (hfirst f F) a ha hreq
  · rw [hcur] at hreq ⊢
    rw [Q.mem]
    exact h.registers f (hfirst f F) n hn hreq

theorem spares_entered (E : Entered reg s t) : Spares P reg t ↔ Spares P reg s :=
  ⟨fun h => h.same E.quiet.symm E.current.symm,fun h => h.same E.quiet E.current⟩

/-- A page request that comes back resumes the caller exactly when it spares the way back. -/
theorem request_resumes_iff (X : Executing K label s) (hno : reg.reg_intno = INT_SYS_PAGE_ALLOC)
    (h : exception K reg s = .ok (.user s')) : (∃ r, (r = 0 ∨ r = FAILED) ∧
      result s' = toRegister r ∧ Resumes P s' { reg with reg_rax := toRegister r }) ↔
      Spares P reg s := by
  obtain ⟨label',s₁,s₂,E,I,H,F,rfl⟩ := request_resumed X hno h
  have hreg : (s₁.processes s₁.current).p_registers = reg := by rw [E.current, E.process]
  rw [← spares_entered E]
  rcases request_effect F hno with ⟨hfree,rfl⟩ | ⟨f,c,res,t,hcases,hmap,A,rfl⟩
  · refine ⟨fun _ => spares_full (no_free_page.2 hfree),
      fun _ => ⟨FAILED,Or.inr rfl,refused_result s₁,?_⟩⟩
    have Q := refused_quiet s₁
    have I₂ := I.same Q rfl
    have R := mapped_resumes (P := P) I₂ (H.quiet Q) I₂.current_slot I₂.current_live
    have hanswer := congrArg proc.p_registers
      (setRax_self { s₁ with pagetable_owner := s₁.current } s₁.current FAILED)
    rw [← hreg]
    exact Eq.mp (congrArg (Resumes P _) hanswer) R
  · have hcur : (t.setRax s₁.current res).current = s₁.current := A.grows.current
    have hresult : result (served s₁ t res) = toRegister res :=
      congrArg (fun p => p.p_registers.reg_rax) (setRax_self t s₁.current res)
    rw [hcur, ← served_resumes_iff I H A hreg hmap]
    constructor
    · rintro ⟨r,-,hr,R⟩
      have hsame : toRegister r = toRegister res := hr.symm.trans hresult
      rw [← hsame]
      exact R
    · exact fun R => ⟨res,hcases,hresult,R⟩

/-- A request resumes the calling process with 0 or -1 exactly when the kernel's checks pass and
either no page is free, or the address is aligned, covers no handler and spares the way back. -/
theorem page_alloc_survives_iff (hK : Loadable K) (P : WayBack K) (R : Run K Any (.user s))
    (hno : reg.reg_intno = INT_SYS_PAGE_ALLOC) :
    (∃ s' r, exception K reg s = .ok (.user s') ∧ s'.current = s.current ∧ (r = 0 ∨ r = FAILED) ∧
      result s' = toRegister r ∧ Resumes P s' { reg with reg_rax := toRegister r }) ↔
    check_virtual_memory K s = .ok () ∧ (NoFreePage s ∨ (reg.reg_rdi.toNat % PAGESIZE = 0 ∧
      ¬CoversHandler K reg.reg_rdi.toNat ∧ Spares P reg s)) := by
  obtain ⟨label,X⟩ := run_executing hK R
  constructor
  · rintro ⟨s',r,h,hcur,hr,hres,hresumes⟩
    have hor : result s' = toRegister 0 ∨ result s' = toRegister FAILED := by
      rcases hr with rfl | rfl
      · exact Or.inl hres
      · exact Or.inr hres
    obtain ⟨hcheck,hcond⟩ := (page_alloc_returns_iff hK R hno).1 ⟨s',h,hcur,hor⟩
    refine ⟨hcheck,hcond.imp id fun hpage => ⟨hpage.1,hpage.2,?_⟩⟩
    exact (request_resumes_iff X hno h).1 ⟨r,hr,hres,hresumes⟩
  · rintro ⟨hcheck,hcond⟩
    obtain ⟨s',h,hcur,-⟩ := (page_alloc_returns_iff hK R hno).2
      ⟨hcheck,hcond.imp id fun hpage => ⟨hpage.1,hpage.2.1⟩⟩
    have hspares : Spares P reg s := hcond.elim spares_full fun hpage => hpage.2.2
    obtain ⟨r,hr,hres,hresumes⟩ := (request_resumes_iff X hno h).2 hspares
    exact ⟨s',r,h,hcur,hr,hres,hresumes⟩

end Request

section Runs

/-- Every live process has the kernel mapped to itself. -/
def SelfMapped (K : KernelImage) (s : KState) : Prop :=
  ∀ pid, Slot pid → live s pid → ∀ a, KernelAddress K a → (translation s pid a).pa = a

/-- A page request names no page of the kernel, or no page is free. -/
def SparesKernel (K : KernelImage) : KState → x86_64_registers → Prop := fun s reg =>
  reg.reg_intno = INT_SYS_PAGE_ALLOC → NoFreePage s ∨ ∀ a, KernelAddress K a → ¬Requested reg a

theorem SelfMapped.quiet (Q : Quiet s s') (H : SelfMapped K s) : SelfMapped K s' := by
  intro pid hp hl a ha
  have h := H pid hp ((Q.live pid).1 hl) a ha
  rw [translation] at h ⊢
  rw [(Q.procs pid).2.1, Q.mem]
  exact h

theorem SelfMapped.change (H : SelfMapped K s) (C : Change K reg label s label' t)
    (I : KInv K label s) (hreg : request s = reg.reg_rdi.toNat) (hspare : SparesKernel K s reg) :
    SelfMapped K t := by
  have I' := C.inv I
  intro pid hp hl a ha
  cases C with
  | none => exact H pid hp hl a ha
  | page hno A =>
    rw [translation, I'.lookup hp hl, A.processes]
    rw [live, A.processes] at hl
    have hfree : ¬NoFreePage s := fun h => by
      rw [no_free_page] at h
      exact Finset.notMem_empty _ (h ▸ A.fresh)
    have hother := (hspare hno).resolve_left hfree a ha
    rw [requested_iff ha, ← hreg] at hother
    rw [A.leaf _ _ a (rootsOf_live hp hl), if_neg fun h => hother h.2.2, ← I.lookup hp hl]
    exact H pid hp hl a ha
  | @null i hslot =>
    have hpi : pid ≠ i := by
      rintro rfl
      rw [live, nullChild_child] at hl
      exact hl.2 rfl
    rw [live, nullChild_other hpi] at hl
    have h := H pid hp hl a ha
    rw [translation] at h ⊢
    rw [nullChild_other hpi]
    exact h
  | @child i r c label' t hslot F =>
    obtain ⟨hi,-,-⟩ := free_slot_some hslot
    rw [translation, I'.lookup hp hl]
    by_cases hpi : pid = i
    · -- the child has copies of the low leaves of its parent
      subst hpi
      have hlow := F.low a (kernel_vpage ha).2.2
      rw [F.child, hlow, ← I.lookup I.current_slot I.current_live]
      exact H _ I.current_slot I.current_live a ha
    · rw [F.live_other hpi] at hl
      rw [F.other hpi, F.leaf_other I hp hl hpi, ← I.lookup hp hl]
      exact H pid hp hl a ha

theorem SelfMapped.store (H : SelfMapped K s) (I : KInv K label s) {m : Memory}
    (T : TablesKept label s m) : SelfMapped K { s with mem := m } := by
  intro pid hp hl a ha
  have hlook := (store_inv I T).lookup hp hl a
  have hleaf := T.leaves I.paging pid _ a (rootsOf_live hp hl)
  have h := H pid hp hl a ha
  rw [translation, I.lookup hp hl, ← hleaf] at h
  rw [translation, hlook]
  exact h

theorem sparesKernel_entered (E : Entered reg s t) (h : SparesKernel K s reg) :
    SparesKernel K t reg := fun hno => (h hno).imp_left fun hnone pn hpn => by
  rw [E.quiet.pageinfo]
  exact hnone pn hpn

/-- As long as page requests spare the kernel every table keeps it in its place. -/
theorem run_selfMapped {allow : KState → x86_64_registers → Prop} (hK : Loadable K)
    (hallow : ∀ s reg, allow s reg → SparesKernel K s reg) (R : Run K allow (.user s)) :
    ∃ label, Executing K label s ∧ SelfMapped K s := by
  obtain ⟨label,-,H,hx⟩ := run_keeps (P := fun _ s => SelfMapped K s) hK
    (fun label s B pid hp hl a ha =>
      mapped_identity B.inv hp hl ((booted_sound B).mapped pid hp hl.1).2 ha)
    (fun _ _ _ Q H => H.quiet Q)
    (fun reg label label' s s₁ s₂ out h E H => by
      obtain ⟨t,C,Q,-⟩ := E.effect.change E.inv.current_live
      exact (H.change C E.inv (entered_request E.entered)
        (sparesKernel_entered E.entered (hallow _ _ h))).quiet Q)
    (fun label s m I T H => H.store I T) R
  exact ⟨label,hx s rfl,H⟩

/-- Where every table keeps the kernel in its place the current process gets its registers. -/
theorem SelfMapped.resumes (H : SelfMapped K s) (X : Executing K label s) :
    Resumes P s (s.processes s.current).p_registers := by
  refine identity_resumes X.inv.current_slot.2 fun a ha => ?_
  rw [X.active]
  exact H _ X.inv.current_slot X.inv.current_live a ha

end Runs

section Sample

/-- The code of the way back in the sample kernel: the ends of `set_pagetable` and of `run`, and
`exception_return`. -/
def sampleCode : Memory :=
  let set_pagetable : List UInt8 := [0x90,0x90,0xC9,0xC3]
  let run : List UInt8 :=
    [0x48,0x8B,0x45,0xF8,0x48,0x83,0xC0,0x08,0x48,0x89,0xC7,0xE8,0xB4,0xF2,0xFF,0xFF]
  let exception_return : List UInt8 :=
    [0x48,0x89,0xFC,0x58,0x59,0x5A,0x5B,0x5D,0x5E,0x5F,0x41,0x58,0x41,0x59,0x41,0x5A,0x41,0x5B,0x41,
      0x5C,0x41,0x5D,0x41,0x5E,0x41,0x5F,0x0F,0xA1,0x0F,0xA9,0x48,0x83,0xC4,0x10,0x48,0xCF]
  let m := blit (fun _ => 0) 0x42998 4 fun k => set_pagetable.getD k 0
  let m := blit m 0x40DFF 16 fun k => run.getD k 0
  blit m 0x400C3 36 fun k => exception_return.getD k 0

/-- Where the sample kernel has its way back. -/
def samplePath : WayBack sampleKernel where
  code := List.range' 0x42998 4++(List.range' 0x40DFF 16++List.range' 0x400C3 36)
  stack := List.range' 0x7FEB0 16++List.range' 0x7FEC8 8
  segments := List.range' 0x55030 8++List.range' 0x55040 8
  content pid :=
    -- the frame of set_pagetable and the variable p of run
    let m := store64 (store64 sampleCode 0x7FEB0 0x7FED0) 0x7FEB8 0x40DFF
    let m := store64 m 0x7FEC8 (0x53020+SIZEOF_PROC*pid)
    -- the segments of SEGSEL_APP_CODE and SEGSEL_APP_DATA
    store64 (store64 m 0x55030 0x20F80000000000) 0x55040 0xF20000000000
  processes := 0x53020
  code_in_text := by decide +kernel
  stack_in_page := by decide +kernel
  segments_in_data := by decide +kernel
  processes_in_data := ⟨by decide,by decide⟩
  processes_aligned := rfl

theorem sample_kernel_page {a : ℕ} (h : KernelAddress sampleKernel a) : a / PAGESIZE < 0x80 := by
  have hlt := (kernel_vpage h).1
  simp only [PAGESIZE]
  omega

/-- A request for a page above the image of the program. -/
theorem window_request_resumes : ∃ s s' r,
    kernel sampleKernel (some "fork") powerOn = .ok (.user s) ∧
    exception sampleKernel sampleRequest s = .ok (.user s') ∧ s'.current = s.current ∧
    (r = 0 ∨ r = FAILED) ∧ Resumes samplePath s' { sampleRequest with reg_rax := toRegister r } := by
  obtain ⟨label,s,hboot,S,-⟩ := sample_solo powerOn
  have hcheck := (check_virtual_memory_iff S.sound.inv).2 S.sound.mapped
  have hpage : sampleRequest.reg_rdi.toNat % 2^48 / PAGESIZE = 0x102 := rfl
  have hcover : ¬CoversHandler sampleKernel sampleRequest.reg_rdi.toNat := by
    rintro ⟨a,ha,hsame⟩
    rw [hpage] at hsame
    simp only [List.mem_cons, List.not_mem_nil, or_false] at ha
    rcases ha with rfl | rfl | rfl <;> exact absurd hsame (by decide)
  have hspare : Spares samplePath sampleRequest s := spares_outside (fun a ha hreq => by
    have hlow := sample_kernel_page ha
    rw [Requested, hpage] at hreq
    omega) S.sound.inv.current_slot.2
  obtain ⟨s',r,h,hcur,hr,-,R⟩ := (page_alloc_survives_iff sample_loadable samplePath (.boot hboot)
    rfl).2 ⟨hcheck,Or.inr ⟨by decide,hcover,hspare⟩⟩
  exact ⟨s,s',r,hboot,h,hcur,hr,R⟩

end Sample

end WeensyOS.ReturnRuns
