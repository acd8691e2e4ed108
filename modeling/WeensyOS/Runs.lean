import WeensyOS.BootRun
import WeensyOS.Effects

/-!
# Runs

A run starts with `kernel` and goes on with exceptions and with stores of the
process that is executing. It ends when the kernel stops. `allow` restricts the
exceptions of a run by the state in which they occur.
-/

set_option autoImplicit false

namespace WeensyOS.Runs
open WeensyOS.FlatMemory WeensyOS.KernelState WeensyOS.PageTables WeensyOS.PageAllocator
open WeensyOS.Exceptions WeensyOS.Boot WeensyOS.CheckedRuns WeensyOS.RadixForest
open WeensyOS.TableWords WeensyOS.FreePages WeensyOS.PagingInvariant WeensyOS.PageMaps
open WeensyOS.TableCopies WeensyOS.ForkCopies WeensyOS.KernelInvariant WeensyOS.KernelChecks
open WeensyOS.KernelSteps WeensyOS.ForkResult WeensyOS.AllocResult WeensyOS.Isolation
open WeensyOS.BootResult WeensyOS.BootRun WeensyOS.Effects

/-- A one-byte store of the process that is executing. -/
def user_store (va : ℕ) (c : UInt8) (s : KState) : Option KState :=
  let vam := virtual_memory_lookup s.mem s.cr3 va
  if vam.perm &&& PTE_W ≠ 0 ∧ vam.perm &&& PTE_U ≠ 0
    then some { s with mem := Function.update s.mem vam.pa c } else none

inductive Run (K : KernelImage) (allow : KState → x86_64_registers → Prop) : Outcome → Prop where
  | boot {command : Option String} {s : KState} {out : Outcome}
    (h : kernel K command s = .ok out) : Run K allow out
  | exception {s : KState} {reg : x86_64_registers} {out : Outcome} (R : Run K allow (.user s))
    (hallow : allow s reg) (h : exception K reg s = .ok out) : Run K allow out
  | store {s s' : KState} {va : ℕ} {c : UInt8} (R : Run K allow (.user s))
    (h : user_store va c s = some s') : Run K allow (.user s')

/-- Exceptions without restriction. -/
abbrev Any : KState → x86_64_registers → Prop := fun _ _ => True

variable {K : KernelImage} {allow allow' : KState → x86_64_registers → Prop}
  {label label' : Labels} {s s' s₁ s₂ : KState} {reg : x86_64_registers} {out : Outcome}

theorem Run.mono (R : Run K allow out) (h : ∀ s reg, allow s reg → allow' s reg) :
    Run K allow' out := by
  induction R with
  | boot h' => exact .boot h'
  | exception _ hallow h' ih => exact .exception ih (h _ _ hallow) h'
  | store _ h' ih => exact .store ih h'

/-- The invariant while a process executes. -/
structure Executing (K : KernelImage) (label : Labels) (s : KState) : Prop where
  inv : KInv K label s
  runnable : (s.processes s.current).p_state = .P_RUNNABLE
  active : s.cr3 = currentTable s

/-- One exception, from the entry of the kernel to the way out. -/
structure Handling (K : KernelImage) (reg : x86_64_registers) (label label' : Labels)
    (s s₁ s₂ : KState) (out : Outcome) : Prop where
  enter : exception_enter K reg s = .ok s₁
  entered : Entered reg s s₁
  mapped : KernelMapped K s₁
  inv : KInv K label s₁
  effect : Effect K reg label s₁ label' s₂
  inv' : KInv K label' s₂
  leaves : Leaves s₂ out
  back : ¬Switches reg → (s₂.processes s₂.current).p_state = .P_RUNNABLE →
    out = .user (resumed s₂ s₂.current)

section Exceptions

theorem entered_inv (X : Executing K label s) (E : Entered reg s s₁) : KInv K label s₁ :=
  X.inv.same E.quiet E.current

theorem entered_runnable (X : Executing K label s) (E : Entered reg s s₁) :
    (s₁.processes s₁.current).p_state = .P_RUNNABLE := by
  rw [E.current, E.process]
  exact X.runnable

theorem exception_cases (X : Executing K label s) (h : exception K reg s = .ok out) :
    ∃ label' s₁ s₂, Handling K reg label label' s s₁ s₂ out := by
  obtain ⟨s₁,henter,hhandle⟩ := (bind_ok_iff _ _ _).1 h
  obtain ⟨hmapped,E⟩ := exception_enter_cases X.inv henter
  have I₁ := entered_inv X E
  obtain ⟨label',s₂,F,hout⟩ := exception_handle_cases I₁ hhandle
  have H₁ := (hmapped F.inspected).quiet E.quiet
  have I₂ := F.inv I₁
  have hcur : s₂.current = s₁.current := (F.change I₁.current_live).choose_spec.2.2
  refine ⟨label',s₁,s₂,henter,E,H₁,I₁,F,I₂,?_,fun hstay hrun => ?_⟩
  swap
  · rw [if_neg hstay] at hout
    exact ((return_iff I₂ hrun).1 hout).2
  -- where the scheduler is called every process still has its tables
  have hlive : Quiet s₁ s₂ → ∀ pid, Slot pid → (s₂.processes pid).p_state ≠ .P_FREE → live s₂ pid :=
    fun Q pid hp hstate => (H₁.quiet Q).live hp hstate
  by_cases hswitch : Switches reg
  · rw [if_pos hswitch] at hout
    refine schedule_cases I₂ (hlive ?_) hout
    cases F with
    | yield hno => exact Quiet.refl _
    | timer hno => exact ⟨rfl,rfl,fun _ => ⟨Iff.rfl,rfl,rfl⟩⟩
    | getpid hno => rw [Switches, hno] at hswitch; exact absurd hswitch (by decide)
    | fault hno _ => rw [Switches, hno] at hswitch; exact absurd hswitch (by decide)
    | refused hno _ => rw [Switches, hno] at hswitch; exact absurd hswitch (by decide)
    | alloc hno _ _ _ _ => rw [Switches, hno] at hswitch; exact absurd hswitch (by decide)
    | noSlot hno _ => rw [Switches, hno] at hswitch; exact absurd hswitch (by decide)
    | rootless hno _ _ => rw [Switches, hno] at hswitch; exact absurd hswitch (by decide)
    | unfinished hno _ _ _ _ => rw [Switches, hno] at hswitch; exact absurd hswitch (by decide)
    | forked hno _ _ _ _ => rw [Switches, hno] at hswitch; exact absurd hswitch (by decide)
  · rw [if_neg hswitch] at hout
    by_cases hrun : (s₂.processes s₂.current).p_state = .P_RUNNABLE
    · exact Or.inr ⟨_,I₂.current_slot,I₂.current_live,hrun,((return_iff I₂ hrun).1 hout).2⟩
    · rw [exception_leave, if_neg hrun] at hout
      have hfault : reg.reg_intno = INT_PAGEFAULT := by
        by_contra hne
        rw [hcur, F.state_kept I₁ hne] at hrun
        exact hrun (entered_runnable X E)
      refine schedule_cases I₂ (hlive ?_) hout
      cases F with
      | fault _ _ => exact broken_quiet I₁.current_live
      | yield hno => rw [hno] at hfault; exact absurd hfault (by decide)
      | timer hno => rw [hno] at hfault; exact absurd hfault (by decide)
      | getpid hno => rw [hno] at hfault; exact absurd hfault (by decide)
      | refused hno _ => rw [hno] at hfault; exact absurd hfault (by decide)
      | alloc hno _ _ _ _ => rw [hno] at hfault; exact absurd hfault (by decide)
      | noSlot hno _ => rw [hno] at hfault; exact absurd hfault (by decide)
      | rootless hno _ _ => rw [hno] at hfault; exact absurd hfault (by decide)
      | unfinished hno _ _ _ _ => rw [hno] at hfault; exact absurd hfault (by decide)
      | forked hno _ _ _ _ => rw [hno] at hfault; exact absurd hfault (by decide)

/-- The way out changes neither memory nor any slot. -/
theorem Leaves.quiet (L : Leaves s out) : Quiet s out.state ∧ out.state.processes = s.processes := by
  rcases L with rfl | ⟨pid,-,-,-,rfl⟩
  · exact ⟨Quiet.refl _,rfl⟩
  · exact ⟨⟨rfl,rfl,fun _ => ⟨Iff.rfl,rfl,rfl⟩⟩,rfl⟩

theorem Leaves.inv (L : Leaves s out) (I : KInv K label s) : KInv K label out.state := by
  rcases L with rfl | ⟨pid,hp,hl,-,rfl⟩
  · exact I
  · exact I.quiet ⟨rfl,rfl,fun _ => ⟨Iff.rfl,rfl,rfl⟩⟩ hp hl

theorem Leaves.executing (L : Leaves s (.user s')) (I : KInv K label s) : Executing K label s' := by
  have I' := Leaves.inv L I
  rcases L with h | ⟨pid,hp,hl,hstate,h⟩
  · cases h
  · cases h
    exact ⟨I',hstate,rfl⟩

end Exceptions

section Stores

/-- The console page is reserved, so it holds no page table. -/
theorem console_unlabelled (I : KInv K label s) : label console = none := by
  cases hl : label console with
  | none => rfl
  | some q =>
    have hinfo := (I.paging.owned console q hl).2
    have hentry : pageinfo_init_entry K (0xB8*4096) = ⟨PO_RESERVED,1⟩ := rfl
    have hpn : console / 4096 = 0xB8 := by decide
    rw [hpn, I.paging.marked 0xB8 (by decide) (by rw [hentry]; decide), hentry] at hinfo
    have ho : PO_RESERVED = q.owner := congrArg physical_pageinfo.owner hinfo
    rcases I.paging.owners console q hl with h | h
    · rw [h] at ho
      exact absurd ho (by decide)
    · have hpos := h.1
      simp only [PO_RESERVED] at ho
      omega

/-- A store reaches the console or a frame of some process, never a page table. -/
theorem user_store_cases (X : Executing K label s) {va : ℕ} {c : UInt8}
    (h : user_store va c s = some s') : ∃ a, Frame a ∧ label a = none ∧
      (leafWord s.mem (currentTable s) va = a+7) ∧
      s' = { s with mem := Function.update s.mem (a+va % 4096) c } := by
  have I := X.inv
  have hlook : virtual_memory_lookup s.mem s.cr3 va =
      leafMapping (leafWord s.mem (currentTable s) va) va := by
    rw [X.active, I.lookup I.current_slot I.current_live]
  have hleaf : Leaf label s va (leafWord s.mem (currentTable s) va) :=
    I.leaf I.current_slot I.current_live va
  simp only [user_store] at h
  have hdone : ∀ {a : ℕ}, Frame a → label a = none → leafWord s.mem (currentTable s) va = a+7 →
      ∃ a, Frame a ∧ label a = none ∧ leafWord s.mem (currentTable s) va = a+7 ∧
        s' = { s with mem := Function.update s.mem (a+va % 4096) c } := by
    intro a hf hnone hw
    rw [hw, leafMapping_frame hf (Or.inr rfl)] at hlook
    simp only [hlook] at h
    rw [if_pos ⟨by decide,by decide⟩, Option.some.injEq] at h
    exact ⟨a,hf,hnone,hw,h.symm⟩
  generalize hw : leafWord s.mem (currentTable s) va = e at hlook hleaf hdone
  cases hleaf with
  | empty =>
    rw [leafMapping_zero] at hlook
    simp only [hlook] at h
    rw [if_neg (by decide)] at h
    cases h
  | kernel a hf hlow =>
    rw [leafMapping_frame hf (Or.inl rfl)] at hlook
    simp only [hlook] at h
    rw [if_neg (by decide)] at h
    cases h
  | console hlow => exact hdone ⟨by decide,by decide⟩ (console_unlabelled I) rfl
  | user a hf hu => exact hdone hf hu.1 rfl

theorem store_tables (X : Executing K label s) {va : ℕ} {c : UInt8}
    (h : user_store va c s = some s') : ∃ m, s' = { s with mem := m } ∧ TablesKept label s m := by
  obtain ⟨a,hf,hnone,-,rfl⟩ := user_store_cases X h
  exact ⟨_,rfl,TablesKept.byte X.inv.paging hf.1 hnone (Nat.mod_lt va (by decide)) c⟩

theorem store_inv (I : KInv K label s) {m : Memory} (T : TablesKept label s m) :
    KInv K label { s with mem := m } where
  paging := T.paging I.paging
  low pid hp hl va hva := by
    rw [T.leaves I.paging pid _ va (rootsOf_live hp hl)]
    exact I.low pid hp hl va hva
  slot0 := I.slot0
  pids := I.pids
  used := I.used
  current_slot := I.current_slot
  current_live := I.current_live

theorem store_executing (X : Executing K label s) {va : ℕ} {c : UInt8}
    (h : user_store va c s = some s') : Executing K label s' := by
  obtain ⟨m,rfl,T⟩ := store_tables X h
  exact ⟨store_inv X.inv T,X.runnable,X.active⟩

end Stores

section Reachable

/-- The current process asks for the address in its saved `reg_rdi`. -/
theorem entered_request (E : Entered reg s s₁) : request s₁ = reg.reg_rdi.toNat := by
  rw [request, E.current, E.process]

theorem booted_executing (B : Booted K label s) (hcr3 : s.cr3 = currentTable s) :
    Executing K label s :=
  ⟨B.inv,(B.runnable _ B.inv.current_slot B.inv.current_live.1).1,hcr3⟩

/-- The rest of a run from a state on. -/
inductive Continues (K : KernelImage) (allow : KState → x86_64_registers → Prop) (s : KState) :
    Outcome → Prop where
  | refl : Continues K allow s (.user s)
  | exception {s' : KState} {reg : x86_64_registers} {out : Outcome}
    (C : Continues K allow s (.user s')) (hallow : allow s' reg)
    (h : exception K reg s' = .ok out) : Continues K allow s out
  | store {s' s'' : KState} {va : ℕ} {c : UInt8} (C : Continues K allow s (.user s'))
    (h : user_store va c s' = some s'') : Continues K allow s (.user s'')

theorem Run.continue (R : Run K allow (.user s)) (C : Continues K allow s out) :
    Run K allow out := by
  induction C with
  | refl => exact R
  | exception _ hallow h ih => exact .exception ih hallow h
  | store _ h ih => exact .store ih h

/-- A run is a boot and what follows. -/
theorem Run.split (hK : Loadable K) (R : Run K allow out) : ∃ label s, Booted K label s ∧
    Executing K label s ∧ Run K allow (.user s) ∧ Continues K allow s out := by
  induction R with
  | boot h =>
    obtain ⟨label,s',rfl,B,hcr3⟩ := kernel_ok hK h
    exact ⟨label,s',B,booted_executing B hcr3,.boot h,.refl⟩
  | exception R hallow h ih =>
    obtain ⟨label,s,B,X,R₀,C⟩ := ih
    exact ⟨label,s,B,X,R₀,.exception C hallow h⟩
  | store R h ih =>
    obtain ⟨label,s,B,X,R₀,C⟩ := ih
    exact ⟨label,s,B,X,R₀,.store C h⟩

/-- A property of an executing state that exceptions and stores keep is kept from there on. -/
theorem continues_keeps {P : Labels → KState → Prop} (X : Executing K label s) (hP : P label s)
    (hstep : ∀ reg label label' t s₁ s₂ out, allow t reg → Executing K label t →
      Handling K reg label label' t s₁ s₂ out → P label t → P label' out.state)
    (hstore : ∀ label t m va c, Executing K label t →
      user_store va c t = some { t with mem := m } → TablesKept label t m → P label t →
      P label { t with mem := m })
    (C : Continues K allow s out) : ∃ label', KInv K label' out.state ∧ P label' out.state ∧
      ∀ t, out = .user t → Executing K label' t := by
  induction C with
  | refl =>
    refine ⟨label,X.inv,hP,fun t ht => ?_⟩
    cases ht
    exact X
  | exception C hallow h ih =>
    obtain ⟨label₁,-,hP₁,hx⟩ := ih
    obtain ⟨label',s₁,s₂,H⟩ := exception_cases (hx _ rfl) h
    refine ⟨label',Leaves.inv H.leaves H.inv',hstep _ _ _ _ _ _ _ hallow (hx _ rfl) H hP₁,
      fun t ht => ?_⟩
    subst ht
    exact Leaves.executing H.leaves H.inv'
  | store C h ih =>
    obtain ⟨label₁,-,hP₁,hx⟩ := ih
    obtain ⟨m,rfl,T⟩ := store_tables (hx _ rfl) h
    have X' := store_executing (hx _ rfl) h
    refine ⟨label₁,X'.inv,hstore _ _ _ _ _ (hx _ rfl) h T hP₁,fun t ht => ?_⟩
    cases ht
    exact X'

/-- A property of memory and ownership that boot establishes and that exceptions and
stores keep holds in every state of a run. -/
theorem run_keeps {P : Labels → KState → Prop} (hK : Loadable K)
    (hboot : ∀ label s, Booted K label s → P label s)
    (hquiet : ∀ label s s', Quiet s s' → P label s → P label s')
    (hstep : ∀ reg label label' s s₁ s₂ out, allow s reg →
      Handling K reg label label' s s₁ s₂ out → P label s₁ → P label' s₂)
    (hstore : ∀ label s m, KInv K label s → TablesKept label s m → P label s →
      P label { s with mem := m })
    (R : Run K allow out) : ∃ label, KInv K label out.state ∧ P label out.state ∧
      ∀ s, out = .user s → Executing K label s := by
  obtain ⟨label,s,B,X,-,C⟩ := R.split hK
  refine continues_keeps X (hboot label s B) ?_ ?_ C
  · intro reg label label' t s₁ s₂ out hallow X H hP
    exact hquiet label' _ _ (Leaves.quiet H.leaves).1
      (hstep _ _ _ _ _ _ _ hallow H (hquiet label _ _ H.entered.quiet hP))
  · intro label t m va c X _ T hP
    exact hstore label t m X.inv T hP

/-- The invariant holds in every state of a run. -/
theorem run_inv (hK : Loadable K) (R : Run K allow out) : ∃ label, KInv K label out.state ∧
    ∀ s, out = .user s → Executing K label s := by
  obtain ⟨label,I,-,hx⟩ := run_keeps (P := fun _ _ => True) hK (fun _ _ _ => trivial)
    (fun _ _ _ _ _ => trivial) (fun _ _ _ _ _ _ _ _ _ _ => trivial)
    (fun _ _ _ _ _ _ => trivial) R
  exact ⟨label,I,hx⟩

theorem run_executing (hK : Loadable K) (R : Run K allow (.user s)) :
    ∃ label, Executing K label s := by
  obtain ⟨label,-,hx⟩ := run_inv hK R
  exact ⟨label,hx s rfl⟩

/-- The kernel handles an exception of a run and has done its checks. -/
structure Call (K : KernelImage) (allow : KState → x86_64_registers → Prop)
    (reg : x86_64_registers) (s s₁ : KState) : Prop where
  run : Run K allow (.user s)
  enter : exception_enter K reg s = .ok s₁

theorem Call.inv (C : Call K allow reg s s₁) (hK : Loadable K) : ∃ label, Executing K label s ∧
    Entered reg s s₁ ∧ (Inspected reg → KernelMapped K s₁) ∧ KInv K label s₁ := by
  obtain ⟨label,X⟩ := run_executing hK C.run
  obtain ⟨hmapped,E⟩ := exception_enter_cases X.inv C.enter
  exact ⟨label,X,E,fun h => (hmapped h).quiet E.quiet,entered_inv X E⟩

end Reachable

end WeensyOS.Runs
