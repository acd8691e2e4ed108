import WeensyOS.HeapRuns
import WeensyOS.ForkRuns

/-!
# The assertions of p-fork.c

Three copies of the first process come into being, by two calls of `sys_fork`
each; what the calls return says who is who. With memory for the forks the
assertions hold in every interleaving.
-/

set_option autoImplicit false

namespace WeensyOS.ForkAsserts
open WeensyOS.FlatMemory WeensyOS.KernelState WeensyOS.PageTables WeensyOS.PageAllocator
open WeensyOS.Exceptions WeensyOS.Boot WeensyOS.TableWords WeensyOS.FreePages
open WeensyOS.PagingInvariant WeensyOS.KernelInvariant WeensyOS.KernelSteps
open WeensyOS.ForkResult WeensyOS.AllocResult WeensyOS.Isolation WeensyOS.BootResult
open WeensyOS.BootRun WeensyOS.Effects WeensyOS.Runs WeensyOS.PrivateRuns WeensyOS.FreshPages
open WeensyOS.SelfChecks WeensyOS.Exhaustion
open WeensyOS.TransitionSystems WeensyOS.TimeSharing WeensyOS.MachineView WeensyOS.Refinement
open WeensyOS.UserPrograms WeensyOS.HeapRuns WeensyOS.ForkRuns

/-- Forks find a page for each page they copy. -/
def ForksFunded (K : KernelImage) : KState → x86_64_registers → Prop := fun s reg =>
  reg.reg_intno = INT_SYS_FORK → ∀ t, exception_enter K reg s = .ok t → forkNeeds t ≤ freeCount t

/-- How many processes a process will be once its forks are done. -/
def copies (q : Program) : ℕ :=
  match q.point with
  | .firstFork => 4
  | .firstAssert => 2
  | .secondFork => 2
  | _ => 1

/-- The slots that hold a process. -/
def usedOf (s : KState) (pid : ℕ) : Bool := (taskOf s pid).isSome

def weight (used : ℕ → Bool) (P : Programs) : ℕ :=
  ∑ pid ∈ Finset.range NPROC, if used pid then copies (P pid) else 0

variable {K : KernelImage} {allow : KState → x86_64_registers → Prop} {no_slowdown : Bool}
  {label : Labels} {s s' : KState} {P P' : Programs} {q : Program} {out : Outcome} {pid j : ℕ}
  {reg : x86_64_registers} {used : ℕ → Bool} {n : ℕ}

/-- What a process of p-fork.c knows of its forks. -/
def Knows (used : ℕ → Bool) (pid : ℕ) (q : Program) : Prop :=
  match q.point with
  | .firstFork => pid = 1
  | .firstAssert | .secondFork =>
    (pid = 1 ∧ ∃ j : ℕ, 0 < j ∧ q.p1 = j ∧ used j) ∨ (pid ≠ 1 ∧ q.p1 = 0)
  | .secondAssert | .forkedAssert => 0 ≤ q.p2 ∧ q.forksFit pid
  | .assertFail => False
  | _ => True

/-- The processes and what they know. -/
structure Sane (n : ℕ) (used : ℕ → Bool) (P : Programs) : Prop where
  room : weight used P ≤ n ∧ n < NPROC
  first : used 1
  knows : ∀ pid, used pid → Knows used pid (P pid)

section Weights

theorem sum_le_pair {n a b : ℕ} {f g : ℕ → ℕ} (hab : a ≠ b) (ha : a < n) (hb : b < n)
    (hpair : g a+g b ≤ f a+f b) (hother : ∀ i, i ≠ a → i ≠ b → g i ≤ f i) :
    ∑ i ∈ Finset.range n, g i ≤ ∑ i ∈ Finset.range n, f i := by
  have hsplit : ∀ h : ℕ → ℕ, ∑ i ∈ Finset.range n, h i =
      h a+(h b+∑ i ∈ ((Finset.range n).erase a).erase b, h i) := fun h => by
    rw [Finset.add_sum_erase _ _ (Finset.mem_erase.2 ⟨hab.symm,Finset.mem_range.2 hb⟩),
      Finset.add_sum_erase _ _ (Finset.mem_range.2 ha)]
  have hrest : ∑ i ∈ ((Finset.range n).erase a).erase b, g i ≤
      ∑ i ∈ ((Finset.range n).erase a).erase b, f i := by
    refine Finset.sum_le_sum fun i hi => ?_
    obtain ⟨hb',hi⟩ := Finset.mem_erase.1 hi
    exact hother i (Finset.mem_erase.1 hi).1 hb'
  rw [hsplit g, hsplit f]
  omega

theorem copies_pos (q : Program) : 1 ≤ copies q := by
  rw [copies]
  split <;> omega

theorem weight_le (h : ∀ pid, used pid → copies (P' pid) ≤ copies (P pid)) :
    weight used P' ≤ weight used P := by
  refine Finset.sum_le_sum fun pid _ => ?_
  by_cases hs : used pid = true
  · rw [if_pos hs, if_pos hs]
    exact h pid hs
  · rw [if_neg hs]
    exact Nat.zero_le _

/-- A process divides its copies with a child. -/
theorem weight_fork {i : ℕ} (hi : i < NPROC) (hj : j < NPROC) (hused : used i = true)
    (hfree : used j = false) (hother : ∀ k, k ≠ i → used k → P' k = P k)
    (hcopies : copies (P' i)+copies (P' j) ≤ copies (P i)) :
    weight (Function.update used j true) P' ≤ weight used P := by
  have hij : i ≠ j := by
    rintro rfl
    rw [hused] at hfree
    cases hfree
  refine sum_le_pair hij hi hj ?_ fun k hki hkj => ?_
  · rw [Function.update_of_ne hij, Function.update_self, hused, hfree]
    exact hcopies
  · rw [Function.update_of_ne hkj]
    by_cases hk : used k = true
    · rw [hother k hki hk]
    · rw [if_neg hk]
      exact Nat.zero_le _

/-- There is a free slot for a process that is to fork. -/
theorem slot_left {i : ℕ} (hroom : weight used P < NPROC) (hi : Slot i)
    (hcopies : 2 ≤ copies (P i)) : ∃ j, Slot j ∧ used j = false := by
  by_contra hnone
  have hall : ∀ j, Slot j → used j := fun j hj => by
    by_contra h
    exact hnone ⟨j,hj,Bool.eq_false_iff.2 h⟩
  have hone : ∀ j ∈ (Finset.range NPROC).erase 0, 1+(if i = j then 1 else 0) ≤
      if used j then copies (P j) else 0 := fun j hj => by
    obtain ⟨hpos,hlt⟩ := Finset.mem_erase.1 hj
    rw [if_pos (hall j ⟨by omega,Finset.mem_range.1 hlt⟩)]
    by_cases h : i = j
    · rw [if_pos h]
      exact h ▸ hcopies
    · rw [if_neg h]
      exact copies_pos (P j)
  have hmem : i ∈ (Finset.range NPROC).erase 0 :=
    Finset.mem_erase.2 ⟨hi.1.ne',Finset.mem_range.2 hi.2⟩
  have hsum := Finset.sum_le_sum hone
  rw [Finset.sum_add_distrib, Finset.sum_ite_eq, if_pos hmem] at hsum
  have hcard : ∑ j ∈ (Finset.range NPROC).erase 0, 1 = 15 := by decide
  have hsub : ∑ j ∈ (Finset.range NPROC).erase 0, (if used j then copies (P j) else 0) ≤
      weight used P := Finset.sum_le_sum_of_subset (Finset.erase_subset 0 (Finset.range NPROC))
  simp only [NPROC] at *
  omega

end Weights

section Knowledge

variable {q' : Program} {intno : UInt64} {rdi : Option ℕ} {k : ℤ → Program}

theorem Knows.mono {used' : ℕ → Bool} (h : Knows used pid q) (hused : ∀ j, used j → used' j) :
    Knows used' pid q := by
  have hforked : (pid = 1 ∧ ∃ j : ℕ, 0 < j ∧ q.p1 = j ∧ used j) ∨ (pid ≠ 1 ∧ q.p1 = 0) →
      (pid = 1 ∧ ∃ j : ℕ, 0 < j ∧ q.p1 = j ∧ used' j) ∨ (pid ≠ 1 ∧ q.p1 = 0) :=
    Or.imp_left fun ⟨hpid,j,hpos,hp1,hj⟩ => ⟨hpid,j,hpos,hp1,hused j hj⟩
  cases hpoint : q.point
  all_goals simp only [Knows, hpoint] at h ⊢
  case firstFork => exact h
  case firstAssert => exact hforked h
  case secondFork => exact hforked h
  case secondAssert => exact h
  case forkedAssert => exact h

theorem compute_knows (h : q.next no_slowdown = .compute q') (hk : Knows used pid q) :
    copies q' ≤ copies q ∧ Knows used pid q' := by
  have h' := h
  cases hpoint : q.point
  all_goals simp only [Program.next, hpoint, Deed.compute.injEq, reduceCtorEq] at h
  all_goals simp only [Knows, hpoint] at hk
  case firstAssert =>
    have hpos : q.p1 ≥ 0 := by
      rcases hk with ⟨-,j,-,hj,-⟩ | ⟨-,hz⟩ <;> omega
    rw [if_pos hpos] at h
    rw [← h]
    simp only [copies, hpoint, Knows]
    exact ⟨le_refl _,hk⟩
  case secondAssert =>
    rw [if_pos hk.1] at h
    rw [← h]
    simp only [copies, hpoint, Knows]
    exact ⟨le_refl _,hk⟩
  case loop =>
    obtain ⟨hs,-⟩ | ⟨-,x,random,rfl,hx⟩ := next_compute h'
    · rw [Started, hpoint] at hs
      exact absurd (by decide) hs
    · rcases hx with rfl | ⟨rfl,-⟩ | ⟨rfl,-⟩
      all_goals simp only [copies, hpoint, Knows]
      all_goals exact ⟨le_refl _,trivial⟩

theorem store_knows {va : ℕ} {c : UInt8} (h : q.next no_slowdown = .store va c q') :
    copies q' ≤ copies q ∧ Knows used pid q' := by
  obtain ⟨hpoint,-,-,rfl⟩ := next_store h
  simp only [copies, hpoint, Knows]
  exact ⟨le_refl _,trivial⟩

/-- A call that is no fork, with its result. -/
theorem call_knows (h : q.next no_slowdown = .call intno rdi k) (hk : Knows used pid q)
    (hno : intno ≠ INT_SYS_FORK) {r : ℤ} (hr : intno = INT_SYS_GETPID → r = pid) :
    copies (k r) ≤ copies q ∧ Knows used pid (k r) := by
  cases hpoint : q.point
  all_goals simp only [Program.next, hpoint, Deed.call.injEq, reduceCtorEq] at h
  all_goals obtain ⟨rfl,rfl,rfl⟩ := h
  all_goals simp only [Knows, hpoint] at hk
  case firstFork => exact absurd rfl hno
  case secondFork => exact absurd rfl hno
  case forkedAssert =>
    have hfit : q.forksFit r := (hr rfl) ▸ hk.2
    simp only [if_pos hfit, copies, hpoint, Knows]
    exact ⟨le_refl _,trivial⟩
  case start =>
    simp only [copies, hpoint, Knows, Program.started]
    exact ⟨le_refl _,trivial⟩
  case request =>
    by_cases hneg : r < 0
    · simp only [if_pos hneg, copies, hpoint, Knows]
      exact ⟨le_refl _,trivial⟩
    · simp only [if_neg hneg, copies, hpoint, Knows]
      exact ⟨le_refl _,trivial⟩
  case pause =>
    simp only [copies, hpoint, Knows]
    exact ⟨le_refl _,trivial⟩
  case done =>
    simp only [hpoint, Knows]
    exact ⟨le_refl _,trivial⟩

/-- A fork, in the parent and in the child. -/
theorem fork_knows (h : q.next no_slowdown = .call INT_SYS_FORK rdi k) (hk : Knows used pid q)
    (hj : 0 < j) (hone : j ≠ 1) (hfree : used j = false) :
    copies (k j)+copies (k 0) ≤ copies q ∧ Knows (Function.update used j true) pid (k j) ∧
      Knows (Function.update used j true) j (k 0) := by
  have hself : Function.update used j true j = true := Function.update_self ..
  cases hpoint : q.point
  all_goals simp only [Program.next, hpoint, Deed.call.injEq, reduceCtorEq] at h
  case firstFork =>
    obtain ⟨-,-,rfl⟩ := h
    simp only [Knows, hpoint] at hk
    simp only [copies, hpoint, Knows]
    exact ⟨le_refl _,Or.inl ⟨hk,j,hj,rfl,hself⟩,Or.inr ⟨hone,trivial⟩⟩
  case secondFork =>
    obtain ⟨-,-,rfl⟩ := h
    simp only [Knows, hpoint] at hk
    simp only [copies, hpoint, Knows, Program.forksFit]
    refine ⟨le_refl _,⟨by omega,?_⟩,le_refl _,?_⟩
    · rcases hk with ⟨rfl,i,hi,hp1,hused⟩ | ⟨hne,hp1⟩
      · have hij : i ≠ j := by
          rintro rfl
          rw [hfree] at hused
          cases hused
        rw [if_pos (by rfl)]
        omega
      · rw [if_neg (by omega)]
        exact Or.inl hp1
    · rw [if_neg (by omega)]
      exact Or.inr trivial
  all_goals exact absurd h.1 (by decide)

theorem fork_copies (h : q.next no_slowdown = .call INT_SYS_FORK rdi k) : 2 ≤ copies q := by
  cases hpoint : q.point
  all_goals simp only [Program.next, hpoint, Deed.call.injEq, reduceCtorEq] at h
  case firstFork => simp only [copies, hpoint]; decide
  case secondFork => simp only [copies, hpoint]; decide
  all_goals exact absurd h.1 (by decide)

end Knowledge

section Forks

/-- A fork that finds its pages fails only when there is no slot. -/
theorem fork_answer (X : Executing K label s) (hno : reg.reg_intno = INT_SYS_FORK)
    (hfund : ForksFunded K s reg) (h : exception K reg s = .ok out) :
    0 < resultOf out.state s.current ∨ ∀ j, Slot j → usedOf s j := by
  obtain ⟨label',s₁,s₂,H⟩ := exception_cases X h
  have hcount := hfund hno s₁ H.enter
  have hcur : s₂.current = s₁.current := (H.effect.change H.inv.current_live).choose_spec.2.2
  have hrun : (s₂.processes s₂.current).p_state = .P_RUNNABLE := by
    rw [hcur, H.effect.state_kept H.inv (by rw [hno]; decide)]
    exact entered_runnable X H.entered
  obtain rfl := H.back (by rw [Switches, hno]; decide) hrun
  have E := H.effect
  cases E with
  | getpid h' => exact absurd (hno.symm.trans h') (by decide)
  | yield h' => exact absurd (hno.symm.trans h') (by decide)
  | timer h' => exact absurd (hno.symm.trans h') (by decide)
  | fault h' _ => exact absurd (hno.symm.trans h') (by decide)
  | refused h' _ => exact absurd (hno.symm.trans h') (by decide)
  | alloc h' _ _ _ _ => exact absurd (hno.symm.trans h') (by decide)
  | noSlot _ hslot =>
    refine Or.inr fun j hj => ?_
    rw [usedOf, Option.isSome_iff_ne_none, ne_eq, taskOf_none_iff hj.2]
    intro hfree
    exact free_slot_none hslot j hj (((H.entered.quiet.procs j).1).2 hfree)
  | rootless _ _ hfree =>
    rw [forkNeeds, (freeCount_eq_zero s₁).2 hfree] at hcount
    omega
  | unfinished _ _ _ hshort _ => omega
  | @forked i r label' t _ hslot hcount F C =>
    left
    have hi := (free_slot_some hslot).1
    have hne := slot_ne_current H.inv hslot
    have hres : result ((t.setRax s₁.current i).setRax i 0) = toRegister i :=
      result_forked F.current hne
    have hcur' : ((t.setRax s₁.current i).setRax i 0).current = s.current :=
      F.current.trans H.entered.current
    rw [result, hcur'] at hres
    obtain ⟨hpos,hlt⟩ := hi
    simp only [NPROC] at hlt
    have hvalue : resultOf ((t.setRax s₁.current i).setRax i 0) s.current = i := by
      rw [resultOf, hres]
      exact register_result (Or.inr ⟨by omega,by omega⟩)
    have hsame : resultOf (Outcome.user (resumed ((t.setRax s₁.current i).setRax i 0)
        ((t.setRax s₁.current i).setRax i 0).current)).state s.current = i := hvalue
    rw [hsame]
    omega

/-- What an exception makes of the tasks, with the answer. -/
theorem exception_after (hK : Loadable K) (R : Run K InWindow (.user s)) (hwin : InWindow s reg)
    (h : exception K reg s = .ok out) : ∃ r t t', taskOf s s.current = some t ∧
      t.perform weensy s.current (.call reg,r) = some t' ∧
      Admissible NPROC (machineOf (.user s)) t r ∧
      taskOf out.state = place (born weensy t (.call reg) r)
        (Function.update (taskOf s) s.current (some t')) ∧
      taskOf out.state s.current = some t' := by
  obtain ⟨label,-,S,hx⟩ := run_isolated hK R
  obtain ⟨r,hstep⟩ := exception_event (hx s rfl) S hwin h
  generalize hm : machineOf out = m at hstep
  cases hstep with
  | @event _ _ t t' _ _ hrun htask hact hfit =>
    have htasks := congrArg Machine.tasks hm
    have hself := (congrFun htasks s.current).trans (after_self htask hfit)
    rw [after_tasks] at htasks
    exact ⟨r,t,t',htask,hact,hfit,htasks,hself⟩

end Forks

section Runs

theorem sane_local (S : Sane n used P) {i : ℕ} {q' : Program}
    (h : used i → copies q' ≤ copies (P i) ∧ Knows used i q') :
    Sane n used (Function.update P i q') where
  room := by
    refine ⟨(weight_le fun pid hused => ?_).trans S.room.1,S.room.2⟩
    by_cases hpid : pid = i
    · subst hpid
      rw [Function.update_self]
      exact (h hused).1
    · rw [Function.update_of_ne hpid]
  first := S.first
  knows pid hused := by
    by_cases hpid : pid = i
    · subst hpid
      rw [Function.update_self]
      exact (h hused).2
    · rw [Function.update_of_ne hpid]
      exact S.knows pid hused

theorem usedOf_eq (s : KState) (pid : ℕ) :
    usedOf s pid = decide (pid < NPROC ∧ (s.processes pid).p_state ≠ .P_FREE) := by
  by_cases hp : pid < NPROC ∧ (s.processes pid).p_state ≠ .P_FREE
  · rw [usedOf, taskOf_used hp.1 hp.2, decide_eq_true hp, Option.isSome_some]
  · rw [usedOf, taskOf, if_neg hp, decide_eq_false hp, Option.isSome_none]

theorem store_used (X : Executing K label s) {va : ℕ} {c : UInt8}
    (h : user_store va c s = some s') : usedOf s' = usedOf s := by
  obtain ⟨m,rfl,-⟩ := store_tables X h
  funext pid
  rw [usedOf_eq, usedOf_eq]

theorem place_used {r : KernelResponse} {t t' : Process} (ht : taskOf s s.current = some t)
    (h : taskOf out.state = place (born weensy t (.call reg) r)
      (Function.update (taskOf s) s.current (some t'))) :
    usedOf out.state = match born weensy t (.call reg) r with
      | some (j,_) => Function.update (usedOf s) j true
      | none => usedOf s := by
  have hself : ∀ pid, ((Function.update (taskOf s) s.current (some t')) pid).isSome =
      usedOf s pid := fun pid => by
    by_cases hpid : pid = s.current
    · rw [hpid, Function.update_self, usedOf, ht]
      rfl
    · rw [Function.update_of_ne hpid, usedOf]
  cases hb : born weensy t (.call reg) r with
  | none =>
    rw [hb] at h
    funext pid
    rw [usedOf, h]
    exact hself pid
  | some x =>
    obtain ⟨j,u⟩ := x
    rw [hb] at h
    funext pid
    simp only [usedOf, h, place]
    by_cases hpid : pid = j
    · rw [hpid, Function.update_self, Function.update_self]
      rfl
    · rw [Function.update_of_ne hpid, Function.update_of_ne hpid]
      exact hself pid

theorem getpid_result {t t' : Process} {r : KernelResponse} (hpid : pid < NPROC)
    (hno : reg.reg_intno = INT_SYS_GETPID) (h : t.perform weensy pid (.call reg,r) = some t') :
    toInt32 t'.registers.reg_rax.toNat = pid := by
  simp only [NPROC] at hpid
  rw [Task.perform_call (requestOf_getpid hno)] at h
  cases r <;> cases h
  exact register_result (Or.inr ⟨by omega,by omega⟩)

/-- A call that succeeds as a fork has a child. -/
theorem fork_child {t t' : Process} {r : KernelResponse} (hno : reg.reg_intno = INT_SYS_FORK)
    (h : t.perform weensy pid (.call reg,r) = some t')
    (hpos : 0 < toInt32 t'.registers.reg_rax.toNat) : ∃ j, r = .child j := by
  have hfailed : ¬0 < toInt32 (weensy.answer reg (-1)).reg_rax.toNat := by
    rw [show toInt32 (weensy.answer reg (-1)).reg_rax.toNat = -1 from
      register_result (Or.inl rfl)]
    decide
  rw [Task.perform_call (requestOf_fork hno)] at h
  cases r with
  | child j => exact ⟨j,rfl⟩
  | full =>
    cases h
    exact absurd hpos hfailed
  | abandoned j space =>
    cases h
    exact absurd hpos hfailed
  | done => cases h
  | refused => cases h
  | page contents => cases h

theorem fork_intno (h : requestOf reg = some .fork) : reg.reg_intno = INT_SYS_FORK := by
  rw [requestOf] at h
  split at h
  · cases h
  split at h
  · cases h
  split at h
  · assumption
  split at h
  · cases h
  split at h
  · obtain ⟨x,-,hx⟩ := Option.bind_eq_some_iff.1 h
    obtain ⟨p,-,hp⟩ := Option.map_eq_some_iff.1 hx
    cases hp
  · cases h

/-- Without a fork the processes are the same. -/
theorem no_child {t t' : Process} {r : KernelResponse} (hno : reg.reg_intno ≠ INT_SYS_FORK)
    (ht : taskOf s s.current = some t) (hact : t.perform weensy s.current (.call reg,r) = some t')
    (h : taskOf out.state = place (born weensy t (.call reg) r)
      (Function.update (taskOf s) s.current (some t'))) : usedOf out.state = usedOf s := by
  rw [place_used ht h]
  cases hb : born weensy t (.call reg) r with
  | none => rfl
  | some x => exact absurd (fork_intno (born_fork hact hb)) hno

/-- Only the programs of the processes matter. -/
theorem Sane.congr (S : Sane n used P) (h : ∀ pid, used pid → P' pid = P pid) : Sane n used P' where
  room := ⟨(weight_le fun pid hused => (congrArg copies (h pid hused)).le).trans S.room.1,S.room.2⟩
  first := S.first
  knows pid hused := by
    rw [h pid hused]
    exact S.knows pid hused

theorem result_task {t : Process} (h : taskOf s pid = some t) :
    resultOf s pid = toInt32 t.registers.reg_rax.toNat := by
  obtain ⟨hpid,hused⟩ := task_slot h
  rw [taskOf_used hpid hused, Option.some.injEq] at h
  rw [← h]
  rfl

theorem used_state (h : usedOf s pid) : pid < NPROC ∧ (s.processes pid).p_state ≠ .P_FREE := by
  rw [usedOf_eq] at h
  exact of_decide_eq_true h

/-- The programs of the other processes are not touched. -/
theorem returned_other {k : ℤ → Program} (hne : pid ≠ s.current) (h : usedOf s pid) :
    returned P s k out pid = P pid := by
  rw [returned, if_neg]
  rintro (hpid | ⟨hfree,-⟩)
  · exact hne hpid
  · exact (used_state h).2 hfree

theorem sane_call {k : ℤ → Program} {rdi : Option ℕ} {t t' : Process} {r : KernelResponse}
    (S : Sane n (usedOf s) P) (hq : (P s.current).next no_slowdown = .call reg.reg_intno rdi k)
    (hno : reg.reg_intno ≠ INT_SYS_FORK) (hcur : s.current < NPROC)
    (ht : taskOf s s.current = some t) (hact : t.perform weensy s.current (.call reg,r) = some t')
    (hafter : taskOf out.state = place (born weensy t (.call reg) r)
      (Function.update (taskOf s) s.current (some t')))
    (hself : taskOf out.state s.current = some t') :
    Sane n (usedOf out.state) (returned P s k out) := by
  rw [no_child hno ht hact hafter]
  have hlocal : Sane n (usedOf s)
      (Function.update P s.current (k (resultOf out.state s.current))) :=
    sane_local S fun hused => call_knows hq (S.knows _ hused) hno fun hgetpid => by
      rw [result_task hself]
      exact getpid_result hcur hgetpid hact
  refine hlocal.congr fun pid hused => ?_
  by_cases hpid : pid = s.current
  · rw [hpid, Function.update_self, returned, if_pos (Or.inl rfl)]
  · rw [Function.update_of_ne hpid, returned_other hpid hused]

theorem sane_fork {k : ℤ → Program} {rdi : Option ℕ} {t t' : Process} {r : KernelResponse}
    (X : Executing K label s) (S : Sane n (usedOf s) P)
    (hq : (P s.current).next no_slowdown = .call INT_SYS_FORK rdi k)
    (hno : reg.reg_intno = INT_SYS_FORK) (hfund : ForksFunded K s reg)
    (h : exception K reg s = .ok out)
    (ht : taskOf s s.current = some t) (hact : t.perform weensy s.current (.call reg,r) = some t')
    (hfit : Admissible NPROC (machineOf (.user s)) t r)
    (hafter : taskOf out.state = place (born weensy t (.call reg) r)
      (Function.update (taskOf s) s.current (some t')))
    (hself : taskOf out.state s.current = some t') :
    Sane n (usedOf out.state) (returned P s k out) := by
  have hcur : usedOf s s.current := by
    rw [usedOf, ht, Option.isSome_some]
  have hknows := S.knows _ hcur
  have hcopies : 2 ≤ copies (P s.current) := fork_copies hq
  obtain ⟨i,hi,hfree⟩ := slot_left (S.room.1.trans_lt S.room.2) X.inv.current_slot hcopies
  -- A slot is free, so the answer is a child.
  have hpos : 0 < resultOf out.state s.current := by
    rcases fork_answer X hno hfund h with h | h
    · exact h
    · rw [h i hi] at hfree
      cases hfree
  rw [result_task hself] at hpos
  obtain ⟨j,rfl⟩ := fork_child hno hact hpos
  obtain ⟨hj,hlt,hnone,-⟩ := hfit
  have hj' : usedOf s j = false := by
    rw [usedOf, show taskOf s j = none from hnone, Option.isSome_none]
  have hne : j ≠ s.current := by
    rintro rfl
    rw [hj'] at hcur
    cases hcur
  have hone : j ≠ 1 := by
    rintro rfl
    rw [S.first] at hj'
    cases hj'
  have hused := place_used ht hafter
  simp only [born] at hused hafter
  have hchild : taskOf out.state j = some ⟨weensy.answer reg 0,true,t.space⟩ := by
    rw [hafter, place, Function.update_self]
  have hparent : resultOf out.state s.current = j := by
    rw [Task.perform_call (requestOf_fork hno)] at hact
    cases hact
    rw [result_task hself]
    simp only [NPROC] at hlt
    exact register_result (Or.inr ⟨by omega,by omega⟩)
  have hzero : resultOf out.state j = 0 := by
    rw [result_task hchild]
    exact register_result (Or.inr ⟨by omega,by omega⟩)
  have hprog : returned P s k out s.current = k j := by
    rw [returned, if_pos (Or.inl rfl), hparent]
  have hprog' : returned P s k out j = k 0 := by
    have hstates := (used_state (show usedOf out.state j from by
      rw [usedOf, hchild, Option.isSome_some])).2
    rw [returned, if_pos (Or.inr ⟨(taskOf_none_iff hlt).1 hnone,hstates⟩), hzero]
  obtain ⟨hle,hk,hk'⟩ := fork_knows hq hknows hj hone hj'
  rw [hused]
  refine ⟨⟨(weight_fork X.inv.current_slot.2 hlt hcur hj'
    (fun pid hpid hpid' => returned_other hpid hpid') ?_).trans S.room.1,S.room.2⟩,?_,
    fun pid hpid => ?_⟩
  · rw [hprog, hprog']
    exact hle
  · rw [Function.update_of_ne hone.symm]
    exact S.first
  · by_cases hself' : pid = s.current
    · rw [hself', hprog]
      exact hk
    by_cases hchild' : pid = j
    · rw [hchild', hprog']
      exact hk'
    · rw [Function.update_of_ne hchild'] at hpid
      rw [returned_other hself' hpid]
      refine (S.knows pid hpid).mono fun i hi => ?_
      by_cases hij : i = j
      · rw [hij, Function.update_self]
      · rw [Function.update_of_ne hij]
        exact hi

theorem sane_step (hK : Loadable K) {x x' : Outcome × Programs} {e : Option (ℕ × UserAction)}
    (U : UserInv K (ForksFunded K) x) (S : Sane n (usedOf x.1.state) x.2)
    (h : UserMove K (ForksFunded K) no_slowdown x e x') : Sane n (usedOf x'.1.state) x'.2 := by
  obtain ⟨label,-,-,hx⟩ := run_isolated hK U.window
  cases h with
  | @compute s P q hq => exact sane_local S fun hused => compute_knows hq (S.knows _ hused)
  | @scratch s s' P va c hva h =>
    have hsame := store_used (hx s rfl) h
    exact (congrArg (fun used => Sane n used P) hsame).mpr S
  | @store s s' P va c q hq h =>
    have hsame := store_used (hx s rfl) h
    exact (congrArg (fun used => Sane n used _) hsame).mpr (sane_local S fun _ => store_knows hq)
  | @call s P intno rdi k reg out hq hno hrdi hallow h =>
    have C := next_call hq
    rw [← hno] at C
    have X := hx s rfl
    have hcur := X.inv.current_slot
    have ht₀ := taskOf_used hcur.2 X.inv.current_live.1
    have hwin := call_in_window (s := s) (U.good _ _ ht₀) C hrdi
    obtain ⟨r,t,t',ht,hact,hfit,hafter,hself⟩ := exception_after hK U.window hwin h
    by_cases hfork : reg.reg_intno = INT_SYS_FORK
    · rw [← hno, hfork] at hq
      exact sane_fork X S hq hfork hallow h ht hact hfit hafter hself
    · exact sane_call S (hno ▸ hq) hfork hcur.2 ht hact hafter hself
  | @interrupt s P reg out hno hallow h =>
    have hwin : InWindow s reg := fun halloc => by
      rw [halloc] at hno
      rcases hno with h | ⟨h,-⟩ <;> exact absurd h (by decide)
    have hfork : reg.reg_intno ≠ INT_SYS_FORK := fun hfork => by
      rw [hfork] at hno
      rcases hno with h | ⟨h,-⟩ <;> exact absurd h (by decide)
    obtain ⟨r,t,t',ht,hact,-,hafter,-⟩ := exception_after hK U.window hwin h
    have hsame := no_child hfork ht hact hafter
    exact (congrArg (fun used => Sane n used P) hsame).mpr S

/-- The processes with which the kernel starts: only the first forks, and there is room. -/
structure Launched (s : KState) (P : Programs) : Prop where
  starting : Starting s P
  forker : ∀ pid < NPROC, (s.processes pid).p_state ≠ .P_FREE → (P pid).point = .firstFork → pid = 1
  room : weight (usedOf s) P < NPROC

theorem launched_sane {command : Option String} (hK : Loadable K)
    (h : kernel K command s' = .ok (.user s)) (L : Launched s P) :
    Sane (weight (usedOf s) P) (usedOf s) P where
  room := ⟨le_refl _,L.room⟩
  first := by
    obtain ⟨label,t,ht,B,-⟩ := kernel_ok hK h
    cases ht
    have hlive := B.inv.current_live
    rw [B.current] at hlive
    rw [usedOf_eq]
    exact decide_eq_true ⟨by decide,hlive.1⟩
  knows pid hused := by
    obtain ⟨hlt,hstate⟩ := used_state hused
    rcases (L.starting pid hlt hstate).1.point with hpoint | hpoint
    · simp only [Knows, hpoint]
    · simp only [Knows, hpoint]
      exact L.forker pid hlt hstate hpoint

/-- Process 1, which has not forked yet. -/
def sampleForker : Program := { sampleProgram 0x102000 with point := .firstFork }

theorem sample_used (S : Solo K label s) (hcur : s.current = 1) :
    usedOf s = fun pid => decide (pid = 1) := by
  funext pid
  have I := S.sound.inv
  have hlive := I.current_live.1
  rw [hcur] at hlive
  rw [usedOf_eq, decide_eq_decide]
  constructor
  · rintro ⟨hlt,hused⟩
    by_contra hne
    rcases Nat.eq_zero_or_pos pid with rfl | hpos
    · exact hused I.slot0
    · exact hused (S.alone pid ⟨hpos,hlt⟩ (hcur ▸ hne))
  · rintro rfl
    exact ⟨by decide,hlive⟩

/-- The first fork of process 1, with room for three more processes. -/
theorem sample_forks : ∃ s out P', kernel sampleKernel (some "fork") powerOn = .ok (.user s) ∧
    Launched s (fun _ => sampleForker) ∧ weight (usedOf s) (fun _ => sampleForker) = 4 ∧
    Runs (UserMove sampleKernel (ForksFunded sampleKernel) false) (.user s,fun _ => sampleForker)
      [some (1,.call (syscall INT_SYS_FORK 0))] (out,P') := by
  obtain ⟨label,s,hboot,S,hcur,-⟩ := sample_solo powerOn
  obtain ⟨label',s',t,i,hboot',henter,S',hslot,hcount⟩ := sample_fork
  obtain rfl : s' = s := Outcome.user.inj (Except.ok.inj (hboot'.symm.trans hboot))
  have hfund : ForksFunded sampleKernel s' (syscall INT_SYS_FORK 0) := fun _ t' ht' =>
    Except.ok.inj (ht'.symm.trans henter) ▸ hcount
  have hfour : 4 ≤ forkNeeds t := Nat.le_add_right 4 _
  obtain ⟨out,hout⟩ := exception_ok S.sound
    (⟨Or.inr (Or.inr (Or.inr (Or.inl rfl))),fun h => absurd h (by decide),fun _ t' ht' =>
      Except.ok.inj (ht'.symm.trans henter) ▸ fun _ _ => hfour.trans hcount⟩ :
      Supplied sampleKernel s' (syscall INT_SYS_FORK 0))
  have hweight : weight (usedOf s') (fun _ => sampleForker) = 4 := by
    rw [sample_used S hcur]
    decide
  have hmove : UserMove sampleKernel (ForksFunded sampleKernel) false
      (.user s',fun _ => sampleForker) (some (s'.current,.call (syscall INT_SYS_FORK 0))) (out,_) :=
    .call rfl rfl (fun a h => by cases h) hfund hout
  rw [hcur] at hmove
  refine ⟨s',out,_,hboot,⟨fun _ _ _ => ⟨⟨Or.inr rfl,rfl⟩,by decide,by decide,by decide⟩,
    fun pid hlt hused _ => ?_,?_⟩,hweight,.snoc .refl hmove⟩
  · have h := congrFun (sample_used S hcur) pid
    rw [usedOf_eq, decide_eq_true ⟨hlt,hused⟩] at h
    exact of_decide_eq_true h.symm
  · rw [hweight]
    decide

/-- In every interleaving in which forks find their pages, no assertion fails, and there are never
more processes than the forks were to make. -/
theorem asserts_hold (hK : Loadable K) {command : Option String}
    {l : List (Option (ℕ × UserAction))} (h : kernel K command s' = .ok (.user s))
    (L : Launched s P)
    (C : Runs (UserMove K (ForksFunded K) no_slowdown) (.user s,P) l (out,P')) :
    (∀ pid < NPROC, (out.state.processes pid).p_state ≠ .P_FREE → (P' pid).point ≠ .assertFail) ∧
      ((Finset.range NPROC).filter fun pid => (out.state.processes pid).p_state ≠ .P_FREE).card ≤
        weight (usedOf s) P := by
  have hall := (C.within
    (P := fun x => UserInv K (ForksFunded K) x ∧
      Sane (weight (usedOf s) P) (usedOf x.1.state) x.2)
    (fun _ _ _ I h => ⟨user_step hK I.1 h,sane_step hK I.1 I.2 h⟩)
    ⟨starting_inv h L.starting,launched_sane hK h L⟩).1
  have S := hall.2
  refine ⟨fun pid hlt hstate hpoint => ?_,le_trans ?_ S.room.1⟩
  · have hused : usedOf out.state pid := by
      rw [usedOf_eq]
      exact decide_eq_true ⟨hlt,hstate⟩
    have hknows := S.knows pid hused
    simp only [Knows, hpoint] at hknows
  · rw [Finset.card_filter]
    refine Finset.sum_le_sum fun pid hpid => ?_
    by_cases hstate : (out.state.processes pid).p_state ≠ .P_FREE
    · have hused : usedOf out.state pid := by
        rw [usedOf_eq]
        exact decide_eq_true ⟨Finset.mem_range.1 hpid,hstate⟩
      rw [if_pos hstate, if_pos hused]
      exact copies_pos _
    · rw [if_neg hstate]
      exact Nat.zero_le _

/-- The sample kernel stays within four processes. -/
theorem four_processes : ∃ out P', (∃ s, Runs
      (UserMove sampleKernel (ForksFunded sampleKernel) false) (.user s,fun _ => sampleForker)
      [some (1,.call (syscall INT_SYS_FORK 0))] (out,P')) ∧
    (∀ pid < NPROC, (out.state.processes pid).p_state ≠ .P_FREE → (P' pid).point ≠ .assertFail) ∧
      ((Finset.range NPROC).filter fun pid => (out.state.processes pid).p_state ≠ .P_FREE).card ≤
        4 := by
  obtain ⟨s,out,P',hboot,L,hweight,C⟩ := sample_forks
  obtain ⟨hall,hcard⟩ := asserts_hold sample_loadable hboot L C
  exact ⟨out,P',⟨s,C⟩,hall,hweight ▸ hcard⟩

end Runs

end WeensyOS.ForkAsserts
