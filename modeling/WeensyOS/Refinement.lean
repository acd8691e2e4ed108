import WeensyOS.MachineView
import WeensyOS.SavedRegisters

/-!
# The kernel refines the time-sharing machine

Every run in which processes ask only for pages of the user window is a run of
the machine: each exception and each store of user code is one of its events,
with a response that the machine may give. So a process develops as its own
actions and the responses it gets determine, whatever the others do.
-/

set_option autoImplicit false

namespace WeensyOS.Refinement
open WeensyOS.FlatMemory WeensyOS.KernelState WeensyOS.PageTables WeensyOS.PageAllocator
open WeensyOS.Exceptions WeensyOS.Boot WeensyOS.CheckedRuns WeensyOS.RadixForest WeensyOS.TableWords
open WeensyOS.FreePages WeensyOS.PagingInvariant WeensyOS.TableCopies WeensyOS.ForkCopies
open WeensyOS.KernelInvariant WeensyOS.KernelSteps WeensyOS.ForkResult WeensyOS.AllocResult
open WeensyOS.Isolation WeensyOS.ProgramLoading WeensyOS.BootResult WeensyOS.BootRun
open WeensyOS.Effects WeensyOS.Runs WeensyOS.PrivateRuns WeensyOS.FreshPages WeensyOS.KeptPages
open WeensyOS.Exhaustion WeensyOS.Scheduling WeensyOS.SavedRegisters WeensyOS.TransitionSystems
open WeensyOS.TimeSharing WeensyOS.MachineView

abbrev UserAction := Action ℕ x86_64_registers UInt8

abbrev KernelResponse := Response WindowPage PageOffset UInt8

/-- The moves of the kernel, each labelled with the process that executes and what it does. -/
inductive KernelMove (K : KernelImage) (allow : KState → x86_64_registers → Prop) :
    Moves Outcome (ℕ × UserAction) where
  | exception {s : KState} {reg : x86_64_registers} {out : Outcome} (hallow : allow s reg)
    (h : exception K reg s = .ok out) : KernelMove K allow (.user s) (s.current,.call reg) out
  | store {s s' : KState} {va : ℕ} {c : UInt8} (h : user_store va c s = some s') :
    KernelMove K allow (.user s) (s.current,.store va c) (.user s')

/-- An event of the machine without the response. -/
def action (e : ℕ × UserAction × KernelResponse) : ℕ × UserAction := (e.1,e.2.1)

/-- The steps of the machine on 16 slots. -/
abbrev MachineStep : Moves (Machine x86_64_registers WindowPage PageOffset UInt8)
    (ℕ × UserAction × KernelResponse) :=
  Step weensy NPROC

variable {K : KernelImage} {allow : KState → x86_64_registers → Prop} {label label' : Labels}
  {s s' t u : KState} {reg g : x86_64_registers} {i r f c pid : ℕ} {res : ℤ}
  {p : WindowPage} {out out' : Outcome}

section Requests

theorem requestOf_getpid (h : reg.reg_intno = INT_SYS_GETPID) :
    requestOf reg = some .identify :=
  if_pos h

theorem requestOf_switch (h : Switches reg) : requestOf reg = some .yield := by
  have hne : reg.reg_intno ≠ INT_SYS_GETPID := by
    rcases h with h | h <;> rw [h] <;> decide
  rw [requestOf, if_neg hne, if_pos h]

theorem requestOf_fork (h : reg.reg_intno = INT_SYS_FORK) : requestOf reg = some .fork := by
  rw [requestOf, h, if_neg (by decide), if_neg (by decide), if_pos rfl]

theorem requestOf_fault (h : reg.reg_intno = INT_PAGEFAULT) : requestOf reg = some .fault := by
  rw [requestOf, h, if_neg (by decide), if_neg (by decide), if_neg (by decide), if_pos rfl]

theorem requestOf_alloc (h : reg.reg_intno = INT_SYS_PAGE_ALLOC)
    (hpage : vpage reg.reg_rdi.toNat = 256+p) : requestOf reg = some (.grow p) := by
  rw [requestOf, h, if_neg (by decide), if_neg (by decide), if_neg (by decide),
    if_neg (by decide), if_pos rfl, locate_window p hpage]
  rfl

/-- Only a yield and the timer release the processor. -/
theorem releases_iff (reg : x86_64_registers) : weensy.releases (.call reg : UserAction) = true ↔
    Switches reg := by
  constructor
  · intro h
    by_contra hne
    simp only [Interface.releases, weensy, requestOf, if_neg hne] at h
    split at h
    · rename_i hyield
      split at hyield
      · cases hyield
      · split at hyield
        · cases hyield
        · split at hyield
          · cases hyield
          · split at hyield
            · rw [Option.bind_eq_some_iff] at hyield
              obtain ⟨x,-,hx⟩ := hyield
              rw [Option.map_eq_some_iff] at hx
              obtain ⟨q,-,hq⟩ := hx
              cases hq
            · cases hyield
    · cases h
  · intro h
    simp only [Interface.releases, weensy, requestOf_switch h]

end Requests

section Slots

variable {m : Machine x86_64_registers WindowPage PageOffset UInt8}
  (hfree : ∀ j < NPROC, m.tasks j = none ↔ (s.processes j).p_state = .P_FREE)
include hfree

theorem free_slot_vacant (h : free_slot s = some i) : Vacant NPROC m i := by
  obtain ⟨hi,hstate,hleast⟩ := free_slot_some h
  refine ⟨hi.1,hi.2,(hfree i hi.2).2 hstate,fun k hk hki hnone => ?_⟩
  exact hleast k hk hki ((hfree k (hki.trans hi.2)).1 hnone)

theorem free_slot_full (h : free_slot s = none) (j : ℕ) (hj : 0 < j) (hlt : j < NPROC) :
    m.tasks j ≠ none :=
  fun hnone => free_slot_none h j ⟨hj,hlt⟩ ((hfree j hlt).1 hnone)

end Slots

section Effects

/-- The task of the current process, with whatever registers. -/
abbrev caller (regs : x86_64_registers) (s : KState) : Process := ⟨regs,true,pagesOf s s.current⟩

/-- The current process after `reg_rax` has been set. -/
abbrev answered (reg : x86_64_registers) (s : KState) (v : ℤ) : Process :=
  ⟨weensy.answer reg v,true,pagesOf s s.current⟩

theorem update_congr {α : Type} {g h : ℕ → α} {j : ℕ} (x : α) (heq : ∀ k, k ≠ j → g k = h k) :
    Function.update g j x = Function.update h j x := by
  funext k
  by_cases hk : k = j
  · rw [hk, Function.update_self, Function.update_self]
  · rw [Function.update_of_ne hk, Function.update_of_ne hk, heq k hk]

variable (I : KInv K label s) (hreg : (s.processes s.current).p_registers = reg)
  (hrun : (s.processes s.current).p_state = .P_RUNNABLE)
include I hreg hrun

theorem answered_tasks (v : ℤ) : taskOf (s.setRax s.current v) =
    Function.update (taskOf s) s.current (some (answered reg s v)) := by
  rw [taskOf_setRax I.current_slot.2 I.current_live.1, hreg, decide_eq_true hrun]
  rfl

/-- A fork that has made a child and sets the result of its caller. -/
theorem parent_tasks {child : Process} (hi : i ≠ s.current)
    (hproc : t.processes s.current = s.processes s.current)
    (htasks : taskOf t = Function.update (taskOf s) i (some child)) (v : ℤ) :
    taskOf (t.setRax s.current v) = Function.update
      (Function.update (taskOf s) s.current (some (answered reg s v))) i (some child) := by
  have hused := I.current_live.1
  have hpages : pagesOf t s.current = pagesOf s s.current := by
    have h := congrFun htasks s.current
    rw [Function.update_of_ne hi.symm, taskOf_used I.current_slot.2 hused,
      taskOf_used I.current_slot.2 (by rw [hproc]; exact hused), Option.some.injEq,
      Task.mk.injEq] at h
    exact h.2.2
  rw [taskOf_setRax I.current_slot.2 (by rw [hproc]; exact hused), htasks, hproc, hreg, hpages,
    decide_eq_true hrun, Function.update_comm hi]
  rfl

variable (S : Isolated (rootsOf K s) label s)
  {m : Machine x86_64_registers WindowPage PageOffset UInt8}
  (hfree : ∀ j < NPROC, m.tasks j = none ↔ (s.processes j).p_state = .P_FREE)

include S in
theorem alloc_follows (A : Allocated K f res label label' c s t)
    (hno : reg.reg_intno = INT_SYS_PAGE_ALLOC) (hres : res = 0 ∨ res = -1)
    (hwin : 256 ≤ vpage (request s) ∧ vpage (request s) < 768) : ∃ r t',
    (caller g s).perform weensy s.current (.call reg,r) = some t' ∧ Admissible NPROC m
      (caller g s) r ∧ taskOf (t.setRax s.current res) =
      place (born weensy (caller g s) (.call reg) r)
        (Function.update (taskOf s) s.current (some t')) := by
  obtain ⟨p,hp⟩ := window_page hwin
  have hrequest : requestOf reg = some (.grow p) := by
    refine requestOf_alloc hno ?_
    rw [← hp, request, hreg]
  have hprocs := A.processes
  have htasks := taskOf_setRax (t := t) I.current_slot.2 (by rw [hprocs]; exact I.current_live.1) res
  rw [hprocs, hreg, decide_eq_true hrun,
    update_congr _ fun k hk => alloc_other_task I S A hk] at htasks
  rcases hres with rfl | rfl
  · refine ⟨.page (pageBytes s.mem (f*4096)),
      ⟨weensy.answer reg 0,true,pagesOf t s.current⟩,?_,trivial,htasks⟩
    rw [Task.perform_call hrequest, Task.serve, alloc_new_space I S A rfl hp]
  · have hpages : pagesOf t s.current = pagesOf s s.current := by
      funext q
      rw [alloc_pagesOf I S A I.current_slot.2 I.current_live.1,
        if_neg fun h => absurd h.1 (by decide)]
    refine ⟨.refused,answered reg s (-1),?_,trivial,?_⟩
    · rw [Task.perform_call hrequest]
      rfl
    · rw [htasks, hpages]
      rfl

include S hfree in
/-- Each effect is an event of the machine, up to the choice of the next process. -/
theorem effect_follows (E : Effect K reg label s label' s')
    (hwin : reg.reg_intno = INT_SYS_PAGE_ALLOC →
      256 ≤ vpage (request s) ∧ vpage (request s) < 768) : ∃ r t',
    (caller g s).perform weensy s.current (.call reg,r) = some t' ∧ Admissible NPROC m
      (caller g s) r ∧ taskOf s' = place (born weensy (caller g s) (.call reg) r)
        (Function.update (taskOf s) s.current (some t')) := by
  have hslots := I.current_slot
  have hself : taskOf s = Function.update (taskOf s) s.current (some (caller reg s)) := by
    rw [eq_comm, Function.update_eq_self_iff, taskOf_used hslots.2 I.current_live.1, hreg,
      decide_eq_true hrun]
  cases E with
  | getpid hno =>
    refine ⟨.done,answered reg s s.current,?_,trivial,?_⟩
    · rw [Task.perform_call (requestOf_getpid hno)]
      rfl
    · rw [I.pids _ hslots.2, answered_tasks I hreg hrun]
      rfl
  | yield hno =>
    refine ⟨.done,caller reg s,?_,trivial,hself⟩
    rw [Task.perform_call (requestOf_switch (Or.inl hno))]
    rfl
  | timer hno =>
    refine ⟨.done,caller reg s,?_,trivial,hself⟩
    rw [Task.perform_call (requestOf_switch (Or.inr hno))]
    rfl
  | fault hno huser =>
    refine ⟨.done,⟨reg,false,pagesOf s s.current⟩,?_,trivial,?_⟩
    · rw [Task.perform_call (requestOf_fault hno)]
      rfl
    · have Q := broken_quiet I.current_live
      funext pid
      by_cases hpid : pid = s.current
      · have hproc : (s.setState s.current .P_BROKEN).processes s.current =
            { s.processes s.current with p_state := .P_BROKEN } := by
          simp [KState.setState, KState.setProc]
        rw [hpid, taskOf_used hslots.2 (by rw [hproc]; simp), hproc, hreg, pagesOf_quiet Q]
        exact (Function.update_self s.current (some (⟨reg,false,pagesOf s s.current⟩ : Process))
          (taskOf s)).symm
      · have hproc : (s.setState s.current .P_BROKEN).processes pid = s.processes pid := by
          simp [KState.setState, KState.setProc, hpid]
        rw [taskOf_quiet Q hproc]
        exact (Function.update_of_ne hpid ..).symm
  | refused hno hempty =>
    obtain ⟨p,hp⟩ := window_page (hwin hno)
    have hrequest : requestOf reg = some (.grow p) := by
      refine requestOf_alloc hno ?_
      rw [← hp, request, hreg]
    refine ⟨.refused,answered reg s (-1),?_,trivial,?_⟩
    · rw [Task.perform_call hrequest]
      rfl
    · have Q : Quiet s { s with pagetable_owner := s.current } :=
        ⟨rfl,rfl,fun _ => ⟨Iff.rfl,rfl,rfl⟩⟩
      exact answered_tasks (s := { s with pagetable_owner := s.current }) (I.same Q rfl) hreg hrun _
  | alloc hno hva hres hmap A => exact alloc_follows I hreg hrun S A hno hres (hwin hno)
  | noSlot hno hslot =>
    refine ⟨.full,answered reg s (-1),?_,free_slot_full hfree hslot,?_⟩
    · rw [Task.perform_call (requestOf_fork hno)]
      rfl
    · exact answered_tasks I hreg hrun _
  | @rootless i hno hslot hempty =>
    have hne := slot_ne_current I hslot
    refine ⟨.abandoned i fun _ => none,answered reg s (-1),?_,
      ⟨free_slot_vacant hfree hslot,fun _ => Or.inl rfl⟩,?_⟩
    · rw [Task.perform_call (requestOf_fork hno)]
      rfl
    · have htasks := nullChild_tasks hslot
      rw [hreg] at htasks
      exact parent_tasks I hreg hrun hne (nullChild_other hne.symm) htasks _
  | @unfinished i r label' t hno hslot hroot hshort F =>
    have hne := slot_ne_current I hslot
    refine ⟨.abandoned i (pagesOf t i),answered reg s (-1),?_,
      ⟨free_slot_vacant hfree hslot,forked_child_space I hslot F⟩,?_⟩
    · rw [Task.perform_call (requestOf_fork hno)]
      rfl
    · have htasks := forked_tasks I S hslot F
      rw [hreg] at htasks
      exact parent_tasks I hreg hrun hne (F.other hne.symm) htasks _
  | @forked i r label' t hno hslot hcount F C =>
    have hne := slot_ne_current I hslot
    obtain ⟨hi,-,-⟩ := free_slot_some hslot
    refine ⟨.child i,answered reg s i,?_,free_slot_vacant hfree hslot,?_⟩
    · rw [Task.perform_call (requestOf_fork hno)]
      rfl
    · have htasks := forked_tasks I S hslot F
      rw [hreg, forked_complete_space I S hslot F C] at htasks
      have hchild : (t.setRax s.current i).processes i = ⟨i,reg,.P_RUNNABLE,r⟩ := by
        rw [setRax_other _ _ hne, F.child, hreg]
      have hpages : pagesOf (t.setRax s.current i) i = pagesOf s s.current := by
        rw [pagesOf_quiet (Quiet.setRax t s.current i), forked_complete_space I S hslot F C]
      rw [taskOf_setRax hi.2 (by rw [hchild]; simp), hchild, hpages,
        parent_tasks I hreg hrun hne (F.other hne.symm) htasks, Function.update_idem]
      rfl

end Effects

section Exceptions

/-- The probes of `schedule` are those of the machine. -/
theorem schedule_loop_next {ready : ℕ → Bool} (h : ∀ j < NPROC, ready j = decide (Runnable s j))
    (n q : ℕ) :
    schedule_loop s n q = ((List.range' 1 n).map fun k => (q+k) % NPROC).find? ready := by
  induction n generalizing q with
  | zero => rfl
  | succ n ih =>
    have hlt : (q+1) % NPROC < NPROC := Nat.mod_lt _ (by decide)
    rw [schedule_loop, List.range'_succ, List.map_cons, List.find?_cons, h _ hlt]
    by_cases hrun : Runnable s ((q+1) % NPROC)
    · rw [if_pos hrun, decide_eq_true hrun]
    · have hshift : List.range' (1+1) n = (List.range' 1 n).map (1+·) :=
        (List.map_add_range' ..).symm
      have hprobe : ∀ k, (q+(1+k)) % NPROC = ((q+1) % NPROC+k) % NPROC := fun k => by
        rw [Nat.mod_add_mod, Nat.add_assoc]
      rw [if_neg hrun, decide_eq_false hrun, ih, hshift, List.map_map]
      simp only [Function.comp_def, hprobe]

theorem run_out {q : ℕ} (h : run K q u = .ok out) : out = .user (resumed u q) := by
  simp only [run, seq_ok_iff, kassert_ok_iff] at h
  obtain ⟨-,h⟩ := h
  obtain ⟨s',hset,hout⟩ := (bind_ok_iff _ _ _).1 h
  rw [set_pagetable_ok hset] at hout
  exact (Except.ok.inj hout).symm

/-- The machine in which an exception leaves the kernel. -/
theorem leaves_machine (I : KInv K label u)
    (h : (if Reschedules reg u then schedule K u else run K u.current u) = .ok out) :
    machineOf out = ⟨taskOf u,fun k => u.mem (console+k),
      if Reschedules reg u then schedule_loop u NPROC u.current else some u.current⟩ := by
  by_cases hres : Reschedules reg u
  swap
  · rw [if_neg hres] at h
    rw [run_out h, if_neg hres]
    rfl
  rw [if_pos hres, schedule, I.pids _ I.current_slot.2] at h
  rw [if_pos hres]
  cases hloop : schedule_loop u NPROC u.current with
  | none =>
    rw [hloop] at h
    cases h
    rfl
  | some q =>
    rw [hloop] at h
    rw [run_out h]
    rfl

theorem console_marked (I : KInv K label s) : Bystander s 0xB8 := by
  refine marked_bystander I (by decide) ?_
  rw [show pageinfo_init_entry K (0xB8*4096) = ⟨PO_RESERVED,1⟩ from rfl]
  decide

theorem effect_console (E : Effect K reg label s label' s') (I : KInv K label s) (k : PageOffset) :
    s'.mem (console+k) = s.mem (console+k) := by
  obtain ⟨t,C,Q,-⟩ := E.change I.current_live
  rw [Q.mem]
  exact change_kept C I (console_marked I) k k.isLt

theorem ready_iff {m : Machine x86_64_registers WindowPage PageOffset UInt8}
    (htasks : m.tasks = taskOf u) {j : ℕ} (hj : j < NPROC) :
    m.ready j = decide (Runnable u j) := by
  rw [Machine.ready, htasks]
  by_cases hfree : (u.processes j).p_state = .P_FREE
  · have hrun : ¬Runnable u j := fun h => absurd (hfree.symm.trans h) (by decide)
    rw [taskOf_free hfree, decide_eq_false hrun]
    rfl
  · rw [taskOf_used hj hfree]
    rfl

/-- An exception is an event of the machine. -/
theorem exception_event (X : Executing K label s) (S : Isolated (rootsOf K s) label s)
    (hwin : InWindow s reg) (h : exception K reg s = .ok out) :
    ∃ r, MachineStep (machineOf (.user s)) (s.current,.call reg,r) (machineOf out) := by
  obtain ⟨t,u,henter,hswitch,hout⟩ := exception_split.1 h
  obtain ⟨-,E⟩ := exception_enter_cases X.inv henter
  have I := entered_inv X E
  have hcur := E.current
  have hreg : (t.processes t.current).p_registers = reg := by rw [hcur, E.process]
  obtain ⟨label',F⟩ := exception_switch_effect I hswitch
  have I' := F.inv I
  have hcur' : u.current = t.current := (F.change I.current_live).choose_spec.2.2
  have hfree : ∀ j < NPROC, (machineOf (.user s)).tasks j = none ↔
      (t.processes j).p_state = .P_FREE :=
    fun j hj => (taskOf_none_iff hj).trans (E.quiet.procs j).1.symm
  obtain ⟨r,t',hact,hfit,htasks⟩ := effect_follows (g := (s.processes s.current).p_registers) I
    hreg (entered_runnable X E) (isolated_quiet S E.quiet) hfree F (window_request hwin E)
  have hothers : ∀ k, k ≠ t.current → taskOf t k = taskOf s k := fun k hk =>
    taskOf_quiet E.quiet (E.others k (hcur ▸ hk))
  rw [update_congr _ hothers] at htasks
  rw [caller, pagesOf_quiet E.quiet, hcur] at hact hfit htasks
  have htask : (machineOf (.user s)).tasks s.current =
      some (caller (s.processes s.current).p_registers s) := by
    have h := taskOf_used X.inv.current_slot.2 X.inv.current_live.1
    rwa [decide_eq_true X.runnable] at h
  have hself : ((machineOf (.user s)).after weensy NPROC s.current
      (caller (s.processes s.current).p_registers s) t' (.call reg) r).tasks s.current = some t' :=
    after_self htask hfit
  rw [after_tasks] at hself
  have hrunnable : t'.runnable = decide (Runnable u u.current) := by
    have hused : (u.processes u.current).p_state ≠ .P_FREE := I'.current_live.1
    have h := congrFun htasks u.current
    rw [hcur', hcur] at h hused
    rw [taskOf_used X.inv.current_slot.2 hused] at h
    have h' := Option.some.inj (h.trans hself)
    rw [← h', hcur', hcur]
  have hshared : (fun k : PageOffset => u.mem (console+k)) =
      fun k : PageOffset => s.mem (console+k) := by
    funext k
    rw [effect_console F I, E.quiet.mem]
  have hout' := leaves_machine I' hout
  have hleaves : (weensy.releases (.call reg : UserAction) ∨ ¬t'.runnable) ↔ Reschedules reg u := by
    rw [releases_iff, hrunnable, decide_eq_true_eq]
  have hafter : machineOf out = (machineOf (.user s)).after weensy NPROC s.current
      (caller (s.processes s.current).p_registers s) t' (.call reg) r := by
    have htasks' : ((machineOf (.user s)).after weensy NPROC s.current
        (caller (s.processes s.current).p_registers s) t' (.call reg) r).tasks =
        place (born weensy (caller (s.processes s.current).p_registers s) (.call reg) r)
          (Function.update (taskOf s) s.current (some t')) := after_tasks
    have hplaced := htasks'.trans htasks.symm
    refine Machine.ext ?_ ?_ ?_
    · rw [hplaced, hout']
    · rw [after_shared, hout']
      exact hshared
    · rw [after_running, hout']
      by_cases hres : Reschedules reg u
      · rw [if_pos hres, if_pos (hleaves.2 hres), hcur', hcur, next]
        exact schedule_loop_next (fun j hj => ready_iff hplaced hj) _ _
      · rw [if_neg hres, if_neg fun h => hres (hleaves.1 h), hcur', hcur]
        rfl
  rw [hafter]
  exact ⟨r,.event rfl htask hact hfit⟩

end Exceptions

section Stores

variable {a k : ℕ} {b : UInt8}

/-- A page other than the one a store hits. -/
theorem stored_other {a' : ℕ} (ha : a % 4096 = 0) (ha' : a' % 4096 = 0) (hk : k < 4096)
    (hne : a' ≠ a) (m : Memory) : Agree m (Function.update m (a+k) b) a' 4096 := by
  intro j hj
  have hbyte : a'+j ≠ a+k := by omega
  exact Function.update_of_ne hbyte ..

variable (I : KInv K label s) (S : Isolated (rootsOf K s) label s)
  (T : TablesKept label s (Function.update s.mem (a+k) b)) (ha : a % 4096 = 0) (hk : k < 4096)
include I S T ha hk

theorem stored_page (hp : pid < NPROC) (hused : (s.processes pid).p_state ≠ .P_FREE)
    (hne : live s pid → leafWord s.mem (s.processes pid).p_pagetable (pageAddr p) ≠ a+7) :
    pagesOf { s with mem := Function.update s.mem (a+k) b } pid p = pagesOf s pid p := by
  by_cases hnull : (s.processes pid).p_pagetable = NULL
  · rw [pagesOf_null hnull]
    exact if_neg fun h => h.1 hnull
  · have hl : live s pid := ⟨hused,hnull⟩
    have hslot := live_slot I hp hl
    refine pagesOf_kept I S (store_inv I T) (fun a' hleaf hown => ?_) hslot hl hl rfl
      (T.leaves I.paging pid _ _ (rootsOf_live hslot hl))
    exact stored_other ha hown.1.1 hk (fun h => hne hl (h ▸ hleaf)) s.mem

theorem stored_task (hne : pid < NPROC → live s pid → ∀ p : WindowPage,
      leafWord s.mem (s.processes pid).p_pagetable (pageAddr p) ≠ a+7) :
    taskOf { s with mem := Function.update s.mem (a+k) b } pid = taskOf s pid := by
  by_cases hp : pid < NPROC
  · refine taskOf_congr rfl fun hused => ?_
    funext p
    exact stored_page I S T ha hk hp hused fun hl => hne hp hl p
  · simp only [taskOf, hp, false_and, if_false]

/-- The page that a store hits. -/
theorem stored_new (hp : Slot pid) (hl : live s pid)
    (hleaf : leafWord s.mem (s.processes pid).p_pagetable (pageAddr p) = a+7)
    (hown : OwnFrame label s pid a) :
    pagesOf { s with mem := Function.update s.mem (a+k) b } pid = Function.update (pagesOf s pid) p
      (some (Function.update (pageBytes s.mem a) ⟨k,hk⟩ b)) := by
  have hroot := rootsOf_live (K := K) hp hl
  funext q
  by_cases hq : q = p
  · have hbytes : pageBytes (Function.update s.mem (a+k) b) a =
        Function.update (pageBytes s.mem a) ⟨k,hk⟩ b := by
      funext j
      by_cases hj : j = ⟨k,hk⟩
      · rw [hj, Function.update_self]
        exact Function.update_self ..
      · have hval : (j : ℕ) ≠ k := fun h => hj (Fin.ext h)
        rw [Function.update_of_ne hj]
        exact Function.update_of_ne (fun h => hval (Nat.add_left_cancel h)) ..
    rw [hq, Function.update_self, ← hbytes]
    exact pagesOf_frame (store_inv I T) hp hl hown.1 ((T.leaves I.paging pid _ _ hroot).trans hleaf)
  · rw [Function.update_of_ne hq]
    refine stored_page I S T ha hk hp.2 hl.1 fun _ hleaf' => hq (Fin.ext ?_)
    -- no frame is mapped twice
    have hsame := S.inj _ _ hp.owner hroot _ _ (pageAddr_window p).1 (pageAddr_window q).1
      (hleaf ▸ Nat.succ_ne_zero _) (hleaf.trans hleaf'.symm)
    rw [pageAddr_vpage, pageAddr_vpage] at hsame
    omega

omit S T ha hk in
theorem own_not_console (h : OwnFrame label s pid a) : a ≠ console := by
  rintro rfl
  have hentry : pageinfo_init_entry K (0xB8*4096) = ⟨PO_RESERVED,1⟩ := rfl
  have howner : (s.pageinfo 0xB8).owner = pid := congrArg physical_pageinfo.owner h.2.2
  rw [I.paging.marked 0xB8 (by decide) (by rw [hentry]; decide), hentry] at howner
  simp only [PO_RESERVED] at howner
  omega

end Stores

/-- What a store hits: the console, or a page of the window. -/
theorem store_cases (X : Executing K label s) (S : Isolated (rootsOf K s) label s) {va : ℕ}
    {c : UInt8} (h : user_store va c s = some s') : ∃ a, Frame a ∧
      TablesKept label s (Function.update s.mem (a+va % 4096) c) ∧
      s' = { s with mem := Function.update s.mem (a+va % 4096) c } ∧
      ((vpage va = 0xB8 ∧ a = console) ∨ ∃ p : WindowPage, vpage va = 256+p ∧
        leafWord s.mem (currentTable s) (pageAddr p) = a+7 ∧ OwnFrame label s s.current a) := by
  obtain ⟨a,hf,hnone,hw,hs'⟩ := user_store_cases X h
  have I := X.inv
  have hroot := rootsOf_live (K := K) I.current_slot I.current_live
  refine ⟨a,hf,TablesKept.byte I.paging hf.1 hnone (Nat.mod_lt va (by decide)) c,hs',?_⟩
  by_cases hva : vpage va < 256
  · left
    have hlow := S.low _ _ I.current_slot.owner hroot va hva
    rw [kernelWord, if_pos hva] at hlow
    by_cases hcon : vpage va = 0xB8
    · rw [if_pos hcon] at hlow
      exact ⟨hcon,Nat.add_right_cancel (hw.symm.trans hlow)⟩
    · rw [if_neg hcon] at hlow
      have heq := hw.symm.trans hlow
      have ha := hf.1
      omega
  · right
    have hne : leafWord s.mem (currentTable s) va ≠ 0 := by
      rw [hw]
      exact Nat.succ_ne_zero _
    obtain ⟨hhigh,a',ha',hown⟩ := S.high _ _ I.current_slot.owner hroot va (by omega) hne
    have haa : a' = a := Nat.add_right_cancel (ha'.symm.trans hw)
    obtain ⟨p,hp⟩ := window_page ⟨by omega,hhigh⟩
    have hpage : vpage (pageAddr p) = vpage va := by rw [pageAddr_vpage, hp]
    exact ⟨p,hp,by rw [leafWord_congr_page hpage, hw],haa ▸ hown⟩

/-- A store of user code is an event of the machine. -/
theorem store_event (X : Executing K label s) (S : Isolated (rootsOf K s) label s) {va : ℕ}
    {c : UInt8} (h : user_store va c s = some s') :
    MachineStep (machineOf (.user s)) (s.current,.store va c,.done) (machineOf (.user s')) := by
  obtain ⟨a,hf,T,rfl,hcases⟩ := store_cases X S h
  have I := X.inv
  have hk := Nat.mod_lt va (show 0 < 4096 by decide)
  have htask : taskOf s s.current = some (caller (s.processes s.current).p_registers s) := by
    have h := taskOf_used I.current_slot.2 I.current_live.1
    rwa [decide_eq_true X.runnable] at h
  generalize hcaller : caller (s.processes s.current).p_registers s = t at htask
  have hrunnable : t.runnable = true := by rw [← hcaller]
  have hself : Function.update (taskOf s) s.current (some t) = taskOf s := by
    rw [Function.update_eq_self_iff, htask]
  rcases hcases with ⟨hcon,rfl⟩ | ⟨p,hp,hleaf,hown⟩
  · have hlocate := locate_console hcon
    have htasks : taskOf { s with mem := Function.update s.mem (console+va % 4096) c } = taskOf s :=
      funext fun pid => stored_task I S T hf.1 hk fun hp hl p hleaf => by
        have hslot := live_slot I hp hl
        obtain ⟨-,a',ha',hown⟩ := S.high _ _ hslot.owner (rootsOf_live hslot hl) _
          (pageAddr_window p).1 (hleaf ▸ Nat.succ_ne_zero _)
        exact own_not_console I hown (Nat.add_right_cancel (ha'.symm.trans hleaf))
    have hact : t.perform weensy s.current (.store va c,.done) = some t := by
      simp only [Task.perform, weensy, hlocate, Option.bind_some, Task.write]
    have hafter : machineOf (.user { s with mem := Function.update s.mem (console+va % 4096) c }) =
        (machineOf (.user s)).after weensy NPROC s.current t t (.store va c) .done := by
      rw [after_store hrunnable]
      refine Machine.ext (htasks.trans hself.symm) ?_ rfl
      simp only [sharedAfter, weensy, hlocate]
      funext k
      by_cases hk' : k = ⟨va % PAGESIZE,hk⟩
      · rw [hk', Function.update_self]
        exact Function.update_self ..
      · have hval : (k : ℕ) ≠ va % 4096 := fun h => hk' (Fin.ext h)
        rw [Function.update_of_ne hk']
        exact Function.update_of_ne (fun h => hval (Nat.add_left_cancel h)) ..
    rw [hafter]
    exact .event rfl htask hact trivial
  · have hlocate := locate_window p hp
    generalize hpage : Function.update (pageBytes s.mem a) ⟨va % PAGESIZE,hk⟩ c = page
    have hact : t.perform weensy s.current (.store va c,.done) =
        some { t with space := Function.update t.space p (some page) } := by
      have hspace : t.space p = some (pageBytes s.mem a) := by
        rw [← hcaller]
        exact pagesOf_frame I I.current_slot I.current_live hf hleaf
      simp only [Task.perform, weensy, hlocate, Option.bind_some, Task.write, hspace,
        Option.map_some, hpage]
    generalize ht' : ({ t with space := Function.update t.space p (some page) } : Process) = t' at hact
    have hrunnable' : t'.runnable = true := by rw [← ht', ← hcaller]
    have htasks : taskOf { s with mem := Function.update s.mem (a+va % 4096) c } =
        Function.update (taskOf s) s.current (some t') := by
      funext pid
      by_cases hpid : pid = s.current
      · have hspace := stored_new (b := c) I S T hf.1 hk I.current_slot I.current_live hleaf hown
        have hused := taskOf_used (s := { s with mem := Function.update s.mem (a+va % 4096) c })
          I.current_slot.2 I.current_live.1
        rw [hpid, Function.update_self, hused, hspace, ← ht', ← hcaller, ← hpage,
          decide_eq_true X.runnable]
      · rw [Function.update_of_ne hpid]
        refine stored_task I S T hf.1 hk fun hp hl q hleaf' => hpid ?_
        -- the frame belongs to one process only
        have hslot := live_slot I hp hl
        obtain ⟨-,a',ha',hown'⟩ := S.high _ _ hslot.owner (rootsOf_live hslot hl) _
          (pageAddr_window q).1 (hleaf' ▸ Nat.succ_ne_zero _)
        have haa : a' = a := Nat.add_right_cancel (ha'.symm.trans hleaf')
        have hinfo := hown'.2.2
        rw [haa, hown.2.2] at hinfo
        exact (Int.ofNat.inj (congrArg physical_pageinfo.owner hinfo)).symm
    have hafter : machineOf (.user { s with mem := Function.update s.mem (a+va % 4096) c }) =
        (machineOf (.user s)).after weensy NPROC s.current t t' (.store va c) .done := by
      rw [after_store hrunnable']
      refine Machine.ext htasks ?_ rfl
      simp only [sharedAfter, weensy, hlocate]
      funext k
      have hne := own_not_console I hown
      have hbytes := stored_other (b := c) hf.1 (show console % 4096 = 0 by decide) hk hne.symm s.mem
      exact hbytes k k.isLt
    rw [hafter]
    exact .event rfl htask hact trivial

section Runs

/-- The steps that a run of the kernel takes. -/
abbrev Within (K : KernelImage) : Moves Outcome (ℕ × UserAction) := fun out e out' =>
  Run K InWindow out ∧ KernelMove K InWindow out e out'

theorem move_run (R : Run K allow out) {e : ℕ × UserAction} (h : KernelMove K allow out e out') :
    Run K allow out' := by
  cases h with
  | exception hallow h => exact .exception R hallow h
  | store h => exact .store R h

theorem kernel_simulates (hK : Loadable K) :
    Simulates (Within K) MachineStep (fun out m => m = machineOf out) action := by
  rintro out m e out' rfl ⟨R,h⟩
  obtain ⟨label,-,S,hx⟩ := run_isolated hK R
  cases h with
  | exception hwin h =>
    obtain ⟨r,hstep⟩ := exception_event (hx _ rfl) S hwin h
    exact ⟨(_,_,r),_,rfl,hstep,rfl⟩
  | store h => exact ⟨(_,_,.done),_,rfl,store_event (hx _ rfl) S h,rfl⟩

end Runs

section Replies

/-- What a process learns from a call: the result, and the contents of the page it asked for. -/
def heard (reg : x86_64_registers) (t : Process) : UInt64 × Option (PageOffset → UInt8) :=
  (t.registers.reg_rax,match requestOf reg with
    | some (.grow p) => t.space p
    | _ => none)

abbrev Reply := Option (UInt64 × Option (PageOffset → UInt8))

def replyTo (t : Option Process) : UserAction → Reply
  | .store _ _ => none
  | .call reg => t.map (heard reg)

/-- The moves of the kernel, with what the process that acts learns. -/
def KernelTalk (K : KernelImage) (allow : KState → x86_64_registers → Prop) :
    Moves Outcome (ℕ × UserAction × Reply) := fun out e out' =>
  KernelMove K allow out (e.1,e.2.1) out' ∧ e.2.2 = replyTo (taskOf out'.state e.1) e.2.1

/-- A process after an action, from what it has learned. -/
def digest (t : Process) : UserAction × Reply → Option Process
  | (.store va c,_) => (locate va).bind (t.write c)
  | (.call reg,some (rax,page)) => (requestOf reg).map fun
    | .yield => { t with registers := reg }
    | .fault => { t with registers := reg, runnable := false }
    | .grow p => { t with
        registers := { reg with reg_rax := rax }, space := Function.update t.space p page }
    | .identify => { t with registers := { reg with reg_rax := rax } }
    | .fork => { t with registers := { reg with reg_rax := rax } }
  | _ => none

/-- The replies say all that matters about the responses. -/
theorem digest_perform {t t' : Process} {a : UserAction} {r : KernelResponse}
    (h : t.perform weensy i (a,r) = some t') : digest t (a,replyTo (some t') a) = some t' := by
  cases a with
  | store va c =>
    cases r with
    | done => exact h
    | refused => cases h
    | page contents => cases h
    | child j => cases h
    | full => cases h
    | abandoned j space => cases h
  | call reg =>
    cases hq : requestOf reg with
    | none =>
      have hnone : weensy.request reg = none := hq
      simp only [Task.perform, hnone, Option.bind_none] at h
      cases h
    | some q =>
      rw [Task.perform_call hq] at h
      simp only [digest, replyTo, Option.map_some, hq, heard]
      cases q with
      | identify => cases r <;> cases h; rfl
      | yield => cases r <;> cases h; rfl
      | fault => cases r <;> cases h; rfl
      | fork => cases r <;> cases h <;> rfl
      | grow p =>
        cases r with
        | page contents =>
          cases h
          simp only [Function.update_self]
          rfl
        | refused =>
          cases h
          simp only [Function.update_eq_self]
          rfl
        | done => cases h
        | child j => cases h
        | full => cases h
        | abandoned j space => cases h

theorem talk_interleaves (hK : Loadable K) :
    Interleaves (fun out e out' => Run K InWindow out ∧ KernelTalk K InWindow out e out')
      (fun out => taskOf out.state) (fun _ => digest) where
  acts := by
    rintro out i ⟨a,reply⟩ out' ⟨R,hmove,hreply⟩
    obtain ⟨⟨j,a',r⟩,m,hread,hstep,rfl⟩ := kernel_simulates hK _ _ _ _ rfl ⟨R,hmove⟩
    cases hread
    obtain ⟨t,t',ht,hact,ht'⟩ := (interleaves weensy NPROC).acts hstep
    have hafter : taskOf out'.state i = some t' := ht'
    simp only [hafter] at hreply
    rw [hreply]
    exact ⟨t,t',ht,digest_perform hact,ht'⟩
  others := by
    rintro out i ⟨a,reply⟩ out' j t ⟨R,hmove,-⟩ hj ht
    obtain ⟨⟨k,a',r⟩,m,hread,hstep,rfl⟩ := kernel_simulates hK _ _ _ _ rfl ⟨R,hmove⟩
    cases hread
    exact (interleaves weensy NPROC).others hstep hj ht

/-- Two runs in which a process starts alike, does the same and learns the same look the same
to it at the end, whatever the other processes do. -/
theorem noninterference {K' : KernelImage} {out₁ out₁' out₂ out₂' : Outcome}
    {l₁ l₂ : List (ℕ × UserAction × Reply)} {t : Process} (hK : Loadable K) (hK' : Loadable K')
    (R₁ : Run K InWindow out₁) (R₂ : Run K' InWindow out₂)
    (C₁ : Runs (KernelTalk K InWindow) out₁ l₁ out₁')
    (C₂ : Runs (KernelTalk K' InWindow) out₂ l₂ out₂')
    (h₁ : taskOf out₁.state pid = some t) (h₂ : taskOf out₂.state pid = some t)
    (hown : own pid l₁ = own pid l₂) : ∃ t', taskOf out₁'.state pid = some t' ∧
      taskOf out₂'.state pid = some t' := by
  obtain ⟨-,C₁⟩ := C₁.within (P := Run K InWindow) (fun _ _ _ R h => move_run R h.1) R₁
  obtain ⟨-,C₂⟩ := C₂.within (P := Run K' InWindow) (fun _ _ _ R h => move_run R h.1) R₂
  obtain ⟨t₁,ht₁,hfold₁⟩ := (talk_interleaves hK).history C₁ h₁
  obtain ⟨t₂,ht₂,hfold₂⟩ := (talk_interleaves hK').history C₂ h₂
  rw [hown, hfold₂, Option.some.injEq] at hfold₁
  exact ⟨t₁,ht₁,hfold₁ ▸ ht₂⟩

/-- A parent yields to its child, which hands back at once in one run and asks for a page before
in the other. The parent ends up the same in both. -/
theorem child_without_interference : ∃ t u v w x r r₁ r₂ r₃,
    exception sampleKernel sampleYield t = .ok (.user u) ∧ u.current = 2 ∧
    exception sampleKernel (syscall INT_SYS_YIELD 0) u = .ok (.user v) ∧
    exception sampleKernel sampleRequest u = .ok (.user w) ∧
    exception sampleKernel (syscall INT_SYS_YIELD 0) w = .ok (.user x) ∧
    Runs (KernelTalk sampleKernel InWindow) (.user t) [(1,.call sampleYield,r),
      (2,.call (syscall INT_SYS_YIELD 0),r₁)] (.user v) ∧
    Runs (KernelTalk sampleKernel InWindow) (.user t) [(1,.call sampleYield,r),
      (2,.call sampleRequest,r₂),(2,.call (syscall INT_SYS_YIELD 0),r₃)] (.user x) ∧
    ∃ t', taskOf v 1 = some t' ∧ taskOf x 1 = some t' := by
  obtain ⟨label,s,t,hboot,-,hfork,A⟩ := sample_pair
  obtain ⟨u,hu,B⟩ := A.yield (show sampleYield.reg_intno = _ from rfl)
  have hwin : ∀ s, InWindow s sampleRequest := fun _ _ => ⟨by decide,by decide,by decide⟩
  have hother : ∀ {reg : x86_64_registers} (s : KState), reg.reg_intno ≠ INT_SYS_PAGE_ALLOC →
      InWindow s reg := fun _ hne hno => absurd hno hne
  obtain ⟨v,hv,-⟩ := B.yield (show (syscall INT_SYS_YIELD 0).reg_intno = _ from rfl)
  obtain ⟨label',w,hw,C⟩ := B.page_alloc (show sampleRequest.reg_intno = _ from rfl) (hwin u)
  obtain ⟨x,hx,-⟩ := C.yield (show (syscall INT_SYS_YIELD 0).reg_intno = _ from rfl)
  have hmove : ∀ {s s' : KState} {reg : x86_64_registers} {i : ℕ}, s.current = i →
      InWindow s reg → exception sampleKernel reg s = .ok (.user s') →
      KernelTalk sampleKernel InWindow (.user s) (i,.call reg,replyTo (taskOf s' i) (.call reg))
        (.user s') := fun hcur hwin h => ⟨hcur ▸ .exception hwin h,rfl⟩
  have h₁ := hmove A.current (hother t (by decide)) hu
  have C₁ := (Runs.refl.snoc h₁).snoc (hmove B.current (hother u (by decide)) hv)
  have C₂ := ((Runs.refl.snoc h₁).snoc (hmove B.current (hwin u) hw)).snoc
    (hmove C.current (hother w (by decide)) hx)
  have R : Run sampleKernel InWindow (.user t) :=
    .exception (.boot hboot) (hother s (by decide)) hfork
  have hused : (t.processes 1).p_state ≠ .P_FREE := A.current ▸ A.sound.inv.current_live.1
  have ht := taskOf_used (s := t) (show 1 < NPROC by decide) hused
  exact ⟨t,u,v,w,x,_,_,_,_,hu,B.current,hv,hw,hx,C₁,C₂,
    noninterference sample_loadable sample_loadable R R C₁ C₂ ht ht rfl⟩

end Replies

end WeensyOS.Refinement
