import WeensyOS.TableForests
import WeensyOS.SelfChecks

/-!
# The life of a process

A slot is free, then runnable, then broken, and `run` is only called for a
runnable process. A broken process is never run again, and its descriptor, its
address space and its pages stay as they were.
-/

set_option autoImplicit false

namespace WeensyOS.LifeCycle
open WeensyOS.FlatMemory WeensyOS.KernelState WeensyOS.PageTables WeensyOS.PageAllocator
open WeensyOS.Checks WeensyOS.Exceptions WeensyOS.Boot WeensyOS.CheckedRuns WeensyOS.RadixForest
open WeensyOS.TableWords WeensyOS.FreePages WeensyOS.PagingInvariant WeensyOS.PageMaps
open WeensyOS.TableCopies WeensyOS.ForkCopies WeensyOS.KernelInvariant WeensyOS.KernelSteps
open WeensyOS.ForkResult WeensyOS.AllocResult WeensyOS.Isolation WeensyOS.KernelTables
open WeensyOS.BootResult WeensyOS.BootRun WeensyOS.Effects WeensyOS.Runs WeensyOS.PrivateRuns
open WeensyOS.PageAccounts WeensyOS.KeptPages WeensyOS.TableForests WeensyOS.SelfChecks

variable {K : KernelImage} {allow : KState → x86_64_registers → Prop} {label label' : Labels}
  {s s' t u : KState} {reg : x86_64_registers} {out : Outcome} {pid pn : ℕ}

section Run

/-- The assertion at the head of `run`. -/
abbrev runAssert : Panic := .assert_fail "p->p_state == P_RUNNABLE"

theorem check_mapping_ne (pt va : ℕ) :
    check_page_table_mapping K pt s va ≠ .error runAssert := by
  rw [check_page_table_mapping]
  exact seq_ne_error (kassert_ne_error (by decide)) (ite_ne_error (kassert_ne_error (by decide)) (ok_ne_error _))

theorem check_mappings_ne (pt : ℕ) : check_page_table_mappings K pt s ≠ .error runAssert := by
  rw [check_page_table_mappings]
  apply seq_ne_error (kassert_ne_error (by decide))
  apply seq_ne_error (forM_ne_error (check_mapping_ne pt) _)
  exact seq_ne_error (kassert_ne_error (by decide)) (kassert_ne_error (by decide))

theorem check_level_ne (below pt : ℕ) (owner refcount : ℤ) :
    check_page_table_ownership_level s below pt owner refcount ≠ .error runAssert := by
  induction below generalizing pt refcount with
  | zero =>
    rw [check_page_table_ownership_level]
    apply seq_ne_error (kassert_ne_error (by decide))
    exact seq_ne_error (kassert_ne_error (by decide)) (kassert_ne_error (by decide))
  | succ below ih =>
    rw [check_page_table_ownership_level]
    apply seq_ne_error (kassert_ne_error (by decide))
    apply seq_ne_error (kassert_ne_error (by decide))
    apply seq_ne_error (kassert_ne_error (by decide))
    exact forM_ne_error (fun index => ite_ne_error (ih _ _) (ok_ne_error _)) _

theorem check_ownership_ne (pt : ℕ) (owner : ℤ) :
    check_page_table_ownership K pt owner s ≠ .error runAssert := by
  rw [check_page_table_ownership]
  exact ite_ne_error (check_level_ne _ _ _ _) (check_level_ne _ _ _ _)

theorem check_virtual_memory_ne : check_virtual_memory K s ≠ .error runAssert := by
  rw [check_virtual_memory]
  apply seq_ne_error (kassert_ne_error (by decide))
  apply seq_ne_error (check_mappings_ne _)
  apply seq_ne_error (check_ownership_ne _ _)
  apply seq_ne_error
  · apply forM_ne_error
    intro pid
    apply ite_ne_error _ (ok_ne_error _)
    exact seq_ne_error (check_mappings_ne _) (check_ownership_ne _ _)
  · apply forM_ne_error
    intro pn
    exact ite_ne_error (kassert_ne_error (by decide)) (ok_ne_error _)

theorem memshow_ne (pt : ℕ) : memshow_virtual pt s ≠ .error runAssert := by
  rw [memshow_virtual]
  apply seq_ne_error (kassert_ne_error (by decide))
  apply forM_ne_error
  intro va
  exact ite_ne_error (ok_ne_error _) (kassert_ne_error (by decide))

theorem animate_ne : memshow_virtual_animate s ≠ .error runAssert := by
  rw [memshow_virtual_animate]
  exact ite_ne_error (seq_ne_error (memshow_ne _) (ok_ne_error _)) (ok_ne_error _)

theorem set_pagetable_ne (pt : ℕ) : set_pagetable K pt s ≠ .error runAssert := by
  rw [set_pagetable]
  apply seq_ne_error (kassert_ne_error (by decide))
  apply seq_ne_error (kassert_ne_error (by decide))
  apply seq_ne_error (kassert_ne_error (by decide))
  apply seq_ne_error (kassert_ne_error (by decide))
  exact seq_ne_error (kassert_ne_error (by decide)) (ok_ne_error _)

theorem enter_ne : exception_enter K reg s ≠ .error runAssert := by
  rw [exception_enter]
  apply bind_ne_error (set_pagetable_ne _)
  intro t _
  exact ite_ne_error (seq_ne_error check_virtual_memory_ne animate_ne) (ok_ne_error _)

/-- `run` with a process that is runnable. -/
theorem run_ne (h : (s.processes pid).p_state = .P_RUNNABLE) :
    run K pid s ≠ .error runAssert := by
  rw [run]
  apply seq_ne_error
  · rw [kassert, if_pos h]
    exact ok_ne_error _
  · exact bind_ne_error (set_pagetable_ne _) fun _ _ => ok_ne_error _

theorem schedule_ne : schedule K s ≠ .error runAssert := by
  rw [schedule]
  cases h : schedule_loop s NPROC (s.processes s.current).p_pid with
  | none => exact ok_ne_error _
  | some pid => exact run_ne (schedule_loop_some h).2

theorem return_ne : exception_leave K s ≠ .error runAssert := by
  rw [exception_leave]
  by_cases h : (s.processes s.current).p_state = .P_RUNNABLE
  · rw [if_pos h]
    exact run_ne h
  · rw [if_neg h]
    exact schedule_ne

theorem fork_ne (I : KInv K label s) : fork s ≠ .error runAssert := by
  cases hslot : free_slot s with
  | none =>
    rw [fork, hslot]
    exact ok_ne_error _
  | some i =>
    by_cases hfree : freePages s = ∅
    · rw [fork_none I hslot hfree]
      exact ok_ne_error _
    · by_cases hroot : 4 ≤ freeCount s
      · obtain ⟨s',hs'⟩ := fork_returns I fun _ _ => hroot
        rw [hs']
        exact ok_ne_error _
      · rw [fork_panic I hslot hfree (by omega)]
        exact fun h => (by cases h)

/-- No call of `run` fails its assertion while an exception is handled. -/
theorem exception_ne (X : Executing K label s) (hwin : InWindow s reg) :
    exception K reg s ≠ .error runAssert := by
  rw [exception]
  apply bind_ne_error enter_ne
  intro s₁ henter
  obtain ⟨-,E⟩ := exception_enter_cases X.inv henter
  have I := entered_inv X E
  have hpanic : ∀ msg, (.error (.panic msg) : Checked Outcome) ≠ .error runAssert :=
    fun msg h => (by cases h)
  rw [exception_handle]
  apply ite_ne_error (hpanic _)
  apply ite_ne_error return_ne
  apply ite_ne_error schedule_ne
  by_cases h51 : reg.reg_intno = INT_SYS_PAGE_ALLOC
  · rw [if_pos h51]
    have hva : request s₁ % 4096 = 0 := by
      rw [entered_request E]
      exact (hwin h51).1
    obtain ⟨s',hs'⟩ := alloc_returns I hva
    apply bind_ne_error
    · rw [hs']
      exact ok_ne_error _
    · exact fun _ _ => return_ne
  rw [if_neg h51]
  apply ite_ne_error (bind_ne_error (fork_ne I) fun _ _ => return_ne)
  apply ite_ne_error schedule_ne
  apply ite_ne_error _ (hpanic _)
  exact ite_ne_error (hpanic _) return_ne

/-- What `kernel` does before it calls `run`. -/
abbrev kernel_setup (K : KernelImage) (command : Option String) (s : KState) : Checked KState :=
  kernel_init K s >>= fun s =>
    (boot_programs command).foldlM (fun s p => process_setup K p.1 p.2 s) s

theorem kernel_setup_run (command : Option String) (s : KState) :
    kernel K command s = kernel_setup K command s >>= run K 1 := by
  rw [kernel, kernel_setup]
  cases kernel_init K s <;> rfl

theorem finish_runnable (h : setup_finish pid s = .ok s') :
    (s'.processes pid).p_state = .P_RUNNABLE := by
  simp only [setup_finish] at h
  generalize virtual_memory_map (σ := KState) _ _ _ _ _ _ _ = x at h
  cases x with
  | error e => cases h
  | ok y =>
    cases h
    simp [KState.setState, KState.setProc]

theorem setup_runnable {program : ℕ} (h : process_setup K pid program s = .ok s') :
    (s'.processes pid).p_state = .P_RUNNABLE := by
  rw [process_setup_eq] at h
  obtain ⟨x,-,h⟩ := (bind_ok_iff _ _ _).1 h
  obtain ⟨y,-,h⟩ := (bind_ok_iff _ _ _).1 h
  obtain ⟨-,h⟩ := (seq_ok_iff _ _ _).1 h
  exact finish_runnable h

theorem setups_runnable (hK : Loadable K) (l : List (ℕ × ℕ)) (hslots : ∀ p ∈ l, Slot p.1)
    (hnd : (l.map Prod.fst).Nodup) {s : KState} {label : Labels} (B : Booting K label s)
    (hstate : ∀ p ∈ l, (s.processes p.1).p_state = .P_FREE) (hlow : 8*l.length ≤ lowFree s)
    (h : l.foldlM (fun s p => process_setup K p.1 p.2 s) s = .ok s')
    (hpid : pid ∈ l.map Prod.fst ∨ (s.processes pid).p_state = .P_RUNNABLE) :
    (s'.processes pid).p_state = .P_RUNNABLE := by
  induction l generalizing s label with
  | nil =>
    cases h
    exact hpid.resolve_left (List.not_mem_nil)
  | cons p l ih =>
    rw [List.foldlM_cons, bind_ok_iff] at h
    obtain ⟨s₁,hone,hrest⟩ := h
    simp only [List.length_cons] at hlow
    obtain ⟨hp,hnd'⟩ := List.nodup_cons.1 hnd
    obtain ⟨label₁,B₁,hlow₁,hother⟩ := process_setup_ok hK B (hslots p (by simp))
      (hstate p (by simp)) (by omega) hone
    refine ih (fun q hq => hslots q (by simp [hq])) hnd' B₁ (fun q hq => ?_) (by omega) hrest ?_
    · have hne : q.1 ≠ p.1 := fun h => hp (List.mem_map.2 ⟨q,hq,h⟩)
      rw [hother q.1 hne]
      exact hstate q (by simp [hq])
    · by_cases hpp : pid = p.1
      · right
        rw [hpp]
        exact setup_runnable hone
      · rw [hother pid hpp]
        rw [List.map_cons, List.mem_cons] at hpid
        rcases hpid with (h | h) | h
        · exact absurd h hpp
        · exact Or.inl h
        · exact Or.inr h

/-- Process 1 is runnable when `kernel` runs it. -/
theorem boot_runnable (hK : Loadable K) {command : Option String} {s₀ : KState}
    (h : kernel_setup K command s₀ = .ok s) : (s.processes 1).p_state = .P_RUNNABLE := by
  obtain ⟨m,hinit,B,hprocs,hpages⟩ := initial_booting K s₀
  obtain ⟨s₁,h₁,hfold⟩ := (bind_ok_iff _ _ _).1 h
  rw [hinit, Except.ok.injEq] at h₁
  rw [← h₁] at hfold
  obtain ⟨hslots,hnd,hlen⟩ := boot_programs_slots command
  have hlow := initial_low hpages
  refine setups_runnable hK _ hslots hnd B (fun p hp => ?_) (by omega) hfold (Or.inl ?_)
  · rw [hprocs p.1 (hslots p hp).2]
  · rw [boot_programs]
    split
    · decide
    · split <;> decide

end Run

section States

/-- One step in the life of a slot. -/
inductive Moves : procstate → procstate → Prop where
  | stays (st : procstate) : Moves st st
  | starts : Moves .P_FREE .P_RUNNABLE
  | breaks : Moves .P_RUNNABLE .P_BROKEN

/-- A child's slot after the exception. -/
theorem newborn (E : Effect K reg label s label' s') (I : KInv K label s)
    (hslot : free_slot s = some pid) : s'.processes pid = s.processes pid ∨
      (s'.processes pid).p_state = .P_RUNNABLE := by
  have hne := slot_ne_current I hslot
  have hrax : ∀ (t : KState) (res : ℤ), (t.setRax s.current res).processes pid = t.processes pid :=
    fun t res => setRax_other t res hne
  cases E with
  | getpid hno => exact Or.inl (hrax _ _)
  | yield hno => exact Or.inl rfl
  | timer hno => exact Or.inl rfl
  | fault hno huser => exact Or.inl (by simp [KState.setState, KState.setProc, hne])
  | refused hno hfree => exact Or.inl (hrax _ _)
  | alloc hno hva hres hmap A => exact Or.inl (by rw [hrax, A.processes])
  | noSlot hno hnone =>
    rw [hslot] at hnone
    cases hnone
  | rootless hno hslot' hfree =>
    rw [hslot, Option.some.injEq] at hslot'
    rw [hrax, ← hslot', nullChild_child]
    exact Or.inr rfl
  | unfinished hno hslot' hroot hshort F =>
    rw [hslot, Option.some.injEq] at hslot'
    rw [hrax, F.procs, hslot', Function.update_self]
    exact Or.inr rfl
  | forked hno hslot' hcount F C =>
    rw [hslot, Option.some.injEq] at hslot'
    right
    rw [← hslot', setRax_self]
    change ((KState.setRax _ s.current _).processes pid).p_state = _
    rw [hrax, F.procs, hslot', Function.update_self]

theorem handling_moves (X : Executing K label s)
    (H : Handling K reg label label' s t u out) (pid : ℕ) :
    Moves (s.processes pid).p_state (out.state.processes pid).p_state := by
  rw [(Leaves.quiet H.leaves).2]
  have hcur := H.entered.current
  by_cases hp : pid = s.current
  · subst hp
    have hrun := X.runnable
    have hstate := entered_runnable X H.entered
    rcases H.effect.self H.inv with ⟨v,-,h⟩ | ⟨-,h⟩ | ⟨-,h⟩
    · rw [← hcur, h, hstate, hcur, hrun]
      exact .stays _
    · rw [← hcur, h, hstate, hcur, hrun]
      exact .stays _
    · rw [← hcur, h, hcur, hrun]
      exact .breaks
  · have hkeep := H.entered.others pid hp
    rw [← hkeep]
    by_cases hslot : free_slot t = some pid
    · rcases newborn H.effect H.inv hslot with h | h
      · rw [h]
        exact .stays _
      · rw [h, (free_slot_some hslot).2.1]
        exact .starts
    · rw [H.effect.process (hcur ▸ hp) hslot]
      exact .stays _

/-- States that slots can have: never blocked, and broken only with a page table. -/
def Slots (s : KState) : Prop :=
  ∀ pid < NPROC, (s.processes pid).p_state ≠ .P_BLOCKED ∧
    ((s.processes pid).p_state = .P_BROKEN → (s.processes pid).p_pagetable ≠ NULL)

theorem handling_slots (X : Executing K label s) (H : Handling K reg label label' s t u out)
    (h : Slots s) : Slots out.state := by
  intro pid hpid
  obtain ⟨hblocked,hbroken⟩ := h pid hpid
  have hmove := handling_moves X H pid
  have hcur := H.entered.current
  by_cases hp : pid = s.current
  · subst hp
    have hnull := X.inv.current_live.2
    have htable : (out.state.processes s.current).p_pagetable =
        (s.processes s.current).p_pagetable := by
      rw [(Leaves.quiet H.leaves).2, ← hcur]
      rcases H.effect.self H.inv with ⟨v,-,h⟩ | ⟨-,h⟩ | ⟨-,h⟩
      · rw [h, hcur, H.entered.process]
      · rw [h, hcur, H.entered.process]
      · rw [h, hcur, H.entered.process]
    refine ⟨?_,fun _ => htable ▸ hnull⟩
    rw [X.runnable] at hmove
    generalize (out.state.processes s.current).p_state = st at hmove
    cases hmove with
    | stays => exact procstate.noConfusion
    | breaks => exact procstate.noConfusion
  · have hkeep := H.entered.others pid hp
    rw [(Leaves.quiet H.leaves).2]
    by_cases hslot : free_slot t = some pid
    · rcases newborn H.effect H.inv hslot with h | h
      · rw [h, hkeep]
        exact ⟨hblocked,hbroken⟩
      · rw [h]
        exact ⟨procstate.noConfusion,procstate.noConfusion⟩
    · rw [H.effect.process (hcur ▸ hp) hslot, hkeep]
      exact ⟨hblocked,hbroken⟩

theorem booted_slots (B : Booted K label s) : Slots s := by
  intro pid hpid
  by_cases hfree : (s.processes pid).p_state = .P_FREE
  · rw [hfree]
    exact ⟨procstate.noConfusion,procstate.noConfusion⟩
  · have hp : Slot pid := ⟨Nat.pos_of_ne_zero fun h => hfree (h ▸ B.inv.slot0),hpid⟩
    rw [(B.runnable pid hp hfree).1]
    exact ⟨procstate.noConfusion,procstate.noConfusion⟩

theorem run_slots (hK : Loadable K) (R : Run K allow out) : Slots out.state := by
  obtain ⟨label,s,B,X,-,C⟩ := R.split hK
  obtain ⟨-,-,h,-⟩ := continues_keeps (P := fun _ t => Slots t) X (booted_slots B)
    (fun _ _ _ _ _ _ _ _ X H h => handling_slots X H h) (fun _ _ _ _ _ _ _ _ h => h) C
  exact h

end States

section Broken

/-- Everything a broken process has is as it was in `s`. -/
structure Retired (s : KState) (pid : ℕ) (out : Outcome) : Prop where
  slot : out.state.processes pid = s.processes pid
  space : ∀ va, translation out.state pid va = translation s pid va
  pages : ∀ pn < NPAGES, s.pageinfo pn = ⟨pid,1⟩ → out.state.pageinfo pn = ⟨pid,1⟩ ∧
    Agree s.mem out.state.mem (pn*PAGESIZE) PAGESIZE
  off : ∀ t, out = .user t → t.current ≠ pid

/-- The part that single steps keep. -/
structure Resting (s : KState) (pid : ℕ) (t : KState) : Prop where
  slot : t.processes pid = s.processes pid
  pages : ∀ pn < 512, s.pageinfo pn = ⟨pid,1⟩ → t.pageinfo pn = ⟨pid,1⟩ ∧
    Agree s.mem t.mem (pn*4096) 4096

theorem broken_other (X : Executing K label t)
    (hbroken : (t.processes pid).p_state = .P_BROKEN) : pid ≠ t.current := by
  rintro rfl
  rw [X.runnable] at hbroken
  cases hbroken

theorem resting_step {v : KState} (hbroken : (s.processes pid).p_state = .P_BROKEN)
    (X : Executing K label t) (H : Handling K reg label label' t u v out)
    (h : Resting s pid t) : Resting s pid out.state := by
  have hstate : (t.processes pid).p_state = .P_BROKEN := by rw [h.slot, hbroken]
  have hne := broken_other X hstate
  have hcur := H.entered.current
  have hslot : free_slot u ≠ some pid := by
    intro hslot
    have hfree := (free_slot_some hslot).2.1
    rw [H.entered.others pid hne, hstate] at hfree
    cases hfree
  constructor
  · rw [(Leaves.quiet H.leaves).2, H.effect.process (hcur ▸ hne) hslot,
      H.entered.others pid hne, h.slot]
  · intro pn hpn hinfo
    obtain ⟨hown,hbytes⟩ := h.pages pn hpn hinfo
    have hused : t.pageinfo pn ≠ freeInfo := by
      rw [hown]
      exact info_ne_free _
    have B : Bystander u pn := by
      rw [← H.entered.quiet.pageinfo] at hown hused
      refine ⟨hused,?_,fun i hi heq => ?_⟩
      · rw [hown, hcur]
        exact fun heq => hne (Int.ofNat.inj heq)
      · rw [hown] at heq
        exact hslot (Int.ofNat.inj heq ▸ hi)
    exact ⟨by rw [handling_entries H pn hpn hused, hown],hbytes.trans (handling_kept H B)⟩

theorem resting_store {m : Memory} {va : ℕ} {c : UInt8}
    (hbroken : (s.processes pid).p_state = .P_BROKEN) (X : Executing K label t)
    (S : Isolated (rootsOf K t) label t) (hst : user_store va c t = some { t with mem := m })
    (h : Resting s pid t) : Resting s pid { t with mem := m } := by
  have hstate : (t.processes pid).p_state = .P_BROKEN := by rw [h.slot, hbroken]
  have hne := broken_other X hstate
  refine ⟨h.slot,fun pn hpn hinfo => ?_⟩
  obtain ⟨hown,hbytes⟩ := h.pages pn hpn hinfo
  refine ⟨hown,hbytes.trans (store_kept X S hst ?_ ?_)⟩
  · -- the console page is reserved
    intro hcon
    have hpage : pn = 0xB8 := by
      simp only [console] at hcon
      omega
    have hentry : pageinfo_init_entry K (0xB8*4096) = ⟨PO_RESERVED,1⟩ := rfl
    rw [hpage, X.inv.paging.marked 0xB8 (by decide) (by rw [hentry]; decide), hentry] at hown
    have ho : PO_RESERVED = (pid : ℤ) := congrArg physical_pageinfo.owner hown
    simp only [PO_RESERVED] at ho
    omega
  · rw [hown]
    exact fun heq => hne (Int.ofNat.inj heq)

theorem broken_retired (X : Executing K label s) (S : Isolated (rootsOf K s) label s)
    (hslots : Slots s) (hpid : pid < NPROC) (hbroken : (s.processes pid).p_state = .P_BROKEN)
    (C : Continues K InWindow s out) : Retired s pid out := by
  suffices h : ∃ label', KInv K label' out.state ∧ Isolated (rootsOf K out.state) label' out.state ∧
      Resting s pid out.state ∧ ∀ t, out = .user t → Executing K label' t by
    obtain ⟨label',I',-,hrest,hx⟩ := h
    have hl : live s pid := ⟨by rw [hbroken]; exact procstate.noConfusion,
      (hslots pid hpid).2 hbroken⟩
    have hp := live_slot X.inv hpid hl
    have hl' : live out.state pid := by
      rw [live, hrest.slot]
      exact hl
    refine ⟨hrest.slot,fun va => ?_,fun pn hpn hinfo => hrest.pages pn hpn hinfo,fun t ht => ?_⟩
    · rw [translation, translation, I'.lookup hp hl', X.inv.lookup hp hl, hrest.slot]
      -- the tables are pages of the process
      have hleaf : leafWord out.state.mem (s.processes pid).p_pagetable va =
          leafWord s.mem (s.processes pid).p_pagetable va :=
        X.inv.paging.forest.leaf_congr (X.inv.root hp hl) (by simp) fun n q i hn => by
          obtain ⟨hlt,hinfo⟩ := X.inv.paging.owned n _ hn
          have hbytes := (hrest.pages (n / 4096) (by omega) hinfo).2
          have halign := X.inv.paging.aligned hn
          have hn' : n / 4096*4096 = n := by omega
          rw [hn'] at hbytes
          exact entry_congr _ _ _ i.isLt hbytes
      rw [hleaf]
    · rw [ht] at hrest
      exact (broken_other (hx t ht) (hrest.slot ▸ hbroken)).symm
  exact window_keeps (P := fun _ t => Resting s pid t) X S
    ⟨rfl,fun _ _ hinfo => ⟨hinfo,Agree.refl _ _ _⟩⟩
    (fun _ _ _ _ _ _ _ X _ H h => resting_step hbroken X H h)
    (fun _ _ _ _ _ X S hst _ h => resting_store hbroken X S hst h) C

end Broken

/-- The slots in a state of a run. -/
structure Slotted (s : KState) : Prop where
  slot0 : (s.processes 0).p_state = .P_FREE
  pids : ∀ pid < NPROC, (s.processes pid).p_pid = pid
  blocked : ∀ pid < NPROC, (s.processes pid).p_state ≠ .P_BLOCKED

/-- The next step from a state of a run, and what follows for broken processes. -/
structure Lives (K : KernelImage) (s : KState) : Prop where
  exceptions : ∀ reg out, InWindow s reg → exception K reg s = .ok out → ∀ pid < NPROC,
    Moves (s.processes pid).p_state (out.state.processes pid).p_state
  stores : ∀ va c s', user_store va c s = some s' → s'.processes = s.processes
  runs : ∀ reg, InWindow s reg → exception K reg s ≠ .error runAssert
  broken : ∀ pid < NPROC, (s.processes pid).p_state = .P_BROKEN → ∀ out,
    Continues K InWindow s out → Retired s pid out

/-- Processes live and die in order along every run. -/
theorem process_life_cycle (hK : Loadable K) :
    (∀ command s₀ s, kernel_setup K command s₀ = .ok s → (s.processes 1).p_state = .P_RUNNABLE) ∧
      (∀ out, Run K InWindow out → Slotted out.state) ∧
      ∀ s, Run K InWindow (.user s) → Lives K s := by
  refine ⟨fun _ _ _ h => boot_runnable hK h,fun out R => ?_,fun s R => ?_⟩
  · obtain ⟨label,I,-⟩ := run_inv hK R
    exact ⟨I.slot0,I.pids,fun pid hpid => (run_slots hK R pid hpid).1⟩
  obtain ⟨label,-,S,hx⟩ := run_isolated hK R
  have X := hx s rfl
  have hslots := run_slots hK R
  refine ⟨fun reg out _ h pid _ => ?_,fun va c s' h => ?_,fun reg hwin => exception_ne X hwin,
    fun pid hpid hbroken out C => broken_retired X S hslots hpid hbroken C⟩
  · obtain ⟨label',s₁,s₂,H⟩ := exception_cases X h
    exact handling_moves X H pid
  · obtain ⟨m,rfl,-⟩ := store_tables X h
    rfl

theorem sample_lives : ∃ s, kernel sampleKernel (some "fork") powerOn = .ok (.user s) ∧
    Slotted s ∧ Lives sampleKernel s := by
  obtain ⟨-,s,hboot,-⟩ := sample_boot powerOn
  obtain ⟨-,hslotted,hlives⟩ := process_life_cycle sample_loadable
  exact ⟨s,hboot,hslotted _ (.boot hboot),hlives s (.boot hboot)⟩

end WeensyOS.LifeCycle
