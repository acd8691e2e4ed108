import WeensyOS.Exhaustion

/-!
# Round-robin scheduling

`schedule` takes the first runnable process after the current one in cyclic
order. The slots between the current process and a runnable one become fewer
with every pick, whatever happens in between, so nobody waits for long.
-/

set_option autoImplicit false

namespace WeensyOS.Scheduling
open WeensyOS.FlatMemory WeensyOS.KernelState WeensyOS.PageTables WeensyOS.Exceptions
open WeensyOS.Boot WeensyOS.CheckedRuns WeensyOS.PagingInvariant WeensyOS.KernelInvariant
open WeensyOS.KernelSteps WeensyOS.ProgramLoading WeensyOS.BootResult WeensyOS.BootRun
open WeensyOS.Effects WeensyOS.Runs WeensyOS.PrivateRuns WeensyOS.SelfChecks
open WeensyOS.Exhaustion

variable {K : KernelImage} {allow : KState → x86_64_registers → Prop} {label : Labels}
  {s t t' u : KState} {reg : x86_64_registers} {l : List ℕ} {p q n : ℕ}

abbrev Runnable (s : KState) (pid : ℕ) : Prop := (s.processes pid).p_state = .P_RUNNABLE

/-- `q` is the first runnable process after `p`, and it is found by the probe `k`. -/
structure FirstAfter (s : KState) (p k q : ℕ) : Prop where
  pos : 0 < k
  probes : k ≤ NPROC
  slot : q = (p+k) % NPROC
  runnable : Runnable s q
  skipped : ∀ j, 0 < j → j < k → ¬Runnable s ((p+j) % NPROC)

section Loop

/-- The probes of the loop, one by one. -/
theorem schedule_loop_first (n : ℕ) {p j : ℕ} (hj : 0 < j) (hjn : j ≤ n)
    (hrun : Runnable s ((p+j) % NPROC)) : ∃ k q, 0 < k ∧ k ≤ j ∧ q = (p+k) % NPROC ∧ Runnable s q ∧
      (∀ i, 0 < i → i < k → ¬Runnable s ((p+i) % NPROC)) ∧ schedule_loop s n p = some q := by
  induction n generalizing p j with
  | zero => omega
  | succ n ih =>
    rw [schedule_loop]
    by_cases hfirst : Runnable s ((p+1) % NPROC)
    · refine ⟨1,_,one_pos,hj,rfl,hfirst,fun i hi hi' => ?_,if_pos hfirst⟩
      omega
    · have hj1 : j ≠ 1 := fun h => hfirst (h ▸ hrun)
      have hmod : ∀ i, ((p+1) % NPROC+i) % NPROC = (p+(i+1)) % NPROC := fun i => by
        rw [Nat.mod_add_mod, Nat.add_assoc, Nat.add_comm 1]
      obtain ⟨k,q,hk,hkj,hq,hqrun,hskip,hloop⟩ := ih (p := (p+1) % NPROC) (j := j-1) (by omega)
        (by omega) (by rw [hmod, Nat.sub_add_cancel (by omega)]; exact hrun)
      refine ⟨k+1,q,by omega,by omega,by rw [hq, hmod],hqrun,fun i hi hik => ?_,?_⟩
      · by_cases hi1 : i = 1
        · rw [hi1]
          exact hfirst
        · have h := hskip (i-1) (by omega) (by omega)
          rw [hmod, Nat.sub_add_cancel (by omega)] at h
          exact h
      · rw [← hloop]
        exact if_neg hfirst

/-- The probe that reaches a slot. -/
theorem probe_reaches (c : ℕ) {pid : ℕ} (hpid : pid < NPROC) :
    ∃ j, 0 < j ∧ j ≤ NPROC ∧ (c+j) % NPROC = pid := by
  simp only [NPROC] at hpid ⊢
  by_cases h : pid = c % 16
  · exact ⟨16,by decide,by decide,by omega⟩
  · exact ⟨(pid+16-c % 16) % 16,by omega,by omega,by omega⟩

theorem schedule_loop_reaches (c : ℕ) {pid : ℕ} (hpid : pid < NPROC) (hrun : Runnable s pid) :
    ∃ k q, FirstAfter s c k q ∧ schedule_loop s NPROC c = some q := by
  obtain ⟨j,hj,hjn,hslot⟩ := probe_reaches c hpid
  rw [← hslot] at hrun
  obtain ⟨k,q,hk,hkj,hq,hqrun,hskip,hloop⟩ := schedule_loop_first NPROC hj hjn hrun
  exact ⟨k,q,⟨hk,hkj.trans hjn,hq,hqrun,hskip⟩,hloop⟩

/-- Where some process is runnable, `schedule` runs the first one in cyclic order. -/
theorem schedule_first {pid : ℕ} (hpid : pid < NPROC) (hrun : Runnable s pid) : ∃ k q,
    FirstAfter s (s.processes s.current).p_pid k q ∧ schedule K s = run K q s := by
  obtain ⟨k,q,F,hloop⟩ := schedule_loop_reaches (s.processes s.current).p_pid hpid hrun
  refine ⟨k,q,F,?_⟩
  rw [schedule, hloop]

theorem yield_schedules (hno : reg.reg_intno = INT_SYS_YIELD)
    (henter : exception_enter K reg s = .ok t) : exception K reg s = schedule K t := by
  rw [exception, henter]
  change exception_handle K reg t = _
  rw [exception_handle, hno]
  rfl

/-- A yield resumes the first runnable process. -/
theorem yield_resumes (S : Sound K label s) (X : Executing K label s) (reg : x86_64_registers) :
    ∃ t k q, exception_enter K reg s = .ok t ∧ Entered reg s t ∧ FirstAfter t s.current k q ∧
      Slot q ∧ schedule K t = .ok (.user (resumed t q)) ∧ Sound K label (resumed t q) ∧
      Executing K label (resumed t q) := by
  obtain ⟨t,henter⟩ := exception_enter_ok S.inv reg fun _ => S.mapped
  obtain ⟨-,E⟩ := exception_enter_cases S.inv henter
  have S₁ := S.quiet E.quiet E.current
  have I := S₁.inv
  obtain ⟨k,q,F,hsched⟩ := schedule_first (K := K) I.current_slot.2 (entered_runnable X E)
  rw [I.pids _ I.current_slot.2, E.current] at F
  have hrun := F.runnable
  have hpos : 0 < q := Nat.pos_of_ne_zero fun h => by
    rw [h, Runnable, I.slot0] at hrun
    cases hrun
  have hlt : q < NPROC := by
    rw [F.slot]
    exact Nat.mod_lt _ (by decide)
  have hlive := S₁.started q ⟨hpos,hlt⟩ (by rw [hrun]; decide)
  obtain ⟨out,hout⟩ := S₁.schedule
  have hresumed : out = .user (resumed t q) := by
    rw [hsched] at hout
    exact ((run_iff I ⟨hpos,hlt⟩ hlive out).1 hout).2.2
  subst hresumed
  have Q : Quiet t (resumed t q) := ⟨rfl,rfl,fun _ => ⟨Iff.rfl,rfl,rfl⟩⟩
  have I' := I.quiet Q ⟨hpos,hlt⟩ hlive
  exact ⟨t,k,q,henter,E,F,⟨hpos,hlt⟩,hout,⟨I',isolated_quiet S₁.isolated Q,S₁.started⟩,
    I',hrun,rfl⟩

/-- A yield of a process that is alone comes back to it. -/
theorem solo_yield (S : Solo K label s) (reg : x86_64_registers) : ∃ t s',
    exception_enter K reg s = .ok t ∧ schedule K t = .ok (.user s') ∧ Solo K label s' ∧
      s'.current = s.current := by
  obtain ⟨t,k,q,henter,E,F,hq,hout,S',X'⟩ := yield_resumes S.sound S.executing reg
  have hself : q = s.current := by
    by_contra hne
    have hrun := F.runnable
    rw [Runnable, E.others q hne, S.alone q hq hne] at hrun
    cases hrun
  refine ⟨t,_,henter,hout,⟨S',X',fun pid hp hne => ?_⟩,hself⟩
  change pid ≠ q at hne
  rw [hself] at hne
  exact (congrArg proc.p_state (E.others pid hne)).trans (S.alone pid hp hne)

end Loop

section Distance

/-- How many of the slots 1 to 15 lie after `c` up to `p`, going round. -/
def gap (c p : ℕ) : ℕ := (p+14-c) % 15+1

theorem gap_pos (c p : ℕ) : 0 < gap c p := Nat.succ_pos _

theorem gap_le (c p : ℕ) : gap c p < NPROC := by
  simp only [gap, NPROC]
  omega

/-- A pick of another process brings the runnable process `p` closer. -/
theorem gap_pick {c k : ℕ} (F : FirstAfter s c k q) (hc : Slot c) (hq : Slot q) (hp : Slot p)
    (hrun : Runnable s p) (hne : q ≠ p) : gap q p < gap c p := by
  obtain ⟨j,hj,hjn,hslot⟩ := probe_reaches c hp.2
  have hkj : k < j := by
    rcases Nat.lt_trichotomy k j with h | h | h
    · exact h
    · exact absurd (F.slot.trans (h ▸ hslot)) hne
    · exact absurd (hslot.symm ▸ hrun) (F.skipped j hj h)
  have hqslot := F.slot
  have hk := F.pos
  obtain ⟨hc0,hc1⟩ := hc
  obtain ⟨hq0,hq1⟩ := hq
  obtain ⟨hp0,hp1⟩ := hp
  simp only [NPROC] at *
  have hjc : j = p-c ∨ j = p+16-c := by omega
  have hkc : k = q-c ∨ k = q+16-c := by omega
  simp only [gap]
  omega

end Distance

section Picks

/-- `schedule` is called on the way out of an exception. -/
abbrev Reschedules (reg : x86_64_registers) (u : KState) : Prop :=
  Switches reg ∨ ¬Runnable u u.current

/-- An exception, with the call that ends it. -/
theorem exception_split {out : Outcome} : exception K reg s = .ok out ↔ ∃ t u,
    exception_enter K reg s = .ok t ∧ exception_switch reg t = .ok u ∧
      (if Reschedules reg u then schedule K u else run K u.current u) = .ok out := by
  have hleave : ∀ u, (if Switches reg then schedule K u else exception_leave K u) =
      if Reschedules reg u then schedule K u else run K u.current u := by
    intro u
    by_cases hswitch : Switches reg
    · rw [if_pos hswitch, if_pos (Or.inl hswitch)]
    · rw [if_neg hswitch, exception_leave]
      by_cases hrun : Runnable u u.current
      · rw [if_pos hrun, if_neg (fun h => h.elim hswitch fun h => h hrun)]
      · rw [if_neg hrun, if_pos (Or.inr hrun)]
  simp only [exception, bind_ok_iff, exception_handle_eq, hleave]
  constructor
  · rintro ⟨t,henter,u,hswitch,hout⟩
    exact ⟨t,u,henter,hswitch,hout⟩
  · rintro ⟨t,u,henter,hswitch,hout⟩
    exact ⟨t,henter,u,hswitch,hout⟩

/-- A run from `s` in which `p` stays runnable, with the processes that `schedule` has picked. -/
inductive Picks (K : KernelImage) (allow : KState → x86_64_registers → Prop) (p : ℕ)
    (s : KState) : List ℕ → KState → Prop where
  | refl (hrun : Runnable s p) : Picks K allow p s [] s
  | stay {l : List ℕ} {t t₁ u t' : KState} {reg : x86_64_registers} (P : Picks K allow p s l t)
    (hallow : allow t reg) (henter : exception_enter K reg t = .ok t₁)
    (hswitch : exception_switch reg t₁ = .ok u) (hstay : ¬Reschedules reg u)
    (hout : run K u.current u = .ok (.user t')) (hrun : Runnable t' p) : Picks K allow p s l t'
  | pick {l : List ℕ} {t t₁ u t' : KState} {reg : x86_64_registers} (P : Picks K allow p s l t)
    (hallow : allow t reg) (henter : exception_enter K reg t = .ok t₁)
    (hswitch : exception_switch reg t₁ = .ok u) (hcall : Reschedules reg u)
    (hout : schedule K u = .ok (.user t')) (hrun : Runnable t' p) :
    Picks K allow p s (l++[t'.current]) t'
  | store {l : List ℕ} {t t' : KState} {va : ℕ} {c : UInt8} (P : Picks K allow p s l t)
    (h : user_store va c t = some t') (hrun : Runnable t' p) : Picks K allow p s l t'

theorem Picks.runnable (P : Picks K allow p s l t) : Runnable t p := by
  cases P with
  | refl hrun => exact hrun
  | stay _ _ _ _ _ _ hrun => exact hrun
  | pick _ _ _ _ _ _ hrun => exact hrun
  | store _ _ hrun => exact hrun

theorem Picks.run (P : Picks K allow p s l t) (R : Run K allow (.user s)) :
    Run K allow (.user t) := by
  induction P with
  | refl _ => exact R
  | stay _ hallow henter hswitch hstay hout _ ih =>
    exact .exception ih hallow
      (exception_split.2 ⟨_,_,henter,hswitch,by rw [if_neg hstay]; exact hout⟩)
  | pick _ hallow henter hswitch hcall hout _ ih =>
    exact .exception ih hallow
      (exception_split.2 ⟨_,_,henter,hswitch,by rw [if_pos hcall]; exact hout⟩)
  | store _ h _ ih => exact .store ih h

theorem run_user (h : run K q u = .ok (.user t)) : t.current = q ∧ t.processes = u.processes := by
  rw [Exceptions.run] at h
  obtain ⟨-,h⟩ := (seq_ok_iff _ _ _).1 h
  obtain ⟨u',hset,hout⟩ := (bind_ok_iff _ _ _).1 h
  rw [set_pagetable_ok hset] at hout
  cases hout
  exact ⟨rfl,rfl⟩

/-- The state in which the way out is chosen. -/
theorem switched (X : Executing K label t) {t₁ : KState} (henter : exception_enter K reg t = .ok t₁)
    (hswitch : exception_switch reg t₁ = .ok u) : ∃ label', KInv K label' u ∧
      u.current = t.current := by
  obtain ⟨-,E⟩ := exception_enter_cases X.inv henter
  have I := entered_inv X E
  obtain ⟨label',F⟩ := exception_switch_effect I hswitch
  obtain ⟨-,-,-,hcur⟩ := F.change I.current_live
  exact ⟨label',F.inv I,hcur.trans E.current⟩

/-- Every pick of another process brings `p` closer, and nothing takes it further away. -/
theorem Picks.closer (hK : Loadable K) (R : Run K allow (.user s)) (hp : p < NPROC)
    (P : Picks K allow p s l t) : p ∈ l ∨ gap t.current p+l.length ≤ gap s.current p := by
  induction P with
  | refl _ => exact Or.inr le_rfl
  | @stay l t t₁ u t' reg P hallow henter hswitch hstay hout hrun ih =>
    obtain ⟨label,X⟩ := run_executing hK (P.run R)
    obtain ⟨label',I,hcur⟩ := switched X henter hswitch
    have hsame : t'.current = t.current := (run_user hout).1.trans hcur
    rw [hsame]
    exact ih
  | @pick l t t₁ u t' reg P hallow henter hswitch hcall hout hrun ih =>
    obtain ⟨label,X⟩ := run_executing hK (P.run R)
    obtain ⟨label',I,hcur⟩ := switched X henter hswitch
    rw [List.mem_append, List.mem_singleton, List.length_append, List.length_singleton]
    rcases ih with hin | hgap
    · exact Or.inl (Or.inl hin)
    · by_cases hpick : p = t'.current
      · exact Or.inl (Or.inr hpick)
      · right
        -- `p` is runnable where the pick is made
        have hpu : Runnable u p := by
          cases hloop : schedule_loop u NPROC (u.processes u.current).p_pid with
          | none =>
            rw [schedule, hloop] at hout
            cases hout
          | some q =>
            rw [schedule, hloop] at hout
            rw [Runnable, ← (run_user hout).2]
            exact hrun
        obtain ⟨k,q,F,hsched⟩ := schedule_first (K := K) hp hpu
        rw [hsched] at hout
        obtain ⟨hq,-⟩ := run_user hout
        rw [I.pids _ I.current_slot.2, hcur] at F
        have hslot : ∀ i < NPROC, Runnable u i → Slot i := fun i hi hrun => by
          refine ⟨Nat.pos_of_ne_zero fun h => ?_,hi⟩
          rw [h, Runnable, I.slot0] at hrun
          cases hrun
        have hqslot := hslot q (by rw [F.slot]; exact Nat.mod_lt _ (by decide)) F.runnable
        have hless := gap_pick F (hcur ▸ I.current_slot) hqslot (hslot p hp hpu) hpu
          fun h => hpick (h ▸ hq.symm)
        rw [hq]
        omega
  | @store l t t' va c P h hrun ih =>
    have hsame : t'.current = t.current := by
      obtain ⟨label,X⟩ := run_executing hK (P.run R)
      obtain ⟨m,rfl,-⟩ := store_tables X h
      rfl
    rw [hsame]
    exact ih

end Picks

/-- `schedule` runs the first runnable process after the current one, and among any fifteen
picks in a row is every process that stays runnable. -/
theorem schedule_round_robin (hK : Loadable K) :
    (∀ (s : KState) (pid : ℕ), pid < NPROC → Runnable s pid → ∃ k q,
      FirstAfter s (s.processes s.current).p_pid k q ∧ schedule K s = run K q s) ∧
    ∀ s, Run K Any (.user s) → (s.processes s.current).p_pid = s.current ∧
      ∀ p < NPROC, ∀ l t, Picks K Any p s l t → NPROC-1 ≤ l.length → p ∈ l := by
  refine ⟨fun s pid hpid hrun => schedule_first hpid hrun,fun s R => ⟨?_,fun p hp l t P hlen => ?_⟩⟩
  · obtain ⟨label,X⟩ := run_executing hK R
    exact X.inv.pids _ X.inv.current_slot.2
  · rcases P.closer hK R hp with hin | hgap
    · exact hin
    · have hpos := gap_pos t.current p
      have hle := gap_le s.current p
      simp only [NPROC] at hle hlen
      omega

section Sample

variable {label : Labels}

/-- It can be picked any number of times. -/
theorem solo_picks (S : Solo K label s) (n : ℕ) : ∃ label' l t,
    Picks K Any s.current s l t ∧ Solo K label' t ∧ t.current = s.current ∧ l.length = n := by
  induction n with
  | zero => exact ⟨label,[],s,.refl S.executing.runnable,S,rfl,rfl⟩
  | succ n ih =>
    obtain ⟨label₁,l,t,P,S₁,hcur,hlen⟩ := ih
    obtain ⟨t₁,t',henter,hsched,S₂,hcur'⟩ := solo_yield S₁ (syscall INT_SYS_YIELD 0)
    have hrun : Runnable t' s.current := by
      rw [← hcur, ← hcur']
      exact S₂.executing.runnable
    refine ⟨label₁,l++[t'.current],t',
      .pick P trivial henter rfl (Or.inl (Or.inl rfl)) hsched hrun,S₂,hcur'.trans hcur,?_⟩
    rw [List.length_append, hlen, List.length_singleton]

/-- Fifteen picks of the sample kernel. -/
theorem first_process_picked : ∃ s l t, Run sampleKernel Any (.user s) ∧
    Picks sampleKernel Any 1 s l t ∧ l.length = NPROC-1 ∧ 1 ∈ l := by
  obtain ⟨label,s,hboot,S,hcur,-⟩ := sample_solo powerOn
  obtain ⟨label',l,t,P,-,-,hlen⟩ := solo_picks S (NPROC-1)
  rw [hcur] at P
  have hpick := ((schedule_round_robin sample_loadable).2 s (.boot hboot)).2
  exact ⟨s,l,t,.boot hboot,P,hlen,hpick 1 (by decide) l t P hlen.ge⟩

end Sample

end WeensyOS.Scheduling
