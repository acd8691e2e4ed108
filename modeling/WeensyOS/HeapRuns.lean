import WeensyOS.UserPrograms
import WeensyOS.Refinement

/-!
# The user programs on the kernel

The processes run p-allocator.c or p-fork.c, with timer interrupts and page
faults anywhere. In every interleaving they ask only for pages of the user
window, and the heap of each process holds what that process has written.
-/

set_option autoImplicit false

namespace WeensyOS.HeapRuns
open WeensyOS.FlatMemory WeensyOS.KernelState WeensyOS.PageTables WeensyOS.PageAllocator
open WeensyOS.Exceptions WeensyOS.Boot WeensyOS.TableWords WeensyOS.FreePages
open WeensyOS.PagingInvariant WeensyOS.TableCopies WeensyOS.KernelInvariant WeensyOS.KernelSteps
open WeensyOS.ForkResult WeensyOS.AllocResult WeensyOS.Isolation WeensyOS.BootResult
open WeensyOS.BootRun WeensyOS.Effects WeensyOS.Runs WeensyOS.PrivateRuns WeensyOS.FreshPages
open WeensyOS.PageMaps WeensyOS.SelfChecks WeensyOS.Exhaustion
open WeensyOS.TransitionSystems WeensyOS.TimeSharing WeensyOS.MachineView WeensyOS.Refinement
open WeensyOS.UserPrograms WeensyOS.Scheduling

/-- The programs of the processes, by slot. -/
abbrev Programs := ℕ → Program

/-- Stores to the program's own data and stack, outside the heap. -/
def Scratch (q : Program) (va : ℕ) : Prop :=
  va % 2^48 < q.heap ∨ MEMSIZE_VIRTUAL-PAGESIZE ≤ va % 2^48

/-- The result of a call as the program reads it, an `int` in `%rax`. -/
def resultOf (s : KState) (pid : ℕ) : ℤ :=
  toInt32 (s.processes pid).p_registers.reg_rax.toNat

/-- A fork returns twice. -/
def returned (P : Programs) (s : KState) (k : ℤ → Program) (out : Outcome) : Programs := fun pid =>
  if pid = s.current ∨ ((s.processes pid).p_state = .P_FREE ∧
      (out.state.processes pid).p_state ≠ .P_FREE) then k (resultOf out.state pid)
  else P pid

/-- The steps of the processes and of the hardware. -/
inductive UserMove (K : KernelImage) (allow : KState → x86_64_registers → Prop)
    (no_slowdown : Bool) : Moves (Outcome × Programs) (Option (ℕ × UserAction)) where
  | compute {s : KState} {P : Programs} {q : Program}
    (hq : (P s.current).next no_slowdown = .compute q) :
    UserMove K allow no_slowdown (.user s,P) none (.user s,Function.update P s.current q)
  | scratch {s s' : KState} {P : Programs} {va : ℕ} {c : UInt8} (hva : Scratch (P s.current) va)
    (h : user_store va c s = some s') :
    UserMove K allow no_slowdown (.user s,P) (some (s.current,.store va c)) (.user s',P)
  | store {s s' : KState} {P : Programs} {va : ℕ} {c : UInt8} {q : Program}
    (hq : (P s.current).next no_slowdown = .store va c q) (h : user_store va c s = some s') :
    UserMove K allow no_slowdown (.user s,P) (some (s.current,.store va c))
      (.user s',Function.update P s.current q)
  | call {s : KState} {P : Programs} {intno : UInt64} {rdi : Option ℕ} {k : ℤ → Program}
    {reg : x86_64_registers} {out : Outcome}
    (hq : (P s.current).next no_slowdown = .call intno rdi k) (hno : reg.reg_intno = intno)
    (hrdi : ∀ a, rdi = some a → reg.reg_rdi.toNat = a) (hallow : allow s reg)
    (h : exception K reg s = .ok out) :
    UserMove K allow no_slowdown (.user s,P) (some (s.current,.call reg)) (out,returned P s k out)
  | interrupt {s : KState} {P : Programs} {reg : x86_64_registers} {out : Outcome}
    (hno : reg.reg_intno = INT_TIMER ∨
      (reg.reg_intno = INT_PAGEFAULT ∧ reg.reg_err &&& PFERR_USER ≠ 0))
    (hallow : allow s reg) (h : exception K reg s = .ok out) :
    UserMove K allow no_slowdown (.user s,P) (some (s.current,.call reg)) (out,P)

variable {K : KernelImage} {allow : KState → x86_64_registers → Prop} {no_slowdown : Bool} {label : Labels} {s s' : KState}
  {P P' : Programs} {q : Program} {out out' : Outcome} {pid va : ℕ} {c : UInt8}
  {reg : x86_64_registers} {p : WindowPage}

/-- The program has set up its heap. -/
def Started (q : Program) : Prop :=
  q.point ∈ [.loop,.request,.write,.pause,.done]

instance (q : Program) : Decidable (Started q) := by
  unfold Started
  infer_instance

/-- What the process `pid` relies on, given the pages it sees. -/
structure Good (pid : ℕ) (q : Program) (space : ProcessSpace) : Prop where
  fits : LaidOut q
  early : ¬Started q → q.heap_top = 0
  late : Started q → q.p = pid ∧ q.stack_bottom = MEMSIZE_VIRTUAL-PAGESIZE ∧
    q.heap_top % 4096 = 0 ∧ q.heap ≤ q.heap_top ∧ q.heap_top ≤ q.stack_bottom
  below : q.point = .request ∨ q.point = .write → q.heap_top < q.stack_bottom
  filled : ∀ p, q.heap ≤ pageAddr p → pageAddr p < q.heap_top →
    ∃ page, space p = some page ∧ page 0 = UInt8.ofInt pid
  fresh : q.point = .write → ∀ p, pageAddr p = q.heap_top → space p ≠ none

section Deeds

theorem started_started (q : Program) (p : ℤ) : Started (q.started p) := by
  have hloop : Point.loop ∈ [Point.loop,.request,.write,.pause,.done] := by decide
  exact hloop

theorem started_p (q : Program) (p : ℤ) : (q.started p).p = p := rfl

/-- The heap is not set up yet, and the image is that of `q`. -/
structure Early (q q' : Program) : Prop where
  start : ¬Started q'
  symbol : q'.end_symbol = q.end_symbol
  stack : q'.rsp = q.rsp
  top : q'.heap_top = q.heap_top

theorem loop_point (A B : Prop) [Decidable A] [Decidable B] {x : Point}
    (hx : x = if ¬A then .pause else if B then .done else .request) :
    x = .pause ∨ (x = .done ∧ B) ∨ (x = .request ∧ ¬B) := by
  by_cases hA : A
  · rw [if_neg (not_not.2 hA)] at hx
    by_cases hB : B
    · rw [if_pos hB] at hx
      exact Or.inr (Or.inl ⟨hx,hB⟩)
    · rw [if_neg hB] at hx
      exact Or.inr (Or.inr ⟨hx,hB⟩)
  · rw [if_pos hA] at hx
    exact Or.inl hx

theorem next_compute {q' : Program} (h : q.next no_slowdown = .compute q') :
    (¬Started q ∧ Early q q') ∨ (q.point = .loop ∧ ∃ x random,
      q' = { q with point := x, random := random } ∧
      (x = .pause ∨ (x = .done ∧ q.heap_top = q.stack_bottom) ∨
        (x = .request ∧ q.heap_top ≠ q.stack_bottom))) := by
  have hassert : ∀ {x : Point}, q.point = x → x ∉ [.loop,.request,.write,.pause,.done] →
      ¬Started q := fun hx hmem => by rw [Started, hx]; exact hmem
  cases hpoint : q.point
  all_goals simp only [Program.next, hpoint, Deed.compute.injEq, reduceCtorEq] at h
  case firstAssert =>
    refine Or.inl ⟨hassert hpoint (by decide),?_⟩
    rw [← h]
    exact ⟨by simp only [Started]; split <;> decide,rfl,rfl,rfl⟩
  case secondAssert =>
    refine Or.inl ⟨hassert hpoint (by decide),?_⟩
    rw [← h]
    exact ⟨by simp only [Started]; split <;> decide,rfl,rfl,rfl⟩
  case loop =>
    exact Or.inr ⟨rfl,_,_,h.symm,loop_point _ _ rfl⟩

theorem next_store {q' : Program} (h : q.next no_slowdown = .store va c q') :
    q.point = .write ∧ va = q.heap_top ∧ c = UInt8.ofInt q.p ∧
      q' = { q with point := .pause, heap_top := q.heap_top+PAGESIZE } := by
  cases hpoint : q.point
  all_goals simp only [Program.next, hpoint, Deed.store.injEq, reduceCtorEq] at h
  obtain ⟨h₁,h₂,h₃⟩ := h
  exact ⟨rfl,h₁.symm,h₂.symm,h₃.symm⟩

/-- The calls of the programs. -/
inductive Calls (q : Program) : UInt64 → Option ℕ → (ℤ → Program) → Prop where
  | fork {k : ℤ → Program} (hs : ¬Started q) (hk : ∀ r, Early q (k r)) :
    Calls q INT_SYS_FORK none k
  | test {k : ℤ → Program} (hs : ¬Started q) (hk : ∀ r, Early q (k r)) :
    Calls q INT_SYS_GETPID none k
  | start (hs : ¬Started q) : Calls q INT_SYS_GETPID none q.started
  | request (hs : q.point = .request) : Calls q INT_SYS_PAGE_ALLOC (some q.heap_top)
    fun r => { q with point := if r < 0 then .done else .write }
  | yield {x : Point} (hs : Started q) (hx : x = .loop ∨ (x = .done ∧ q.point = .done)) :
    Calls q INT_SYS_YIELD none fun _ => { q with point := x }
  | panic {k : ℤ → Program} (hs : q.point = .assertFail) : Calls q INT_SYS_PANIC none k

theorem next_call {intno : UInt64} {rdi : Option ℕ} {k : ℤ → Program}
    (h : q.next no_slowdown = .call intno rdi k) : Calls q intno rdi k := by
  have hstate : ∀ {x : Point}, q.point = x → (Started q ↔ x ∈ [.loop,.request,.write,.pause,.done]) :=
    fun hx => by rw [Started, hx]
  have early : ∀ {q' : Program} (x : Point), x ∉ [.loop,.request,.write,.pause,.done] →
      (hx : q'.point = x := by rfl) → ¬Started q' := fun x hmem hx => by
    rw [Started, hx]
    exact hmem
  cases hpoint : q.point
  all_goals simp only [Program.next, hpoint, Deed.call.injEq, reduceCtorEq] at h
  all_goals obtain ⟨rfl,rfl,rfl⟩ := h
  case firstFork =>
    exact .fork (by rw [hstate hpoint]; decide) fun r => ⟨early .firstAssert (by decide),rfl,rfl,rfl⟩
  case secondFork =>
    exact .fork (by rw [hstate hpoint]; decide) fun r => ⟨early .secondAssert (by decide),rfl,rfl,rfl⟩
  case forkedAssert =>
    refine .test (by rw [hstate hpoint]; decide) fun r => ⟨?_,rfl,rfl,rfl⟩
    simp only [Started]
    split <;> decide
  case start => exact .start (by rw [hstate hpoint]; decide)
  case request => exact .request hpoint
  case pause => exact .yield (by rw [hstate hpoint]; decide) (Or.inl rfl)
  case done =>
    have hself : q = { q with point := .done } := by
      rw [← hpoint]
    rw [show (fun _ : ℤ => q) = fun _ : ℤ => { q with point := .done } from
      funext fun _ => hself]
    exact .yield (by rw [hstate hpoint]; decide) (Or.inr ⟨rfl,hpoint⟩)
  case assertFail => exact .panic hpoint

end Deeds

section Programs

variable {space space' : ProcessSpace}

theorem Good.keep (G : Good pid q space) (h : ∀ p, q.heap ≤ pageAddr p →
    pageAddr p < MEMSIZE_VIRTUAL-PAGESIZE → space' p = space p) : Good pid q space' where
  fits := G.fits
  early := G.early
  late := G.late
  below := G.below
  filled p hlo hhi := by
    by_cases hs : Started q
    · obtain ⟨-,hbottom,-,-,hle⟩ := G.late hs
      rw [h p hlo (by omega)]
      exact G.filled p hlo hhi
    · rw [G.early hs] at hhi
      omega
  fresh hw p hp := by
    have hs : Started q := by
      rw [Started, hw]
      decide
    obtain ⟨-,hbottom,-,hge,-⟩ := G.late hs
    have hlt := G.below (Or.inr hw)
    rw [h p (by omega) (by omega)]
    exact G.fresh hw p hp

/-- Before the heap is set up only the image matters. -/
theorem Good.of_early (hfits : LaidOut q) (hs : ¬Started q) (htop : q.heap_top = 0) :
    Good pid q space where
  fits := hfits
  early _ := htop
  late h := absurd h hs
  below h := absurd (by rcases h with h | h <;> rw [Started, h] <;> decide) hs
  filled p _ hhi := by
    rw [htop] at hhi
    omega
  fresh h := absurd (by rw [Started, h]; decide) hs

theorem Good.early_step {q' : Program} {pid' : ℕ} (G : Good pid q space) (hs : ¬Started q)
    (E : Early q q') : Good pid' q' space' :=
  .of_early ⟨E.symbol ▸ G.fits.low,E.symbol ▸ G.fits.high,E.stack ▸ G.fits.stack⟩ E.start
    (E.top.trans (G.early hs))

theorem compute_good {q' : Program} (G : Good pid q space) (h : q.next no_slowdown = .compute q') :
    Good pid q' space := by
  rcases next_compute h with ⟨hs,E⟩ | ⟨hpoint,x,random,rfl,hx⟩
  · exact G.early_step hs E
  · have hlate := G.late (by rw [Started, hpoint]; decide)
    have hstarted : x ∈ [.loop,.request,.write,.pause,.done] := by
      rcases hx with rfl | ⟨rfl,-⟩ | ⟨rfl,-⟩ <;> decide
    refine ⟨⟨G.fits.low,G.fits.high,G.fits.stack⟩,fun h => absurd hstarted h,fun _ => hlate,?_,
      G.filled,?_⟩
    · rintro (h | h)
      · rcases hx with hx | ⟨hx,-⟩ | ⟨-,hne⟩
        · rw [hx] at h
          cases h
        · rw [hx] at h
          cases h
        · exact lt_of_le_of_ne hlate.2.2.2.2 hne
      · rcases hx with hx | ⟨hx,-⟩ | ⟨hx,-⟩ <;> rw [hx] at h <;> cases h
    · intro h
      rcases hx with hx | ⟨hx,-⟩ | ⟨hx,-⟩ <;> rw [hx] at h <;> cases h

end Programs

section Calls

variable {t t' u : Process} {r : KernelResponse} {rdi : Option ℕ} {k : ℤ → Program} {j : ℕ}

theorem register_result {v : ℤ} (h : v = -1 ∨ (0 ≤ v ∧ v < 16)) :
    toInt32 (toRegister v).toNat = v := by
  have hall : ∀ n : Fin 16, toInt32 (toRegister (n : ℕ)).toNat = (n : ℕ) := by decide +kernel
  rcases h with rfl | ⟨hlo,hhi⟩
  · decide +kernel
  · obtain ⟨n,rfl⟩ := Int.eq_ofNat_of_zero_le hlo
    exact hall ⟨n,by omega⟩

/-- The page at the top of the heap, before it is allocated. -/
theorem Good.top_page {space : ProcessSpace} (G : Good pid q space)
    (hpoint : q.point = .request ∨ q.point = .write) : ∃ p : WindowPage, pageAddr p = q.heap_top := by
  have hs : Started q := by
    rcases hpoint with h | h <;> rw [Started, h] <;> decide
  obtain ⟨-,hbottom,halign,hlo,-⟩ := G.late hs
  have hlt := G.below hpoint
  have hheap := G.fits.heap
  simp only [PROC_START_ADDR, MEMSIZE_VIRTUAL, PAGESIZE] at hbottom hheap
  have hwin : 256 ≤ vpage q.heap_top ∧ vpage q.heap_top < 768 := by
    rw [vpage_small _ (by omega)]
    omega
  obtain ⟨p,hp⟩ := window_page hwin
  refine ⟨p,?_⟩
  rw [vpage_small _ (by omega)] at hp
  simp only [pageAddr, PROC_START_ADDR, PAGESIZE]
  omega

theorem pageAddr_inj {p p' : WindowPage} (h : pageAddr p = pageAddr p') : p = p' := by
  simp only [pageAddr, PROC_START_ADDR, PAGESIZE] at h
  exact Fin.ext (by omega)

theorem panic_request (hno : reg.reg_intno = INT_SYS_PANIC) : weensy.request reg = none := by
  have h : requestOf reg = none := by
    rw [requestOf, hno, if_neg (by decide), if_neg (by decide), if_neg (by decide),
      if_neg (by decide), if_neg (by decide)]
  exact h

theorem served_good (G : Good pid q t.space) (hpid : pid < NPROC)
    (C : Calls q reg.reg_intno rdi k) (hrdi : ∀ a, rdi = some a → reg.reg_rdi.toNat = a)
    (h : t.perform weensy pid (.call reg,r) = some t') :
    Good pid (k (toInt32 t'.registers.reg_rax.toNat)) t'.space := by
  simp only [NPROC] at hpid
  generalize hno : reg.reg_intno = intno at C
  cases C with
  | fork hs hk => exact G.early_step hs (hk _)
  | test hs hk => exact G.early_step hs (hk _)
  | start hs =>
    rw [Task.perform_call (requestOf_getpid hno)] at h
    cases r <;> cases h
    have hresult : toInt32 (weensy.answer reg pid).reg_rax.toNat = pid :=
      register_result (Or.inr ⟨by omega,by omega⟩)
    have hheap := G.fits.heap
    rw [hresult]
    refine ⟨⟨G.fits.low,G.fits.high,G.fits.stack⟩,fun h => absurd (show Point.loop ∈ _ by decide) h,fun _ => ?_,?_,?_,?_⟩
    · refine ⟨rfl,G.fits.stack_bottom,hheap.1,le_refl _,?_⟩
      exact hheap.2.2.trans_eq G.fits.stack_bottom.symm
    · rintro (h | h) <;> cases h
    · intro p hlo hhi
      exact absurd hhi (not_lt.2 hlo)
    · intro h
      cases h
  | request hs =>
    obtain ⟨p,hp⟩ := G.top_page (Or.inl hs)
    have hlate := G.late (by rw [Started, hs]; decide)
    have hlt := G.below (Or.inl hs)
    have hrequest := requestOf_alloc (p := p) hno (by rw [hrdi _ rfl, ← hp, pageAddr_vpage])
    rw [Task.perform_call hrequest] at h
    cases r with
    | page contents =>
      cases h
      have hresult : toInt32 (weensy.answer reg 0).reg_rax.toNat = 0 :=
        register_result (Or.inr ⟨by omega,by omega⟩)
      rw [hresult]
      refine ⟨⟨G.fits.low,G.fits.high,G.fits.stack⟩,fun h => absurd (show Point.write ∈ _ by decide) h,
        fun _ => hlate,fun _ => hlt,fun p' hlo hhi => ?_,fun _ p' hp' => ?_⟩
      · have hne : p' ≠ p := by
          rintro rfl
          exact absurd hp hhi.ne
        simp only [Function.update_of_ne hne]
        exact G.filled p' hlo hhi
      · have hsame : p' = p := pageAddr_inj (hp'.trans hp.symm)
        simp only [hsame, Function.update_self]
        exact Option.some_ne_none _
    | refused =>
      cases h
      have hresult : toInt32 (weensy.answer reg (-1)).reg_rax.toNat = -1 :=
        register_result (Or.inl rfl)
      rw [hresult]
      refine ⟨⟨G.fits.low,G.fits.high,G.fits.stack⟩,fun h => absurd (show Point.done ∈ _ by decide) h,
        fun _ => hlate,?_,
        G.filled,?_⟩
      · rintro (h | h) <;> cases h
      · intro h
        cases h
    | done => cases h
    | child j => cases h
    | full => cases h
    | abandoned j space => cases h
  | @yield x hs hx =>
    rw [Task.perform_call (requestOf_switch (Or.inl hno))] at h
    cases r <;> cases h
    have hstarted : x ∈ [.loop,.request,.write,.pause,.done] := by
      rcases hx with rfl | ⟨rfl,-⟩ <;> decide
    refine ⟨⟨G.fits.low,G.fits.high,G.fits.stack⟩,fun h => absurd hstarted h,
      fun _ => G.late hs,?_,G.filled,?_⟩
    · rintro (h | h) <;> rcases hx with hx | ⟨hx,-⟩ <;> rw [hx] at h <;> cases h
    · intro h
      rcases hx with hx | ⟨hx,-⟩ <;> rw [hx] at h <;> cases h
  | panic =>
    have hnone := panic_request hno
    simp only [Task.perform, hnone, Option.bind_none] at h
    cases h

/-- The processes fork before they have a heap. -/
theorem born_early (C : Calls q reg.reg_intno rdi k)
    (h : t.perform weensy pid (.call reg,r) = some t')
    (hb : born weensy t (.call reg) r = some (j,u)) : ¬Started q ∧ ∀ v, Early q (k v) := by
  have hfork : requestOf reg = some .fork := born_fork h hb
  generalize hno : reg.reg_intno = intno at C
  cases C with
  | fork hs hk => exact ⟨hs,hk⟩
  | test hs hk =>
    rw [requestOf_getpid hno] at hfork
    cases hfork
  | start hs =>
    rw [requestOf_getpid hno] at hfork
    cases hfork
  | request hs =>
    rw [requestOf, hno, if_neg (by decide), if_neg (by decide), if_neg (by decide),
      if_neg (by decide), if_pos rfl, Option.bind_eq_some_iff] at hfork
    obtain ⟨x,-,hx⟩ := hfork
    obtain ⟨p,-,hp⟩ := Option.map_eq_some_iff.1 hx
    cases hp
  | yield hs hx =>
    rw [requestOf_switch (Or.inl hno)] at hfork
    cases hfork
  | panic =>
    have hnone : requestOf reg = none := panic_request hno
    rw [hnone] at hfork
    cases hfork

theorem served_expected (C : Calls q reg.reg_intno rdi k)
    (h : t.perform weensy pid (.call reg,r) = some t') : Expected reg := by
  generalize hno : reg.reg_intno = intno at C
  cases C with
  | fork hs hk => exact Or.inr (Or.inr (Or.inr (Or.inl hno)))
  | test hs hk => exact Or.inl hno
  | start hs => exact Or.inl hno
  | request hs => exact Or.inr (Or.inr (Or.inl hno))
  | yield hs hx => exact Or.inr (Or.inl hno)
  | panic =>
    have hnone := panic_request hno
    simp only [Task.perform, hnone, Option.bind_none] at h
    cases h

theorem call_in_window (G : Good pid q t.space) (C : Calls q reg.reg_intno rdi k)
    (hrdi : ∀ a, rdi = some a → reg.reg_rdi.toNat = a) : InWindow s reg := by
  intro halloc
  rw [halloc] at C
  generalize hno : INT_SYS_PAGE_ALLOC = intno at C
  cases C with
  | request hs =>
    obtain ⟨-,hbottom,halign,hlo,-⟩ := G.late (by rw [Started, hs]; decide)
    have hlt := G.below (Or.inl hs)
    have hheap := G.fits.heap
    rw [hrdi _ rfl]
    simp only [PROC_START_ADDR, MEMSIZE_VIRTUAL, PAGESIZE] at *
    exact ⟨halign,by omega,by omega⟩
  | fork hs hk => exact absurd hno (by decide)
  | test hs hk => exact absurd hno (by decide)
  | start hs => exact absurd hno (by decide)
  | yield hs hx => exact absurd hno (by decide)
  | panic => exact absurd hno (by decide)

end Calls

section Stores

variable {t t' : Process}

theorem locate_page {k : PageOffset} (h : locate va = some (some p,k)) :
    vpage va = 256+p ∧ (k : ℕ) = va % PAGESIZE := by
  simp only [locate] at h
  split at h
  · cases h
  · split at h
    · rename_i hwin
      simp only [Option.some.injEq, Prod.mk.injEq] at h
      obtain ⟨hp,hk⟩ := h
      have hpage := congrArg Fin.val hp
      simp only [PAGESIZE] at hpage hwin
      exact ⟨by simp only [vpage]; omega,by rw [← hk]⟩
    · cases h

/-- A store changes the page it names and nothing else. -/
theorem stored_space (h : t.perform weensy pid (.store va c,.done) = some t') (p' : WindowPage)
    (hne : vpage va ≠ 256+p') : t'.space p' = t.space p' := by
  simp only [Task.perform, weensy] at h
  obtain ⟨⟨x,k⟩,hx,hwrite⟩ := Option.bind_eq_some_iff.1 h
  cases x with
  | none =>
    cases hwrite
    rfl
  | some p =>
    obtain ⟨page,-,rfl⟩ := Option.map_eq_some_iff.1 hwrite
    have hp : p' ≠ p := fun h => hne (h ▸ (locate_page hx).1)
    exact Function.update_of_ne hp ..

theorem scratch_good (G : Good pid q t.space) (hva : Scratch q va)
    (h : t.perform weensy pid (.store va c,.done) = some t') : Good pid q t'.space := by
  have hheap := G.fits.heap
  refine G.keep fun p hlo hhi => stored_space h p ?_
  simp only [Scratch, vpage, pageAddr, PROC_START_ADDR, MEMSIZE_VIRTUAL, PAGESIZE] at *
  omega

/-- The write to a new page. -/
theorem written_good {q' : Program} (G : Good pid q t.space)
    (hq : q.next no_slowdown = .store va c q')
    (h : t.perform weensy pid (.store va c,.done) = some t') : Good pid q' t'.space := by
  obtain ⟨hpoint,rfl,rfl,rfl⟩ := next_store hq
  obtain ⟨p,hp⟩ := G.top_page (Or.inr hpoint)
  obtain ⟨hpid,hbottom,halign,hlo,-⟩ := G.late (by rw [Started, hpoint]; decide)
  have hlt := G.below (Or.inr hpoint)
  have hpage : vpage q.heap_top = 256+p := by
    rw [← hp, pageAddr_vpage]
  have hlocate := locate_window p hpage
  have hoffset : (⟨q.heap_top % PAGESIZE,Nat.mod_lt _ (by decide)⟩ : PageOffset) = 0 := Fin.ext halign
  rw [hoffset] at hlocate
  simp only [Task.perform, weensy, hlocate, Option.bind_some] at h
  obtain ⟨page,hpage,rfl⟩ := Option.map_eq_some_iff.1 h
  refine ⟨⟨G.fits.low,G.fits.high,G.fits.stack⟩,fun h => absurd (show Point.pause ∈ _ by decide) h,
    fun _ => ⟨hpid,hbottom,?_,?_,?_⟩,?_,fun p' hlo' hhi' => ?_,?_⟩
  · simp only [PAGESIZE]
    omega
  · exact hlo.trans (Nat.le_add_right ..)
  · simp only [MEMSIZE_VIRTUAL, PAGESIZE] at *
    omega
  · rintro (h | h) <;> cases h
  · by_cases hp' : p' = p
    · simp only [hp', Function.update_self]
      refine ⟨_,rfl,?_⟩
      rw [Function.update_self, hpid]
    · simp only [Function.update_of_ne hp']
      refine G.filled p' hlo' ?_
      have hne : pageAddr p' ≠ q.heap_top := fun h => hp' (pageAddr_inj (h.trans hp.symm))
      have halign' := pageAddr_offset p'
      simp only [PAGESIZE] at hhi'
      omega
  · intro h
    cases h

end Stores

section Runs

/-- The exceptions of the programs. -/
def Served (allow : KState → x86_64_registers → Prop) : KState → x86_64_registers → Prop :=
  fun s reg => allow s reg ∧ InWindow s reg ∧ Expected reg

/-- What holds in every state of the processes and the kernel. -/
structure UserInv (K : KernelImage) (allow : KState → x86_64_registers → Prop)
    (x : Outcome × Programs) : Prop where
  run : Run K (Served allow) x.1
  good : ∀ pid t, taskOf x.1.state pid = some t → Good pid (x.2 pid) t.space

theorem UserInv.window {x : Outcome × Programs} (U : UserInv K allow x) : Run K InWindow x.1 :=
  U.run.mono fun _ _ h => h.2.1

theorem task_slot {t : Process} (h : taskOf s pid = some t) : pid < NPROC ∧
    (s.processes pid).p_state ≠ .P_FREE := by
  by_contra hne
  rw [taskOf, if_neg hne] at h
  cases h

/-- What an exception makes of the tasks. -/
theorem exception_tasks (hK : Loadable K) (R : Run K InWindow (.user s)) (hwin : InWindow s reg)
    (h : exception K reg s = .ok out) : s.current < NPROC ∧ ∃ r t t', taskOf s s.current = some t ∧
      t.perform weensy s.current (.call reg,r) = some t' ∧
      ∀ j u, taskOf out.state j = some u → (j = s.current ∧ u = t') ∨
        (j ≠ s.current ∧ taskOf s j = some u) ∨
        (taskOf s j = none ∧ born weensy t (.call reg) r = some (j,u)) := by
  obtain ⟨label,-,S,hx⟩ := run_isolated hK R
  obtain ⟨r,hstep⟩ := exception_event (hx s rfl) S hwin h
  obtain ⟨t,t',ht,hact,hcases⟩ := hstep.tasks
  exact ⟨(hx s rfl).inv.current_slot.2,r,t,t',ht,hact,hcases⟩

/-- What a store makes of the tasks. -/
theorem store_tasks (hK : Loadable K) (R : Run K InWindow (.user s))
    (h : user_store va c s = some s') : ∃ t t', taskOf s s.current = some t ∧
      t.perform weensy s.current (.store va c,.done) = some t' ∧
      ∀ j u, taskOf s' j = some u → (j = s.current ∧ u = t') ∨
        (j ≠ s.current ∧ taskOf s j = some u) := by
  obtain ⟨label,-,S,hx⟩ := run_isolated hK R
  obtain ⟨t,t',ht,hact,hcases⟩ := (store_event (hx s rfl) S h).tasks
  refine ⟨t,t',ht,hact,fun j u hu => ?_⟩
  rcases hcases j u hu with h | h | ⟨-,h⟩
  · exact Or.inl h
  · exact Or.inr h
  · cases h

/-- Interrupts leave the pages of every task alone. -/
theorem interrupt_tasks (hK : Loadable K) (R : Run K InWindow (.user s))
    (hno : reg.reg_intno = INT_TIMER ∨
      (reg.reg_intno = INT_PAGEFAULT ∧ reg.reg_err &&& PFERR_USER ≠ 0))
    (h : exception K reg s = .ok out) : InWindow s reg ∧ Expected reg ∧ ∃ t t',
      taskOf s s.current = some t ∧ t'.space = t.space ∧ ∀ j u, taskOf out.state j = some u →
        (j = s.current ∧ u = t') ∨ taskOf s j = some u := by
  have hwin : InWindow s reg := fun halloc => by
    rw [halloc] at hno
    rcases hno with h | ⟨h,-⟩ <;> exact absurd h (by decide)
  have hrequest : requestOf reg = some .yield ∨ requestOf reg = some .fault := by
    rcases hno with h | ⟨h,-⟩
    · exact Or.inl (requestOf_switch (Or.inr h))
    · exact Or.inr (requestOf_fault h)
  obtain ⟨-,r,t,t',ht,hact,hcases⟩ := exception_tasks hK R hwin h
  refine ⟨hwin,Or.inr (Or.inr (Or.inr (Or.inr hno))),t,t',ht,?_,fun j u hu => ?_⟩
  · rcases hrequest with hq | hq
    · rw [Task.perform_call hq] at hact
      cases r <;> cases hact
      rfl
    · rw [Task.perform_call hq] at hact
      cases r <;> cases hact
      rfl
  · rcases hcases j u hu with hself | ⟨-,hu'⟩ | ⟨-,hb⟩
    · exact Or.inl hself
    · exact Or.inr hu'
    · have hfork : requestOf reg = some .fork := born_fork hact hb
      rcases hrequest with hq | hq <;> rw [hq] at hfork <;> cases hfork

theorem user_step (hK : Loadable K) {x x' : Outcome × Programs} {e : Option (ℕ × UserAction)}
    (U : UserInv K allow x) (h : UserMove K allow no_slowdown x e x') : UserInv K allow x' := by
  cases h with
  | @compute s P q hq =>
    refine ⟨U.run,fun pid t ht => ?_⟩
    by_cases hpid : pid = s.current
    · subst hpid
      simp only [Function.update_self]
      exact compute_good (U.good _ t ht) hq
    · simp only [Function.update_of_ne hpid]
      exact U.good pid t ht
  | @scratch s s' P va c hva h =>
    obtain ⟨t,t',ht,hact,hcases⟩ := store_tasks hK U.window h
    refine ⟨.store U.run h,fun pid u hu => ?_⟩
    rcases hcases pid u hu with ⟨rfl,rfl⟩ | ⟨-,hu⟩
    · exact scratch_good (U.good _ t ht) hva hact
    · exact U.good pid u hu
  | @store s s' P va c q hq h =>
    obtain ⟨t,t',ht,hact,hcases⟩ := store_tasks hK U.window h
    refine ⟨.store U.run h,fun pid u hu => ?_⟩
    rcases hcases pid u hu with ⟨rfl,rfl⟩ | ⟨hne,hu⟩
    · simp only [Function.update_self]
      exact written_good (U.good _ t ht) hq hact
    · simp only [Function.update_of_ne hne]
      exact U.good pid u hu
  | @call s P intno rdi k reg out hq hno hrdi hallow h =>
    have C := next_call hq
    rw [← hno] at C
    obtain ⟨t₀,ht₀⟩ : ∃ t, taskOf s s.current = some t := by
      obtain ⟨label,X⟩ := run_executing hK U.window
      exact ⟨_,taskOf_used X.inv.current_slot.2 X.inv.current_live.1⟩
    have hwin := call_in_window (s := s) (U.good _ t₀ ht₀) C hrdi
    obtain ⟨hcur,r,t,t',ht,hact,hcases⟩ := exception_tasks hK U.window hwin h
    have G := U.good _ t ht
    have hresult : ∀ {j u}, taskOf out.state j = some u →
        resultOf out.state j = toInt32 u.registers.reg_rax.toNat := by
      intro j u hu
      obtain ⟨hj,hused⟩ := task_slot hu
      rw [taskOf_used hj hused, Option.some.injEq] at hu
      rw [← hu]
      rfl
    have hexpected : Expected reg := served_expected C hact
    refine ⟨.exception U.run ⟨hallow,hwin,hexpected⟩ h,fun pid u hu => ?_⟩
    rcases hcases pid u hu with ⟨rfl,rfl⟩ | ⟨hne,hu'⟩ | ⟨hnone,hb⟩
    · simp only [returned, true_or, if_true, hresult hu]
      exact served_good G hcur C hrdi hact
    · have hused := (task_slot hu').2
      simp only [returned, hne, hused, false_and, or_false, if_false]
      exact U.good pid u hu'
    · obtain ⟨hlt,hused⟩ := task_slot hu
      have hfree := (taskOf_none_iff hlt).1 hnone
      simp only [returned, hfree, hused, ne_eq, not_false_eq_true, and_self, or_true, if_true]
      obtain ⟨hs,hearly⟩ := born_early C hact hb
      exact G.early_step hs (hearly _)
  | @interrupt s P reg out hno hallow h =>
    obtain ⟨hwin,hexpected,t,t',ht,hspace,hcases⟩ := interrupt_tasks hK U.window hno h
    refine ⟨.exception U.run ⟨hallow,hwin,hexpected⟩ h,fun pid u hu => ?_⟩
    rcases hcases pid u hu with ⟨rfl,rfl⟩ | hu'
    · rw [hspace]
      exact U.good _ t ht
    · exact U.good pid u hu'

/-- The programs with which the processes start. -/
def Starting (s : KState) (P : Programs) : Prop :=
  ∀ pid < NPROC, (s.processes pid).p_state ≠ .P_FREE → Fresh (P pid) ∧ LaidOut (P pid)

theorem starting_inv {command : Option String} (h : kernel K command s' = .ok (.user s))
    (hP : Starting s P) : UserInv K allow (.user s,P) := by
  refine ⟨.boot h,fun pid t ht => ?_⟩
  obtain ⟨hlt,hused⟩ := task_slot ht
  obtain ⟨hfresh,hfits⟩ := hP pid hlt hused
  refine .of_early hfits ?_ hfresh.heap_top
  rcases hfresh.point with h | h <;> rw [Started, h] <;> decide

theorem user_runs (hK : Loadable K) {command : Option String} {l : List (Option (ℕ × UserAction))}
    (h : kernel K command s' = .ok (.user s)) (hP : Starting s P)
    (C : Runs (UserMove K allow no_slowdown) (.user s,P) l (out,P')) : UserInv K allow (out,P') :=
  (C.within (P := UserInv K allow) (fun _ _ _ U h => user_step hK U h) (starting_inv h hP)).1

end Runs

section Heap

/-- A page of the window that a process sees is a frame with all permissions. -/
theorem seen_page (I : KInv K label s) (S : Isolated (rootsOf K s) label s) (hp : Slot pid)
    (hl : live s pid) {page : PageOffset → UInt8} (h : pagesOf s pid p = some page) : ∃ a, Frame a ∧
      translation s pid (pageAddr p) = ⟨(a / 4096 : ℕ),a,7⟩ ∧ page = pageBytes s.mem a := by
  rcases window_leaf S hp hl p with hz | ⟨a,ha,hown⟩
  · rw [pagesOf_empty I hp hl hz] at h
    cases h
  · rw [pagesOf_frame I hp hl hown.1 ha, Option.some.injEq] at h
    refine ⟨a,hown.1,?_,h.symm⟩
    rw [translation, I.lookup hp hl, ha, leafMapping_frame hown.1 (Or.inr rfl), pageAddr_offset,
      add_zero]

/-- The page that a process has just got is writable. -/
theorem write_possible (X : Executing K label s) (S : Isolated (rootsOf K s) label s)
    (G : Good s.current q (pagesOf s s.current)) (hw : q.point = .write) (c : UInt8) :
    ∃ s', user_store q.heap_top c s = some s' := by
  obtain ⟨p,hp⟩ := G.top_page (Or.inr hw)
  obtain ⟨page,hpage⟩ := Option.ne_none_iff_exists'.1 (G.fresh hw p hp)
  obtain ⟨a,-,htrans,-⟩ := seen_page X.inv S X.inv.current_slot X.inv.current_live hpage
  rw [hp] at htrans
  have hlook : virtual_memory_lookup s.mem s.cr3 q.heap_top = ⟨(a / 4096 : ℕ),a,7⟩ := by
    rw [X.active]
    exact htrans
  have hW : 7 &&& PTE_W ≠ 0 ∧ 7 &&& PTE_U ≠ 0 := by decide
  simp only [user_store, hlook]
  exact ⟨_,if_pos hW⟩

end Heap

section Memory

theorem grows_freeCount {label' : Labels} {o : ℤ} {n : ℕ} (G : Grows o label label' n s s') :
    freeCount s' ≤ freeCount s := by
  have := G.count
  omega

theorem effect_freeCount {label' : Labels} (E : Effect K reg label s label' s') (I : KInv K label s) :
    freeCount s' ≤ freeCount s := by
  obtain ⟨t,H,Q,-⟩ := E.change I.current_live
  rw [freeCount_congr Q.pageinfo]
  cases H with
  | none => exact le_refl _
  | page hno A => exact grows_freeCount A.grows
  | null hslot => exact le_refl _
  | child hslot F =>
    have h := grows_freeCount F.grows
    exact h

/-- Pages are never given back. -/
theorem exception_freeCount (X : Executing K label s) (h : exception K reg s = .ok out) :
    freeCount out.state ≤ freeCount s := by
  obtain ⟨label',s₁,s₂,H⟩ := exception_cases X h
  rw [freeCount_congr (Leaves.quiet H.leaves).1.pageinfo,
    ← freeCount_congr (s := s) H.entered.quiet.pageinfo]
  exact effect_freeCount H.effect H.inv

/-- A process that has stopped has met its stack or the end of memory. -/
def Spent (x : Outcome × Programs) : Prop :=
  ∀ pid t, taskOf x.1.state pid = some t → (x.2 pid).point = .done →
    (x.2 pid).heap_top = (x.2 pid).stack_bottom ∨ freeCount x.1.state < 4

theorem store_freeCount (X : Executing K label s) (h : user_store va c s = some s') :
    freeCount s' = freeCount s := by
  obtain ⟨m,rfl,-⟩ := store_tables X h
  rfl

/-- These two calls go back to the process. -/
theorem call_returns (X : Executing K label s)
    (hno : reg.reg_intno = INT_SYS_GETPID ∨ reg.reg_intno = INT_SYS_PAGE_ALLOC)
    (h : exception K reg s = .ok out) : ∃ t, out = .user t ∧ t.current = s.current := by
  obtain ⟨label',s₁,s₂,H⟩ := exception_cases X h
  have hcur : s₂.current = s₁.current := (H.effect.change H.inv.current_live).choose_spec.2.2
  have hfault : reg.reg_intno ≠ INT_PAGEFAULT ∧ ¬Switches reg := by
    rcases hno with h | h <;> rw [Switches, h] <;> decide
  have hrun : (s₂.processes s₂.current).p_state = .P_RUNNABLE := by
    rw [hcur, H.effect.state_kept H.inv hfault.1]
    exact entered_runnable X H.entered
  exact ⟨_,H.back hfault.2 hrun,hcur.trans H.entered.current⟩

/-- A request in the window fails only when fewer than four pages are free. -/
theorem refused_memory (X : Executing K label s) (hno : reg.reg_intno = INT_SYS_PAGE_ALLOC)
    (hwin : InWindow s reg) (h : exception K reg s = .ok out)
    (hneg : resultOf out.state s.current < 0) : freeCount s < 4 := by
  obtain ⟨t,rfl,hcur⟩ := call_returns X (Or.inr hno) h
  obtain ⟨-,hlo,hhi⟩ := hwin hno
  simp only [PROC_START_ADDR, MEMSIZE_VIRTUAL] at hlo hhi
  by_contra hmany
  have hzero := request_zero X hno
    (index123_ne _ (by rw [vpage_small _ (by omega)]; omega)) (by omega) h
  rw [result, hcur] at hzero
  have hres : resultOf t s.current = 0 := by
    rw [resultOf, hzero]
    exact Int.zero_bmod
  have hsame : resultOf (Outcome.user t).state s.current = 0 := hres
  rw [hsame] at hneg
  exact absurd hneg (by decide)

theorem spent_step (hK : Loadable K) {x x' : Outcome × Programs} {e : Option (ℕ × UserAction)}
    (U : UserInv K allow x) (D : Spent x) (h : UserMove K allow no_slowdown x e x') : Spent x' := by
  have hdone : ∀ {q : Program}, q.point = .done → Started q := fun h => by
    rw [Started, h]
    decide
  obtain ⟨label,-,-,hx⟩ := run_isolated hK U.window
  cases h with
  | @compute s P q hq =>
    intro pid t ht hpoint
    by_cases hpid : pid = s.current
    · subst hpid
      simp only [Function.update_self] at hpoint ⊢
      rcases next_compute hq with ⟨-,E⟩ | ⟨-,y,random,rfl,hy⟩
      · exact absurd (hdone hpoint) E.start
      · rcases hy with hy | ⟨-,htop⟩ | ⟨hy,-⟩
        · exact absurd (hy.symm.trans hpoint) (by decide)
        · exact Or.inl htop
        · exact absurd (hy.symm.trans hpoint) (by decide)
    · simp only [Function.update_of_ne hpid] at hpoint ⊢
      exact D pid t ht hpoint
  | @scratch s s' P va c hva h =>
    obtain ⟨t,t',ht,-,hcases⟩ := store_tasks hK U.window h
    have hcount := store_freeCount (hx s rfl) h
    intro pid u hu hpoint
    have hold : ∃ u', taskOf s pid = some u' := by
      rcases hcases pid u hu with ⟨rfl,-⟩ | ⟨-,hu⟩
      · exact ⟨t,ht⟩
      · exact ⟨u,hu⟩
    obtain ⟨u',hu'⟩ := hold
    exact (D pid u' hu' hpoint).imp_right fun h => hcount.trans_lt h
  | @store s s' P va c q hq h =>
    obtain ⟨t,t',ht,-,hcases⟩ := store_tasks hK U.window h
    have hcount := store_freeCount (hx s rfl) h
    intro pid u hu hpoint
    rcases hcases pid u hu with ⟨rfl,-⟩ | ⟨hne,hu⟩
    · obtain ⟨-,-,-,rfl⟩ := next_store hq
      simp only [Function.update_self] at hpoint
      cases hpoint
    · simp only [Function.update_of_ne hne] at hpoint ⊢
      exact (D pid u hu hpoint).imp_right fun h => hcount.trans_lt h
  | @call s P intno rdi k reg out hq hno hrdi hallow h =>
    have C := next_call hq
    rw [← hno] at C
    have X := hx s rfl
    have ht₀ := taskOf_used X.inv.current_slot.2 X.inv.current_live.1
    have hwin := call_in_window (s := s) (U.good _ _ ht₀) C hrdi
    obtain ⟨-,r,t,t',ht,hact,hcases⟩ := exception_tasks hK U.window hwin h
    have hcount := exception_freeCount X h
    intro pid u hu hpoint
    rcases hcases pid u hu with ⟨rfl,rfl⟩ | ⟨hne,hu'⟩ | ⟨hnone,hb⟩
    · simp only [returned, true_or, if_true] at hpoint ⊢
      generalize hno' : reg.reg_intno = intno' at C
      cases C with
      | fork hs hk => exact absurd (hdone hpoint) (hk _).start
      | test hs hk => exact absurd (hdone hpoint) (hk _).start
      | start hs => cases hpoint
      | request hs =>
        right
        by_cases hneg : resultOf out.state s.current < 0
        · exact hcount.trans_lt (refused_memory X hno' hwin h hneg)
        · simp only [if_neg hneg] at hpoint
          cases hpoint
      | yield hs hy =>
        rcases hy with hy | ⟨-,hold⟩
        · exact absurd (hy.symm.trans hpoint) (by decide)
        · exact (D _ t ht hold).imp_right fun h => hcount.trans_lt h
      | panic =>
        have hnone := panic_request hno'
        simp only [Task.perform, hnone, Option.bind_none] at hact
        cases hact
    · have hused := (task_slot hu').2
      simp only [returned, hne, hused, false_and, or_false, if_false] at hpoint ⊢
      exact (D pid u hu' hpoint).imp_right fun h => hcount.trans_lt h
    · obtain ⟨hlt,hused⟩ := task_slot hu
      have hfree := (taskOf_none_iff hlt).1 hnone
      simp only [returned, hfree, hused, ne_eq, not_false_eq_true, and_self, or_true,
        if_true] at hpoint
      exact absurd (hdone hpoint) ((born_early C hact hb).2 _).start
  | @interrupt s P reg out hno hallow h =>
    have hcount := exception_freeCount (hx s rfl) h
    obtain ⟨-,-,t,t',ht,-,hcases⟩ := interrupt_tasks hK U.window hno h
    intro pid u hu hpoint
    have hold : ∃ u', taskOf s pid = some u' := by
      rcases hcases pid u hu with ⟨rfl,-⟩ | hu'
      · exact ⟨t,ht⟩
      · exact ⟨u,hu'⟩
    obtain ⟨u',hu'⟩ := hold
    exact (D pid u' hu' hpoint).imp_right fun h => hcount.trans_lt h

end Memory

section Progress

/-- Forks find the pages that `copy_pagetable` needs. -/
def ForksSupplied (K : KernelImage) : KState → x86_64_registers → Prop := fun s reg =>
  reg.reg_intno = INT_SYS_FORK → ∀ t, exception_enter K reg s = .ok t → CopySupplied t

/-- The machine can do this in the state `s`, whatever the other registers hold. -/
def Possible (K : KernelImage) (s : KState) : Deed → Prop
  | .compute _ => True
  | .store va c _ => ∃ s', user_store va c s = some s'
  | .call intno rdi _ => ∀ reg : x86_64_registers, reg.reg_intno = intno →
    (∀ a, rdi = some a → reg.reg_rdi.toNat = a) → ForksSupplied K s reg →
      ∃ out, exception K reg s = .ok out

end Progress

section Sample

/-- An image with its heap from `end_symbol` on. -/
def sampleProgram (end_symbol : ℕ) : Program :=
  ⟨.start,end_symbol,0x2FFFF0,0,0,0,0,0,⟨false,0⟩⟩

theorem getpid_freeCount (X : Executing K label s) (hno : reg.reg_intno = INT_SYS_GETPID)
    (h : exception K reg s = .ok out) : freeCount out.state = freeCount s := by
  obtain ⟨label',s₁,s₂,H⟩ := exception_cases X h
  rw [freeCount_congr (Leaves.quiet H.leaves).1.pageinfo,
    ← freeCount_congr (s := s) H.entered.quiet.pageinfo]
  have E := H.effect
  cases E with
  | getpid => exact freeCount_congr rfl
  | yield h => exact absurd (hno.symm.trans h) (by decide)
  | timer h => exact absurd (hno.symm.trans h) (by decide)
  | fault h _ => exact absurd (hno.symm.trans h) (by decide)
  | refused h _ => exact absurd (hno.symm.trans h) (by decide)
  | alloc h _ _ _ _ => exact absurd (hno.symm.trans h) (by decide)
  | noSlot h _ => exact absurd (hno.symm.trans h) (by decide)
  | rootless h _ _ => exact absurd (hno.symm.trans h) (by decide)
  | unfinished h _ _ _ _ => exact absurd (hno.symm.trans h) (by decide)
  | forked h _ _ _ _ => exact absurd (hno.symm.trans h) (by decide)

/-- The process with the top of its heap, which starts at the page `e`. -/
def sampleAt (e heap_top : ℕ) (x : Point) : Program :=
  { (sampleProgram e).started 1 with point := x, heap_top := heap_top }

/-- A heap of at least one page. -/
structure Roomy (e : ℕ) : Prop where
  page : e % PAGESIZE = 0
  low : PROC_START_ADDR ≤ e
  high : e < 0x2FF000

theorem Roomy.fits {e : ℕ} (h : Roomy e) : LaidOut (sampleProgram e) := by
  have hhigh := h.high
  have hstack : MEMSIZE_VIRTUAL-PAGESIZE < 0x2FFFF0 ∧ 0x2FFFF0 ≤ MEMSIZE_VIRTUAL := by decide
  refine ⟨h.low,?_,hstack⟩
  simp only [sampleProgram, MEMSIZE_VIRTUAL, PAGESIZE]
  omega

theorem Roomy.started {e : ℕ} (h : Roomy e) : (sampleProgram e).started 1 = sampleAt e e .loop := by
  have hpage := h.page
  have htop : ROUNDUP e PAGESIZE = e := by
    simp only [ROUNDUP, ROUNDDOWN, PAGESIZE] at hpage ⊢
    omega
  change Program.mk _ _ _ _ _ _ (ROUNDUP e PAGESIZE) _ _ = _
  rw [htop]
  rfl

theorem Roomy.window {e : ℕ} (h : Roomy e) (s : KState) :
    (UInt64.ofNat e).toNat = e ∧ InWindow s (syscall INT_SYS_PAGE_ALLOC (UInt64.ofNat e)) := by
  have hhigh := h.high
  have hself : (UInt64.ofNat e).toNat = e := by
    rw [UInt64.toNat_ofNat']
    omega
  refine ⟨hself,fun _ => ?_⟩
  change (UInt64.ofNat e).toNat % PAGESIZE = 0 ∧ PROC_START_ADDR ≤ (UInt64.ofNat e).toNat ∧
    (UInt64.ofNat e).toNat < MEMSIZE_VIRTUAL
  rw [hself]
  refine ⟨h.page,h.low,?_⟩
  simp only [MEMSIZE_VIRTUAL]
  omega

/-- A process that is alone learns who it is. -/
theorem sample_started {e : ℕ} (hfits : LaidOut (sampleProgram e)) : ∃ label s l t P',
    kernel sampleKernel (some "fork") powerOn = .ok (.user s) ∧
    Starting s (fun _ => sampleProgram e) ∧
    Runs (UserMove sampleKernel (ForksSupplied sampleKernel) true) (.user s,fun _ => sampleProgram e)
      l (.user t,P') ∧
    Solo sampleKernel label t ∧ t.current = 1 ∧ P' 1 = (sampleProgram e).started 1 ∧
    55 ≤ freeCount t := by
  obtain ⟨label,s,hboot,S,hcur,hfree,-⟩ := sample_solo powerOn
  have hstart : Starting s fun _ => sampleProgram e := fun _ _ _ => ⟨⟨Or.inl rfl,rfl⟩,hfits⟩
  have hforks : ForksSupplied sampleKernel s (syscall INT_SYS_GETPID 0) := fun h =>
    absurd h (by decide)
  obtain ⟨label',s₁,s₂,t,hout,-,S',hcur',-⟩ :=
    solo_call S (Or.inl (show (syscall INT_SYS_GETPID 0).reg_intno = _ from rfl)) fun h =>
      absurd h (by decide)
  have hmove : UserMove sampleKernel (ForksSupplied sampleKernel) true
      (.user s,fun _ => sampleProgram e) _ (.user t,_) :=
    .call rfl rfl (fun a h => by cases h) hforks hout
  have C := Runs.snoc .refl hmove
  have U := user_runs sample_loadable hboot hstart C
  have hprog : returned (fun _ => sampleProgram e) s (sampleProgram e).started (.user t) t.current =
      (sampleProgram e).started (resultOf t t.current) := by
    rw [returned, if_pos (Or.inl hcur')]
    rfl
  have G := U.good _ _ (taskOf_used S'.sound.inv.current_slot.2 S'.sound.inv.current_live.1)
  dsimp only at G
  rw [hprog] at G
  have hself := (G.late (started_started _ _)).1
  rw [started_p] at hself
  refine ⟨label',s,_,t,_,hboot,hstart,C,S',hcur'.trans hcur,?_,?_⟩
  · rw [hself, hcur', hcur] at hprog
    exact hprog
  · have hsame := getpid_freeCount S.executing rfl hout
    exact hfree.trans_eq hsame.symm

/-- With room for a heap the process gets its first page. -/
theorem sample_grown {e : ℕ} (h : Roomy e) : ∃ label s l t P',
    kernel sampleKernel (some "fork") powerOn = .ok (.user s) ∧
    Starting s (fun _ => sampleProgram e) ∧
    Runs (UserMove sampleKernel (ForksSupplied sampleKernel) true)
      (.user s,fun _ => sampleProgram e) l (.user t,P') ∧
    Solo sampleKernel label t ∧ t.current = 1 ∧ P' 1 = sampleAt e e .write := by
  obtain ⟨label,s,l,t,P',hboot,hstart,C,S,hcur,hprog,hfree⟩ := sample_started h.fits
  rw [h.started] at hprog
  have hstack : (sampleAt e e .loop).stack_bottom = 0x2FF000 := by
    change ROUNDDOWN (0x2FFFF0-1) PAGESIZE = 0x2FF000
    rfl
  have hloop : (P' t.current).next true = .compute (sampleAt e e .request) := by
    have hpoint : (sampleAt e e .loop).point = .loop := rfl
    have htop : (sampleAt e e .loop).heap_top ≠ 0x2FF000 := h.high.ne
    rw [hcur, hprog, Program.next, hpoint]
    simp only [if_true, true_or, not_true, if_false, hstack, if_neg htop]
    rw [← hstack]
    rfl
  have C₁ := C.snoc (.compute hloop)
  obtain ⟨hself,hwin⟩ := h.window t
  obtain ⟨label',s₁,s₂,u,hout,-,S',hcur',-⟩ := solo_call S (Or.inr rfl) hwin
  have hforks : ForksSupplied sampleKernel t (syscall INT_SYS_PAGE_ALLOC (UInt64.ofNat e)) :=
    fun h => absurd h (show INT_SYS_PAGE_ALLOC ≠ INT_SYS_FORK by decide)
  have hgot : ¬resultOf u t.current < 0 := fun hneg => by
    have hfew := refused_memory S.executing rfl hwin hout hneg
    omega
  have hrequest : (Function.update P' t.current (sampleAt e e .request) t.current).next true =
      .call INT_SYS_PAGE_ALLOC (some e) fun r => sampleAt e e (if r < 0 then .done else .write) := by
    rw [Function.update_self]
    rfl
  have C₂ := C₁.snoc (.call hrequest rfl (by rintro a ⟨⟩; exact hself) hforks hout)
  refine ⟨label',s,_,u,_,hboot,hstart,C₂,S',hcur'.trans hcur,?_⟩
  rw [returned, if_pos (Or.inl hcur.symm), ← hcur]
  exact congrArg (sampleAt e e) (if_neg hgot)

/-- It writes its number there. -/
theorem sample_filled {e : ℕ} (h : Roomy e) : ∃ label s l t P',
    kernel sampleKernel (some "fork") powerOn = .ok (.user s) ∧
    Starting s (fun _ => sampleProgram e) ∧
    Runs (UserMove sampleKernel (ForksSupplied sampleKernel) true)
      (.user s,fun _ => sampleProgram e) l (.user t,P') ∧
    Solo sampleKernel label t ∧ t.current = 1 ∧ P' 1 = sampleAt e (e+PAGESIZE) .pause := by
  obtain ⟨label,s,l,t,P',hboot,hstart,C,S,hcur,hprog⟩ := sample_grown h
  have U := user_runs sample_loadable hboot hstart C
  have hprog' : P' t.current = sampleAt e e .write := by
    rw [hcur, hprog]
  have G : Good t.current (P' t.current) (pagesOf t t.current) :=
    U.good _ _ (taskOf_used S.sound.inv.current_slot.2 S.sound.inv.current_live.1)
  rw [hprog'] at G
  obtain ⟨t',ht'⟩ := write_possible S.executing S.sound.isolated G rfl 1
  have hnext : (P' t.current).next true = .store e 1 (sampleAt e (e+PAGESIZE) .pause) := by
    rw [hprog']
    rfl
  have C' := C.snoc (.store hnext ht')
  have R : Run sampleKernel (Supplied sampleKernel) (.user t') :=
    (user_runs sample_loadable hboot hstart C').run.mono fun s reg h => ⟨h.2.2,h.2.1,h.1⟩
  obtain ⟨label',S',hx⟩ := run_sound sample_loadable R
  obtain ⟨m,rfl,-⟩ := store_tables S.executing ht'
  refine ⟨label',s,_,_,_,hboot,hstart,C',⟨S',hx _ rfl,S.alone⟩,hcur,?_⟩
  rw [← hcur, Function.update_self]

/-- With room for one page it then stops. -/
theorem sample_stopped : ∃ s l t P', kernel sampleKernel (some "fork") powerOn = .ok (.user s) ∧
    Starting s (fun _ => sampleProgram 0x2FE000) ∧
    Runs (UserMove sampleKernel (ForksSupplied sampleKernel) true)
      (.user s,fun _ => sampleProgram 0x2FE000) l (.user t,P') ∧
    t.current = 1 ∧ P' 1 = sampleAt 0x2FE000 0x2FF000 .done := by
  obtain ⟨label,s,l,t,P',hboot,hstart,C,S,hcur,hprog⟩ :=
    sample_filled (e := 0x2FE000) ⟨by decide,by decide,by decide⟩
  obtain ⟨t',u,henter,hsched,-,hcur'⟩ := solo_yield S (syscall INT_SYS_YIELD 0)
  have hout := (yield_schedules rfl henter).trans hsched
  have hforks : ForksSupplied sampleKernel t (syscall INT_SYS_YIELD 0) := fun h =>
    absurd h (by decide)
  have hpause : (P' t.current).next true =
      .call INT_SYS_YIELD none fun _ => sampleAt 0x2FE000 0x2FF000 .loop := by
    rw [hcur, hprog]
    rfl
  have C₁ := C.snoc (.call hpause rfl (fun a h => by cases h) hforks hout)
  have hloop : (returned P' t (fun _ => sampleAt 0x2FE000 0x2FF000 .loop) (.user u)
      u.current).next true = .compute (sampleAt 0x2FE000 0x2FF000 .done) := by
    rw [returned, if_pos (Or.inl hcur')]
    rfl
  refine ⟨s,_,u,_,hboot,hstart,C₁.snoc (.compute hloop),hcur'.trans hcur,?_⟩
  rw [← hcur'.trans hcur, Function.update_self]

end Sample

section Results

/-- In every state of every interleaving the requests have stayed in the window, and the heap of
a process is mapped writable up to `heap_top`, with the number of the process in the first byte
of each page. -/
theorem heap_along_runs (hK : Loadable K) {command : Option String}
    {l : List (Option (ℕ × UserAction))} (h : kernel K command s' = .ok (.user s))
    (hP : Starting s P) (C : Runs (UserMove K allow no_slowdown) (.user s,P) l (out,P')) :
    Run K InWindow out ∧ ∀ pid < NPROC, live out.state pid → Started (P' pid) → (P' pid).p = pid ∧
      ∀ va, (P' pid).heap ≤ va → va < (P' pid).heap_top → va % PAGESIZE = 0 →
        view out.state pid va = some (7,UInt8.ofInt pid) := by
  have U := user_runs hK h hP C
  refine ⟨U.window,fun pid hpid hl hs => ?_⟩
  obtain ⟨label,I,S,-⟩ := run_isolated hK U.window
  have G : Good pid (P' pid) (pagesOf out.state pid) := U.good pid _ (taskOf_used hpid hl.1)
  obtain ⟨hself,hbottom,-,-,htop⟩ := G.late hs
  refine ⟨hself,fun va hlo hhi halign => ?_⟩
  have hheap := G.fits.heap
  simp only [PROC_START_ADDR, MEMSIZE_VIRTUAL, PAGESIZE] at hbottom hheap halign
  have hwin : 256 ≤ vpage va ∧ vpage va < 768 := by
    rw [vpage_small _ (by omega)]
    omega
  obtain ⟨p,hp⟩ := window_page hwin
  have hva : pageAddr p = va := by
    rw [vpage_small _ (by omega)] at hp
    simp only [pageAddr, PROC_START_ADDR, PAGESIZE]
    omega
  rw [← hva] at hlo hhi ⊢
  obtain ⟨page,hpage,hbyte⟩ := G.filled p hlo hhi
  obtain ⟨a,-,htrans,rfl⟩ := seen_page I S (live_slot I hpid hl) hl hpage
  have hu : 7 &&& PTE_U ≠ 0 := by decide
  rw [view, htrans]
  simp only [if_pos hu]
  rw [← hbyte]
  rfl

/-- The first page of the heap of process 1 holds its number. -/
theorem first_page_holds_one : ∃ t, Run sampleKernel InWindow (.user t) ∧
    view t 1 0x102000 = some (7,1) := by
  obtain ⟨label',s,l,t,P',hboot,hstart,C,-,hcur,hprog⟩ :=
    sample_filled (e := 0x102000) ⟨by decide,by decide,by decide⟩
  obtain ⟨R,h⟩ := heap_along_runs sample_loadable hboot hstart C
  obtain ⟨label,X⟩ := run_executing sample_loadable R
  have hlive : live t 1 := hcur ▸ X.inv.current_live
  have hs : Started (P' 1) := by
    rw [hprog, Started]
    have hpause : Point.pause ∈ [Point.loop,.request,.write,.pause,.done] := by decide
    exact hpause
  refine ⟨t,R,(h 1 (by decide) hlive hs).2 0x102000 ?_ ?_ (by decide)⟩
  · rw [hprog]
    decide
  · rw [hprog]
    decide

/-- A process stops asking for pages only when its heap has met its stack or fewer than four
pages of the machine are free, and that stays so. -/
theorem stops_when_spent (hK : Loadable K) {command : Option String}
    {l : List (Option (ℕ × UserAction))} (h : kernel K command s' = .ok (.user s))
    (hP : Starting s P) (C : Runs (UserMove K allow no_slowdown) (.user s,P) l (out,P')) :
    ∀ pid < NPROC, (out.state.processes pid).p_state ≠ .P_FREE → (P' pid).point = .done →
      (P' pid).heap_top = (P' pid).stack_bottom ∨ freeCount out.state < 4 := by
  have hinit : UserInv K allow (.user s,P) ∧ Spent (.user s,P) := by
    refine ⟨starting_inv h hP,fun pid t ht hpoint => ?_⟩
    obtain ⟨hlt,hused⟩ := task_slot ht
    have hstart := (hP pid hlt hused).1.point
    rw [hpoint] at hstart
    rcases hstart with h | h <;> cases h
  have hall := (C.within (P := fun x => UserInv K allow x ∧ Spent x)
    (fun _ _ _ I h => ⟨user_step hK I.1 h,spent_step hK I.1 I.2 h⟩) hinit).1
  exact fun pid hlt hused hpoint => hall.2 pid _ (taskOf_used hlt hused) hpoint

/-- The heap of one page has met the stack. -/
theorem stops_at_stack : ∃ t P', (∃ l s, Runs (UserMove sampleKernel (ForksSupplied sampleKernel) true)
      (.user s,fun _ => sampleProgram 0x2FE000) l (.user t,P')) ∧
    (P' 1).heap = 0x2FE000 ∧ (P' 1).heap_top = 0x2FF000 ∧ (P' 1).point = .done ∧
    ((P' 1).heap_top = (P' 1).stack_bottom ∨ freeCount t < 4) := by
  obtain ⟨s,l,t,P',hboot,hstart,C,hcur,hprog⟩ := sample_stopped
  have U := user_runs sample_loadable hboot hstart C
  obtain ⟨label,X⟩ := run_executing sample_loadable U.window
  have hused : (t.processes 1).p_state ≠ .P_FREE := hcur ▸ X.inv.current_live.1
  have hdone : (P' 1).point = .done := by
    rw [hprog]
    rfl
  refine ⟨t,P',⟨l,s,C⟩,?_,?_,hdone,
    stops_when_spent sample_loadable hboot hstart C 1 (by decide) hused hdone⟩
  · rw [hprog]
    rfl
  · rw [hprog]
    rfl

/-- A process that has not failed an assertion can always do its next deed: no store faults, and
the kernel serves each call. -/
theorem never_stuck (hK : Loadable K) {command : Option String}
    {l : List (Option (ℕ × UserAction))} (h : kernel K command s' = .ok (.user s))
    (hP : Starting s P) {t : KState}
    (C : Runs (UserMove K (ForksSupplied K) no_slowdown) (.user s,P) l (.user t,P'))
    (hpoint : (P' t.current).point ≠ .assertFail) :
    Possible K t ((P' t.current).next no_slowdown) := by
  have U := user_runs hK h hP C
  have R : Run K (Supplied K) (.user t) := U.run.mono fun s reg h => ⟨h.2.2,h.2.1,h.1⟩
  obtain ⟨label,S,hx⟩ := run_sound hK R
  have G := U.good _ _ (taskOf_used S.inv.current_slot.2 S.inv.current_live.1)
  cases hnext : (P' t.current).next no_slowdown with
  | compute q => trivial
  | store va c q =>
    obtain ⟨hw,rfl,-,-⟩ := next_store hnext
    exact write_possible (hx t rfl) S.isolated G hw c
  | call intno rdi k =>
    intro reg hno hrdi hforks
    have C := next_call hnext
    rw [← hno] at C
    refine exception_ok S ⟨?_,call_in_window G C hrdi,hforks⟩
    generalize hno' : reg.reg_intno = intno' at C
    cases C with
    | fork => exact Or.inr (Or.inr (Or.inr (Or.inl hno')))
    | test => exact Or.inl hno'
    | start => exact Or.inl hno'
    | request => exact Or.inr (Or.inr (Or.inl hno'))
    | yield => exact Or.inr (Or.inl hno')
    | panic hs => exact absurd hs hpoint

/-- Process 1 can write to its first page. -/
theorem first_write_possible : ∃ t, (∃ P' l s,
    Runs (UserMove sampleKernel (ForksSupplied sampleKernel) true)
      (.user s,fun _ => sampleProgram 0x102000) l (.user t,P')) ∧
    Possible sampleKernel t ((sampleAt 0x102000 0x102000 .write).next true) := by
  obtain ⟨label,s,l,t,P',hboot,hstart,C,-,hcur,hprog⟩ :=
    sample_grown (e := 0x102000) ⟨by decide,by decide,by decide⟩
  have hpoint : (P' t.current).point ≠ .assertFail := by
    rw [hcur, hprog]
    decide
  have h := never_stuck sample_loadable hboot hstart C hpoint
  rw [hcur, hprog] at h
  exact ⟨t,⟨P',l,s,C⟩,h⟩

end Results

end WeensyOS.HeapRuns
