import WeensyOS.Grader
import WeensyOS.Clock
import WeensyOS.ForkAsserts
import WeensyOS.Scheduling

/-!
# Graded runs

The kernel with a tick limit, as the grader runs it: at every `HZ`-th tick it
dumps memory to the log. The checks of parse_log.py succeed on the log of every
run whose page requests stay in the window.
-/

set_option autoImplicit false

namespace WeensyOS.GradedRuns
open WeensyOS.FlatMemory WeensyOS.KernelState WeensyOS.PageTables WeensyOS.PageAllocator
open WeensyOS.Checks WeensyOS.Exceptions WeensyOS.Boot WeensyOS.TableWords WeensyOS.FreePages
open WeensyOS.PagingInvariant WeensyOS.TableCopies WeensyOS.KernelInvariant WeensyOS.KernelSteps
open WeensyOS.KernelChecks WeensyOS.PageMaps
open WeensyOS.Isolation WeensyOS.BootResult WeensyOS.BootRun WeensyOS.Effects WeensyOS.Runs
open WeensyOS.PrivateRuns WeensyOS.SelfChecks WeensyOS.Exhaustion WeensyOS.Clock
open WeensyOS.Printer WeensyOS.PrinterRuns WeensyOS.LogDumps WeensyOS.LogParser WeensyOS.LogRoundTrip
open WeensyOS.Grader WeensyOS.TimeSharing WeensyOS.MachineView WeensyOS.Refinement
open WeensyOS.HeapRuns WeensyOS.ForkAsserts WeensyOS.CheckedRuns WeensyOS.Scheduling

/-- `"Out of memory\n"` -/
def out_of_memory : List UInt8 :=
  ['O','u','t',' ','o','f',' ','m','e','m','o','r','y','\n'].map ascii

/-- What `exception` writes to the log, with its state `t` before the `switch`. -/
def logged (reg : x86_64_registers) (stack : Memory) (t : KState) : List Entry :=
  (if reg.reg_intno = INT_TIMER ∧ t.ticks % HZ = 0 then [.dump t stack] else [])++
  (if reg.reg_intno = INT_SYS_PAGE_ALLOC ∧
      (get_free_addr (t.processes t.current).p_pid t).1 = OUTOFMEMORY
    then [.line out_of_memory] else [])

/-- Runs of the kernel with `TICK_LIMIT`, and what they log. At the limit the machine powers off. -/
inductive GradedRun (K : KernelImage) (allow : KState → x86_64_registers → Prop)
    (TICK_LIMIT : UInt32) (start : Outcome) : List Entry → Outcome → Prop where
  | start : GradedRun K allow TICK_LIMIT start [] start
  | exception {l : List Entry} {s t : KState} {reg : x86_64_registers} {stack : Memory}
    {out : Outcome} (G : GradedRun K allow TICK_LIMIT start l (.user s)) (hallow : allow s reg)
    (henter : exception_enter K reg s = .ok t) (hlimit : t.ticks ≠ TICK_LIMIT)
    (h : exception K reg s = .ok out) :
    GradedRun K allow TICK_LIMIT start (l++logged reg stack t) out
  | store {l : List Entry} {s s' : KState} {va : ℕ} {c : UInt8}
    (G : GradedRun K allow TICK_LIMIT start l (.user s)) (h : user_store va c s = some s') :
    GradedRun K allow TICK_LIMIT start l (.user s')

variable {K : KernelImage} {allow : KState → x86_64_registers → Prop} {TICK_LIMIT : UInt32}
  {label : Labels} {s s' t : KState} {reg : x86_64_registers} {start out : Outcome}
  {l : List Entry} {i : ℕ}

section Dumps

theorem sound_slot (S : Sound K label s) (hi : i < NPROC)
    (hused : (s.processes i).p_state ≠ .P_FREE) : Slot i ∧ live s i := by
  have hpos : 0 < i := Nat.pos_of_ne_zero fun h => hused (h ▸ S.inv.slot0)
  exact ⟨⟨hpos,hi⟩,S.started i ⟨hpos,hi⟩ hused⟩

/-- The pages of a process: below the window those of the kernel, in it the process's own. -/
theorem sound_lookup (S : Sound K label s) (hp : Slot i) (hl : live s i) {k : ℕ} (hk : k < 768) :
    (k = 0xB8 ∧ virtual_memory_lookup s.mem (s.processes i).p_pagetable (k*PAGESIZE) =
      ⟨(k : ℕ),k*PAGESIZE,7⟩) ∨
    (k < 256 ∧ k ≠ 0xB8 ∧ virtual_memory_lookup s.mem (s.processes i).p_pagetable (k*PAGESIZE) =
      ⟨(k : ℕ),k*PAGESIZE,3⟩) ∨
    (256 ≤ k ∧ (virtual_memory_lookup s.mem (s.processes i).p_pagetable (k*PAGESIZE) = .unmapped ∨
      ∃ a, OwnFrame label s i a ∧ virtual_memory_lookup s.mem (s.processes i).p_pagetable
        (k*PAGESIZE) = ⟨(a / 4096 : ℕ),a,7⟩)) := by
  have hv : vpage (k*PAGESIZE) = k := by
    simp only [PAGESIZE]
    rw [vpage_small _ (by omega)]
    omega
  have hoffset : k*PAGESIZE % 4096 = 0 := by
    simp only [PAGESIZE]
    omega
  rw [S.inv.lookup hp hl]
  by_cases hlow : k < 256
  · rw [S.isolated.low i _ hp.owner (rootsOf_live hp hl) _ (hv.trans_lt hlow), kernelWord,
      if_pos (hv.trans_lt hlow), hv]
    by_cases hcga : k = 0xB8
    · subst hcga
      rw [if_pos rfl]
      refine Or.inl ⟨rfl,?_⟩
      rw [leafMapping_frame ⟨by decide,by decide⟩ (Or.inr rfl), hoffset]
      rfl
    · rw [if_neg hcga]
      refine Or.inr (Or.inl ⟨hlow,hcga,?_⟩)
      rw [leafMapping_frame ⟨Nat.mul_mod_left _ _,by omega⟩ (Or.inl rfl), hoffset, add_zero]
      simp only [PAGESIZE]
      congr 1
      omega
  · refine Or.inr (Or.inr ⟨not_lt.1 hlow,?_⟩)
    by_cases hz : leafWord s.mem (s.processes i).p_pagetable (k*PAGESIZE) = 0
    · rw [hz]
      exact Or.inl rfl
    · obtain ⟨-,a,ha,hown⟩ := S.isolated.high i _ hp.owner (rootsOf_live hp hl) (k*PAGESIZE)
        (by omega) hz
      refine Or.inr ⟨a,hown,?_⟩
      rw [ha, leafMapping_frame hown.1 (Or.inr rfl), hoffset, add_zero]

theorem entry_at {k : ℕ} {entry : VMEntry} (h : (virtualState s i)[k]? = some entry) : k < 768 ∧
    entry = virtualEntry s
      (virtual_memory_lookup s.mem (s.processes i).p_pagetable (k*PAGESIZE)) := by
  rw [virtualState, List.getElem?_map] at h
  obtain ⟨j,hj,rfl⟩ := Option.map_eq_some_iff.1 h
  have hlt := (List.getElem?_eq_some_iff.1 hj).1
  rw [List.length_range] at hlt
  rw [List.getElem?_range hlt, Option.some.injEq] at hj
  exact ⟨hlt,hj ▸ rfl⟩

theorem virtual_user (s : KState) (k pa : ℕ) :
    (virtualEntry s ⟨(k : ℕ),pa,3⟩).ua = 0 ∧ (virtualEntry s ⟨(k : ℕ),pa,7⟩).ua ≠ 0 := by
  have hperms : ((3 &&& PageTables.PTE_U : ℕ) : ℤ) = 0 ∧ ((7 &&& PageTables.PTE_U : ℕ) : ℤ) ≠ 0 := by
    decide
  have hpn : ¬(k : ℤ) < 0 := by omega
  simp only [virtualEntry, if_neg hpn]
  exact hperms

theorem space_fit (S : Sound K label s) (hp : Slot i) (hl : live s i) :
    Fit i (virtualState s i) where
  length := by rw [virtualState, List.length_map, List.length_range]
  kernel k entry hentry hlow hcga := by
    obtain ⟨hk,rfl⟩ := entry_at hentry
    simp only [KERNEL_LIMIT, CGA_BLOCK] at hlow hcga
    rcases sound_lookup S hp hl hk with ⟨rfl,-⟩ | ⟨-,-,h⟩ | ⟨hhigh,-⟩
    · exact absurd rfl hcga
    · rw [h]
      exact (virtual_user s k _).1
    · omega
  console entry hentry := by
    obtain ⟨hk,rfl⟩ := entry_at hentry
    rcases sound_lookup S hp hl hk with ⟨-,h⟩ | ⟨-,hcga,-⟩ | ⟨hhigh,-⟩
    · rw [h]
      exact (virtual_user s _ _).2
    · exact absurd rfl hcga
    · exact absurd hhigh (by decide)
  own k entry hentry hhigh howner := by
    obtain ⟨hk,rfl⟩ := entry_at hentry
    simp only [KERNEL_LIMIT] at hhigh
    rcases sound_lookup S hp hl hk with ⟨rfl,-⟩ | ⟨hlow,-⟩ | ⟨-,h | ⟨a,hown,h⟩⟩
    · omega
    · omega
    · rw [h] at howner
      exact absurd rfl howner
    · obtain ⟨-,hlt⟩ := hp
      simp only [NPROC] at hlt
      rw [h]
      refine ⟨?_,(virtual_user s _ _).2⟩
      have hpn : ¬((a / 4096 : ℕ) : ℤ) < 0 := by omega
      simp only [virtualEntry, if_neg hpn, Int.toNat_natCast, hown.2.2]
      omega

theorem counts_small (I : KInv K label s) {pn : ℕ} (hpn : pn < 512) :
    0 ≤ (s.pageinfo pn).refcount ∧ (s.pageinfo pn).refcount < 2^7 := by
  have hsmall : ∀ c : ℤ, c = 0 ∨ c = 1 → 0 ≤ c ∧ c < 2^7 := by
    rintro c (rfl | rfl) <;> decide
  apply hsmall
  by_cases hinit : (pageinfo_init_entry K (pn*4096)).owner = PO_FREE
  · rcases I.paging.pages pn hpn hinit with h | ⟨pid,-,h⟩ <;> rw [h]
    · exact Or.inl rfl
    · exact Or.inr rfl
  · rw [I.paging.marked pn hpn hinit]
    exact Or.inr (if_pos hinit)

theorem sound_dumpable (S : Sound K label s) : Dumpable s where
  counts pn hpn := counts_small S.inv hpn
  aligned i hi hused := by
    obtain ⟨hp,hl⟩ := sound_slot S hi hused
    exact S.inv.paging.aligned (S.inv.root hp hl)
  below i hi hused va hva hperm := by
    obtain ⟨hp,hl⟩ := sound_slot S hi hused
    obtain ⟨k,rfl,hk⟩ := (mem_addrs _ _ _).1 hva
    have hlt : k < 768 := by
      simp only [MEMSIZE_VIRTUAL] at hk
      omega
    have hva' : 0+k*4096 = k*PAGESIZE := by
      simp only [PAGESIZE]
      omega
    rw [hva'] at hperm ⊢
    rcases sound_lookup S hp hl hlt with ⟨rfl,h⟩ | ⟨hlow,-,h⟩ | ⟨-,h | ⟨a,hown,h⟩⟩
    · rw [h]
      decide
    · rw [h]
      simp only [MEMSIZE_PHYSICAL, PAGESIZE]
      omega
    · rw [h] at hperm
      exact absurd rfl hperm
    · rw [h]
      exact hown.1.2

end Dumps

section Runs

theorem GradedRun.run (G : GradedRun K allow TICK_LIMIT start l out) (R : Run K allow start) :
    Run K allow out := by
  induction G with
  | start => exact R
  | exception _ hallow _ _ h ih => exact .exception ih hallow h
  | store _ h ih => exact .store ih h

theorem GradedRun.mono {allow' : KState → x86_64_registers → Prop}
    (G : GradedRun K allow TICK_LIMIT start l out) (h : ∀ s reg, allow s reg → allow' s reg) :
    GradedRun K allow' TICK_LIMIT start l out := by
  induction G with
  | start => exact .start
  | exception _ hallow henter hlimit h' ih => exact .exception ih (h _ _ hallow) henter hlimit h'
  | store _ h' ih => exact .store ih h'

theorem GradedRun.trans {middle : Outcome} {l' : List Entry}
    (G : GradedRun K allow TICK_LIMIT start l middle)
    (G' : GradedRun K allow TICK_LIMIT middle l' out) :
    GradedRun K allow TICK_LIMIT start (l++l') out := by
  induction G' with
  | start => rwa [List.append_nil]
  | exception _ hallow henter hlimit h ih =>
    rw [← List.append_assoc]
    exact .exception ih hallow henter hlimit h
  | store _ h ih => exact .store ih h

/-- The ticks of the dumps that have been made when the clock is at `n`. -/
def dumpTicks (n : ℕ) : List ℕ := (List.range n).filter fun k => k % 100 = 0

theorem mem_dumpTicks {n k : ℕ} : k ∈ dumpTicks n ↔ k < n ∧ k % 100 = 0 := by
  simp [dumpTicks]

theorem dumpTicks_succ (n : ℕ) :
    dumpTicks (n+1) = dumpTicks n++(if n % 100 = 0 then [n] else []) := by
  rw [dumpTicks, List.range_succ, List.filter_append, dumpTicks, List.filter_singleton]
  by_cases h : n % 100 = 0 <;> simp [h]

/-- What the entries of a log are. -/
structure WellLogged (K : KernelImage) (TICK_LIMIT : UInt32) (l : List Entry) (out : Outcome) : Prop where
  clock : out.state.ticks ≤ TICK_LIMIT
  ticks : l.filterMap Entry.tick = (dumpTicks out.state.ticks.toNat).map UInt32.ofNat
  dumps : ∀ s stack, .dump s stack ∈ l → ∃ label, Sound K label s
  lines : ∀ x, .line x ∈ l → x = out_of_memory

theorem logged_ticks (reg : x86_64_registers) (stack : Memory) (t : KState) :
    (logged reg stack t).filterMap Entry.tick =
      if reg.reg_intno = INT_TIMER ∧ t.ticks % HZ = 0 then [t.ticks] else [] := by
  rw [logged, List.filterMap_append]
  split <;> split <;> rfl

theorem hz_divides (x : UInt32) : x % HZ = 0 ↔ x.toNat % 100 = 0 := by
  rw [← UInt32.toNat_inj, UInt32.toNat_mod]
  rfl

theorem clock_next {x y : UInt32} (h : x ≤ y) (hne : x ≠ y) :
    (x+1).toNat = x.toNat+1 ∧ x+1 ≤ y := by
  have hlt : x.toNat < y.toNat :=
    lt_of_le_of_ne (UInt32.le_iff_toNat_le.1 h) fun heq => hne (UInt32.toNat_inj.1 heq)
  have hy := y.toNat_lt
  have hnext : (x+1).toNat = x.toNat+1 := by
    rw [UInt32.toNat_add, UInt32.toNat_one]
    omega
  exact ⟨hnext,UInt32.le_iff_toNat_le.2 (hnext ▸ hlt)⟩

/-- An exception dumps memory as it is then. -/
theorem logged_dump {stack stack' : Memory} {u : KState}
    (h : .dump u stack' ∈ logged reg stack t) : u = t := by
  rcases List.mem_append.1 h with h | h
  · split at h
    · rw [List.mem_singleton, Entry.dump.injEq] at h
      exact h.1
    · cases h
  · split at h
    · cases List.mem_singleton.1 h
    · cases h

theorem logged_line {stack : Memory} {x : List UInt8} (h : .line x ∈ logged reg stack t) :
    x = out_of_memory := by
  rcases List.mem_append.1 h with h | h
  · split at h
    · cases List.mem_singleton.1 h
    · cases h
  · split at h
    · rw [List.mem_singleton, Entry.line.injEq] at h
      exact h
    · cases h

theorem graded_kept (hK : Loadable K) {command : Option String}
    (hboot : kernel K command s' = .ok start) (hpower : s'.ticks = 0)
    (G : GradedRun K (Supplied K) TICK_LIMIT start l out) : WellLogged K TICK_LIMIT l out := by
  induction G with
  | start =>
    have hzero : start.state.ticks = 0 := (kernel_ticks hboot).trans hpower
    refine ⟨?_,?_,fun _ _ h => absurd h List.not_mem_nil,fun _ h => absurd h List.not_mem_nil⟩
    · rw [hzero]
      exact UInt32.zero_le
    · rw [hzero]
      rfl
  | @exception l s t reg stack out G hallow henter hlimit h ih =>
    obtain ⟨hclock,hticks,hdumps,hlines⟩ := ih
    have hsame := enter_ticks henter
    rw [hsame] at hlimit
    have hnext := exception_ticks h
    obtain ⟨hsucc,hle⟩ := clock_next hclock hlimit
    change s.ticks ≤ TICK_LIMIT at hclock
    change _ = (dumpTicks s.ticks.toNat).map UInt32.ofNat at hticks
    refine ⟨?_,?_,fun u stack' hu => ?_,fun x hx => ?_⟩
    · rw [hnext]
      split
      · exact hle
      · exact hclock
    · rw [List.filterMap_append, hticks, logged_ticks, hsame, hnext]
      by_cases hno : reg.reg_intno = INT_TIMER
      · have hdump : dumpTicks (s.ticks+1).toNat =
            dumpTicks s.ticks.toNat++(if s.ticks.toNat % 100 = 0 then [s.ticks.toNat] else []) :=
          hsucc ▸ dumpTicks_succ _
        rw [if_pos hno, hdump, List.map_append]
        congr 1
        by_cases hhz : s.ticks % HZ = 0
        · rw [if_pos ⟨hno,hhz⟩, if_pos ((hz_divides _).1 hhz), List.map_singleton,
            UInt32.ofNat_toNat]
        · rw [if_neg fun h => hhz h.2, if_neg fun h => hhz ((hz_divides _).2 h)]
          rfl
      · rw [if_neg fun h => hno h.1, if_neg hno, List.append_nil]
    · rcases List.mem_append.1 hu with hu | hu
      · exact hdumps u stack' hu
      · obtain rfl := logged_dump hu
        obtain ⟨label,S,-⟩ := run_sound hK (G.run (.boot hboot))
        obtain ⟨-,E⟩ := exception_enter_cases S.inv henter
        exact ⟨label,S.quiet E.quiet E.current⟩
    · rcases List.mem_append.1 hx with hx | hx
      · exact hlines x hx
      · exact logged_line hx
  | @store l s s' va c G h ih =>
    obtain ⟨label,-,hx⟩ := run_sound hK (G.run (.boot hboot))
    obtain ⟨m,rfl,-⟩ := store_tables (hx s rfl) h
    exact ⟨ih.clock,ih.ticks,ih.dumps,ih.lines⟩

end Runs

section Grades

variable {E : Encoding} {buf : ℕ} {T : MemMapTimeline} {data : List (ℤ × Items)}

/-- The line about memory is no dump. -/
theorem memory_line (E : Encoding) : OtherLine E out_of_memory := by
  have hclean : ∀ c ∈ out_of_memory, c < 128 := by decide +kernel
  have hstr : str out_of_memory =
      ['O','u','t',' ','o','f',' ','m','e','m','o','r','y']++['\n'] := by decide +kernel
  refine ⟨_,⟨⟨['O','u','t',' ','o','f',' ','m','e','m','o','r','y'].map ascii,by decide +kernel⟩,
    ⟨_,hstr,by decide,by decide⟩,decode_str hclean⟩,?_,?_⟩
  · rw [hstr]
    decide
  · rw [hstr]
    decide

/-- The last dump before the clock was at `n`. -/
def lastDump (n : ℕ) : ℕ := (n-1) / 100*100

theorem lastDump_mem {n : ℕ} (h : n ≠ 0) : lastDump n ∈ dumpTicks n ∧
    ∀ k ∈ dumpTicks n, k ≤ lastDump n := by
  refine ⟨mem_dumpTicks.2 ⟨?_,?_⟩,fun k hk => ?_⟩
  · rw [lastDump]
    omega
  · exact Nat.mul_mod_left _ _
  · obtain ⟨hlt,hmod⟩ := mem_dumpTicks.1 hk
    rw [lastDump]
    omega

theorem ticks_nodup {n : ℕ} (h : n ≤ 2^32) : ((dumpTicks n).map UInt32.ofNat).Nodup := by
  refine List.Nodup.map_on (fun x hx y hy hxy => ?_) (List.nodup_range.filter _)
  have hx' := (mem_dumpTicks.1 hx).1
  have hy' := (mem_dumpTicks.1 hy).1
  have heq := congrArg UInt32.toNat hxy
  have hsize : UInt32.size = 2^32 := rfl
  rwa [UInt32.toNat_ofNat_of_lt' (by omega), UInt32.toNat_ofNat_of_lt' (by omega)] at heq

/-- The last item of sorted data. -/
theorem sorted_last (S : Sorted T data) {tick : ℤ} (hmem : tick ∈ data.map Prod.fst)
    (hmax : ∀ k ∈ data.map Prod.fst, k ≤ tick) : ∃ items, data.getLast? = some (tick,items) := by
  have hsorted := S.sorted
  rcases List.eq_nil_or_concat' data with rfl | ⟨before,⟨last,items⟩,rfl⟩
  · cases hmem
  · rw [List.map_append, List.pairwise_append] at hsorted
    rw [List.map_append, List.mem_append] at hmem
    have hle := hmax last (by simp)
    have hge : tick ≤ last := by
      rcases hmem with h | h
      · exact (hsorted.2.2 tick h last (by simp)).le
      · exact (List.mem_singleton.1 h).le
    exact ⟨items,by rw [List.getLast?_concat, le_antisymm hle hge]⟩

/-- What the grader has read from the log of a run. -/
structure Read (K : KernelImage) (l : List Entry) (out : Outcome) (T : MemMapTimeline) : Prop where
  dumped : ∀ n ∈ dumpTicks out.state.ticks.toNat, ∃ s stack, .dump s stack ∈ l ∧ tickOf s = n ∧
    (∃ label, Sound K label s) ∧ T.mem_data n = some (snapshot s)
  other : ∀ tick : ℤ, (∀ n ∈ dumpTicks out.state.ticks.toNat, tick ≠ n) → T.mem_data tick = none

theorem tick_of_dump {n : ℕ} (hn : n < 2^32) (h : s.ticks = UInt32.ofNat n) : tickOf s = n := by
  have hsize : UInt32.size = 2^32 := rfl
  rw [tickOf, h, UInt32.toNat_ofNat_of_lt' (by omega)]

/-- The log of a run and complete lines behind it. -/
theorem ended_read (E : Encoding) (hbuf : buf+4 ≤ 2^64) (Q : WellLogged K TICK_LIMIT l out)
    {tail : List (List UInt8)} (htail : ∀ x ∈ tail, OtherLine E x) :
    ∃ log T lines, write_log buf (l++tail.map Entry.line) = .ok log ∧
      MemMapTimeline.init E log = .ok T ∧ Read K l out T ∧
      List.Forall₂ (Reads E) ((l++tail.map Entry.line).flatMap Entry.lines) lines ∧
      lines.foldlM MemMapTimeline.read_line {} = .ok T := by
  have hsmall := out.state.ticks.toNat_lt
  have hsame : (l++tail.map Entry.line).filterMap Entry.tick = l.filterMap Entry.tick := by
    rw [List.filterMap_append, List.filterMap_map]
    simp [Function.comp_def, Entry.tick]
  have hnodup : ((l++tail.map Entry.line).filterMap Entry.tick).Nodup := by
    rw [hsame, Q.ticks]
    exact ticks_nodup (by omega)
  have hin : ∀ s stack, .dump s stack ∈ l++tail.map Entry.line → .dump s stack ∈ l := by
    intro s stack h
    rcases List.mem_append.1 h with h | h
    · exact h
    · obtain ⟨x,-,hx⟩ := List.mem_map.1 h
      cases hx
  have hdumps : ∀ s stack, .dump s stack ∈ l++tail.map Entry.line → Dumpable s := fun s stack h => by
    obtain ⟨label,S⟩ := Q.dumps s stack (hin s stack h)
    exact sound_dumpable S
  have hlines : ∀ x, .line x ∈ l++tail.map Entry.line → OtherLine E x := by
    intro x h
    rcases List.mem_append.1 h with h | h
    · exact Q.lines x h ▸ memory_line E
    · obtain ⟨y,hy,hx⟩ := List.mem_map.1 h
      cases hx
      exact htail x hy
  obtain ⟨lines,T,hforall,hfold,hsome,hnone⟩ := entries_read (T := {}) hnodup hdumps hlines
    fun _ _ _ => rfl
  refine ⟨_,T,lines,write_entries hbuf hdumps [],?_,⟨fun n hn => ?_,fun tick h => ?_⟩,hforall,hfold⟩
  · rw [List.nil_append, init_lines hforall, hfold]
  · have hlt := (mem_dumpTicks.1 hn).1
    have hmem : UInt32.ofNat n ∈ l.filterMap Entry.tick := Q.ticks ▸ List.mem_map_of_mem hn
    obtain ⟨e,he,htick⟩ := List.mem_filterMap.1 hmem
    cases e with
    | line x => cases htick
    | dump s stack =>
      have hs := hsome s stack (List.mem_append_left _ he)
      have hsame := tick_of_dump (by omega) (Option.some.inj htick)
      rw [hsame] at hs
      exact ⟨s,stack,he,hsame,Q.dumps s stack he,hs⟩
  · refine (hnone tick fun s stack hs htick => ?_).trans rfl
    have hmem : s.ticks ∈ l.filterMap Entry.tick := List.mem_filterMap.2 ⟨_,hin s stack hs,rfl⟩
    rw [Q.ticks] at hmem
    obtain ⟨n,hn,heq⟩ := List.mem_map.1 hmem
    have hlt := (mem_dumpTicks.1 hn).1
    exact h n hn (htick.trans (tick_of_dump (by omega) heq.symm))

theorem graded_read (E : Encoding) (hbuf : buf+4 ≤ 2^64) (Q : WellLogged K TICK_LIMIT l out) :
    ∃ log T, write_log buf l = .ok log ∧ MemMapTimeline.init E log = .ok T ∧ Read K l out T := by
  have hnone : ∀ x ∈ ([] : List (List UInt8)), OtherLine E x := fun x h => absurd h List.not_mem_nil
  obtain ⟨log,T,-,hwrite,hread,R,-⟩ := ended_read E hbuf Q hnone
  rw [List.map_nil, List.append_nil] at hwrite
  exact ⟨log,T,hwrite,hread,R⟩

theorem read_keys (R : Read K l out T) (tick : ℤ) : (∃ x, T.mem_data tick = some x) ↔
    ∃ n ∈ dumpTicks out.state.ticks.toNat, tick = n := by
  constructor
  · rintro ⟨x,hx⟩
    by_contra hnot
    rw [R.other tick fun n hn h => hnot ⟨n,hn,h⟩] at hx
    cases hx
  · rintro ⟨n,hn,rfl⟩
    obtain ⟨s,-,-,-,-,hs⟩ := R.dumped n hn
    exact ⟨_,hs⟩

theorem snapshot_space {id : ℤ} {entries : List VMEntry}
    (h : (snapshot s).vm_state id = some entries) : ∃ i : ℕ, i < NPROC ∧
      (s.processes i).p_state ≠ .P_FREE ∧ id = i ∧ entries = virtualState s i := by
  simp only [snapshot, snapshotBelow] at h
  split at h
  · rename_i hid
    obtain ⟨hlow,hhigh,hused⟩ := hid
    refine ⟨id.toNat,?_,hused,?_,(Option.some.inj h).symm⟩
    · simp only [NPROC] at hhigh ⊢
      omega
    · omega
  · cases h

/-- The items of sorted data are snapshots of sound states. -/
theorem read_items (R : Read K l out T) (S : Sorted T data) {x : ℤ × Items} (hx : x ∈ data) :
    ∃ s stack, .dump s stack ∈ l ∧ tickOf s = x.1 ∧ (∃ label, Sound K label s) ∧
      ItemsOf (snapshot s).vm_state x.2 := by
  obtain ⟨inst,hinst,I⟩ := S.items x.1 x.2 hx
  obtain ⟨n,hn,htick⟩ := (read_keys R x.1).1 ⟨inst,hinst⟩
  obtain ⟨s,stack,hdump,hsame,hs,hdata⟩ := R.dumped n hn
  rw [htick, hdata, Option.some.injEq] at hinst
  exact ⟨s,stack,hdump,hsame.trans htick.symm,hs,hinst ▸ I⟩

theorem read_fit (R : Read K l out T) (S : Sorted T data) : ∀ x ∈ data, ∀ y ∈ x.2, Fit y.1 y.2 := by
  intro x hx y hy
  obtain ⟨s,-,-,-,⟨label,hs⟩,I⟩ := read_items R S hx
  obtain ⟨i,hi,hused,hid,hentries⟩ := snapshot_space ((I.items y.1 y.2).1 hy)
  obtain ⟨hp,hl⟩ := sound_slot hs hi hused
  rw [hid, hentries]
  exact space_fit hs hp hl

theorem read_last (R : Read K l out T) (S : Sorted T data) (h : out.state.ticks ≠ 0) :
    (data.map Prod.fst).max? = some (lastDump out.state.ticks.toNat : ℤ) ∧
    ∃ items, data.getLast? = some ((lastDump out.state.ticks.toNat : ℤ),items) := by
  have hne : out.state.ticks.toNat ≠ 0 := fun hz => h (UInt32.toNat_inj.1 hz)
  obtain ⟨hmem,hmax⟩ := lastDump_mem hne
  have hkey : (lastDump out.state.ticks.toNat : ℤ) ∈ data.map Prod.fst :=
    (S.ticks _).2 ((read_keys R _).2 ⟨_,hmem,rfl⟩)
  have hle : ∀ k ∈ data.map Prod.fst, k ≤ (lastDump out.state.ticks.toNat : ℤ) := fun k hk => by
    obtain ⟨n,hn,rfl⟩ := (read_keys R k).1 ((S.ticks k).1 hk)
    have := hmax n hn
    omega
  exact ⟨List.max?_eq_some_iff.2 ⟨hkey,hle⟩,sorted_last S hkey hle⟩

/-- The items of a snapshot, by process. -/
def spaces (s : KState) : Items :=
  ((List.range NPROC).filter fun i => (s.processes i).p_state ≠ .P_FREE).map fun i : ℕ =>
    ((i : ℤ),virtualState s i)

theorem mem_spaces {id : ℤ} {entries : List VMEntry} : (id,entries) ∈ spaces s ↔
    ∃ i : ℕ, i < NPROC ∧ (s.processes i).p_state ≠ .P_FREE ∧ id = i ∧
      entries = virtualState s i := by
  simp only [spaces, List.mem_map, List.mem_filter, List.mem_range, decide_eq_true_iff,
    Prod.mk.injEq, and_assoc]
  constructor
  · rintro ⟨i,hi,hused,hid,hentries⟩
    exact ⟨i,hi,hused,hid.symm,hentries.symm⟩
  · rintro ⟨i,hi,hused,hid,hentries⟩
    exact ⟨i,hi,hused,hid.symm,hentries.symm⟩

theorem snapshot_items (s : KState) : ItemsOf (snapshot s).vm_state (spaces s) where
  keys := by
    rw [spaces, List.map_map]
    exact List.Nodup.map (fun i j h => Int.natCast_inj.1 h) (List.nodup_range.filter _)
  items id entries := by
    rw [mem_spaces]
    refine ⟨?_,snapshot_space⟩
    rintro ⟨i,hi,hused,hid,hentries⟩
    rw [hid, hentries]
    simp only [snapshot, snapshotBelow, Int.toNat_natCast]
    exact if_pos ⟨by omega,by omega,hused⟩

/-- What has been read can be sorted. -/
theorem read_sorted (R : Read K l out T) : ∃ data, Sorted T data := by
  choose f stack hdump hsame hsound hdata using R.dumped
  refine ⟨(dumpTicks out.state.ticks.toNat).attach.map fun x => ((x.1 : ℤ),spaces (f x.1 x.2)),
    ?_,fun tick => ?_,fun tick items h => ?_⟩
  · rw [List.map_map]
    have hkeys : (Prod.fst ∘ fun x : { n // n ∈ dumpTicks out.state.ticks.toNat } =>
        ((x.1 : ℤ),spaces (f x.1 x.2))) = (fun n : ℕ => (n : ℤ)) ∘ Subtype.val := rfl
    rw [hkeys, ← List.map_map, List.attach_map_subtype_val, List.pairwise_map]
    exact (List.pairwise_lt_range.filter _).imp fun h => Int.ofNat_lt.2 h
  · rw [read_keys R]
    constructor
    · intro h
      obtain ⟨⟨k,items⟩,hx,hk⟩ := List.mem_map.1 h
      obtain ⟨⟨n,hn⟩,-,hx⟩ := List.mem_map.1 hx
      simp only [Prod.mk.injEq] at hx
      exact ⟨n,hn,hk.symm.trans hx.1.symm⟩
    · rintro ⟨n,hn,rfl⟩
      exact List.mem_map.2 ⟨_,List.mem_map.2 ⟨⟨n,hn⟩,List.mem_attach _ _,rfl⟩,rfl⟩
  · obtain ⟨⟨n,hn⟩,-,h⟩ := List.mem_map.1 h
    simp only [Prod.mk.injEq] at h
    obtain ⟨rfl,rfl⟩ := h
    exact ⟨_,hdata n hn,snapshot_items _⟩

end Grades

section Pages

/-- Every process has the page `p`. -/
def HasPage (p : WindowPage) (s : KState) : Prop :=
  ∀ pid t, taskOf s pid = some t → t.space p ≠ none

variable {p : WindowPage}

/-- No call takes a page away. -/
theorem serve_page {t t' : Process} {r : KernelResponse} {pid : ℕ} {q : Request WindowPage}
    (hpage : t.space p ≠ none) (h : t.serve weensy pid reg q r = some t') : t'.space p ≠ none := by
  cases q with
  | grow p' =>
    cases r with
    | page contents =>
      cases h
      by_cases hp : p = p'
      · subst hp
        simp only [Function.update_self]
        exact Option.some_ne_none _
      · simp only [Function.update_of_ne hp]
        exact hpage
    | refused =>
      cases h
      exact hpage
    | done => cases h
    | child j => cases h
    | full => cases h
    | abandoned j space => cases h
  | identify =>
    cases r <;> cases h
    exact hpage
  | yield =>
    cases r <;> cases h
    exact hpage
  | fault =>
    cases r <;> cases h
    exact hpage
  | fork => cases r <;> cases h <;> exact hpage

theorem perform_page {t t' : Process} {r : KernelResponse} {pid : ℕ} (hpage : t.space p ≠ none)
    (h : t.perform weensy pid (.call reg,r) = some t') : t'.space p ≠ none := by
  obtain ⟨q,-,hserve⟩ := Option.bind_eq_some_iff.1 h
  exact serve_page hpage hserve

theorem write_page {t t' : Process} {va pid : ℕ} {c : UInt8} (hpage : t.space p ≠ none)
    (h : t.perform weensy pid (.store va c,.done) = some t') : t'.space p ≠ none := by
  obtain ⟨⟨x,k⟩,-,hwrite⟩ := Option.bind_eq_some_iff.1 h
  cases x with
  | none =>
    cases hwrite
    exact hpage
  | some p' =>
    obtain ⟨page,-,rfl⟩ := Option.map_eq_some_iff.1 hwrite
    by_cases hp : p = p'
    · subst hp
      simp only [Function.update_self]
      exact Option.some_ne_none _
    · simp only [Function.update_of_ne hp]
      exact hpage

/-- A fork that finds its pages is not abandoned. -/
theorem not_abandoned (X : Executing K label s) {t t' : Process} {r : KernelResponse}
    (hfund : ForksFunded K s reg) (h : exception K reg s = .ok out)
    (hact : t.perform weensy s.current (.call reg,r) = some t')
    (hfit : Admissible NPROC (machineOf (.user s)) t r)
    (hself : taskOf out.state s.current = some t') (j : ℕ) (space : ProcessSpace) :
    r ≠ .abandoned j space := by
  rintro rfl
  obtain ⟨q,hrequest,hserve⟩ := Option.bind_eq_some_iff.1 hact
  cases q with
  | fork =>
    obtain ⟨⟨hj,hlt,hnone,-⟩,-⟩ := hfit
    cases hserve
    rcases fork_answer X (fork_intno hrequest) hfund h with hpos | hall
    · rw [result_task hself] at hpos
      rw [show toInt32 (weensy.answer reg (-1)).reg_rax.toNat = -1 from
        register_result (Or.inl rfl)] at hpos
      exact absurd hpos (by decide)
    · have hused := hall j ⟨hj,hlt⟩
      rw [usedOf, show taskOf s j = none from hnone] at hused
      cases hused
  | identify => cases hserve
  | yield => cases hserve
  | fault => cases hserve
  | grow p => cases hserve

theorem page_after_exception (hK : Loadable K) (R : Run K InWindow (.user s))
    (hwin : InWindow s reg) (hfund : ForksFunded K s reg) (H : HasPage p s)
    (h : exception K reg s = .ok out) : HasPage p out.state := by
  obtain ⟨label,X⟩ := run_executing hK R
  obtain ⟨r,t,t',ht,hact,hfit,hafter,hself⟩ := exception_after hK R hwin h
  have hparent := H _ t ht
  have hothers : ∀ pid u, Function.update (taskOf s) s.current (some t') pid = some u →
      u.space p ≠ none := fun pid u hu => by
    by_cases hpid : pid = s.current
    · rw [hpid, Function.update_self, Option.some.injEq] at hu
      exact hu ▸ perform_page hparent hact
    · rw [Function.update_of_ne hpid] at hu
      exact H pid u hu
  intro pid u hu
  rw [hafter] at hu
  cases hb : born weensy t (.call reg) r with
  | none =>
    rw [hb] at hu
    exact hothers pid u hu
  | some x =>
    obtain ⟨j,child⟩ := x
    rw [hb, place] at hu
    by_cases hpid : pid = j
    · rw [hpid, Function.update_self, Option.some.injEq] at hu
      rw [← hu]
      cases r with
      | child k =>
        cases hb
        exact hparent
      | abandoned k space => exact absurd rfl (not_abandoned X hfund h hact hfit hself k space)
      | done => cases hb
      | refused => cases hb
      | page contents => cases hb
      | full => cases hb
    · rw [Function.update_of_ne hpid] at hu
      exact hothers pid u hu

theorem page_after_store (hK : Loadable K) (R : Run K InWindow (.user s)) {va : ℕ} {c : UInt8}
    (H : HasPage p s) (h : user_store va c s = some s') : HasPage p s' := by
  obtain ⟨t,t',ht,hact,hcases⟩ := store_tasks hK R h
  intro pid u hu
  rcases hcases pid u hu with ⟨rfl,rfl⟩ | ⟨-,hu⟩
  · exact write_page (H _ t ht) hact
  · exact H pid u hu

theorem page_quiet (Q : Quiet s t) (H : HasPage p s) : HasPage p t := by
  intro pid u hu
  obtain ⟨hlt,hused⟩ := task_slot hu
  rw [taskOf_used hlt hused, Option.some.injEq] at hu
  rw [← hu, pagesOf_quiet Q]
  have hpage := H pid _ (taskOf_used hlt fun h => hused (((Q.procs pid).1).2 h))
  exact hpage

/-- Runs in which forks find their pages. -/
abbrev Funded (K : KernelImage) : KState → x86_64_registers → Prop := fun s reg =>
  Supplied K s reg ∧ ForksFunded K s reg

/-- A page that every process has is in every dump from then on. -/
theorem pages_dumped (hK : Loadable K) (R : Run K (Supplied K) start) (H : HasPage p start.state)
    (G : GradedRun K (Funded K) TICK_LIMIT start l out) :
    HasPage p out.state ∧ ∀ s stack, .dump s stack ∈ l → HasPage p s := by
  have hrun : ∀ {l out}, GradedRun K (Funded K) TICK_LIMIT start l out → Run K InWindow out :=
    fun G => ((G.mono fun _ _ h => h.1).run R).mono fun _ _ h => h.window
  induction G with
  | start => exact ⟨H,fun _ _ h => absurd h List.not_mem_nil⟩
  | @exception l s t reg stack out G hallow henter hlimit h ih =>
    obtain ⟨hpage,hdumps⟩ := ih
    refine ⟨page_after_exception hK (hrun G) hallow.1.window hallow.2 hpage h,
      fun u stack' hu => ?_⟩
    rcases List.mem_append.1 hu with hu | hu
    · exact hdumps u stack' hu
    · obtain rfl := logged_dump hu
      obtain ⟨label,X⟩ := run_executing hK (hrun G)
      exact page_quiet (exception_enter_cases X.inv henter).2.quiet hpage
  | @store l s s' va c G h ih => exact ⟨page_after_store hK (hrun G) ih.1 h,ih.2⟩

/-- The first page of the window in a snapshot. -/
theorem first_page_owned (S : Sound K label s) (hp : Slot i) (hl : live s i)
    (hpage : pagesOf s i p ≠ none) (hfirst : pageAddr p = PROC_START_ADDR) {entry : VMEntry}
    (hentry : (virtualState s i)[KERNEL_LIMIT]? = some entry) : entry.owner ≠ 0 := by
  obtain ⟨hk,rfl⟩ := entry_at hentry
  have hva : KERNEL_LIMIT*PAGESIZE = pageAddr p := hfirst.symm
  rcases sound_lookup S hp hl hk with ⟨hcga,-⟩ | ⟨hlow,-⟩ | ⟨-,h | ⟨a,hown,h⟩⟩
  · exact absurd hcga (by decide)
  · exact absurd hlow (by decide)
  · refine absurd ?_ hpage
    rw [hva] at h
    rw [pagesOf]
    simp only [translation, h]
    exact if_neg fun hbad => hbad.2 rfl
  · obtain ⟨hpos,hlt⟩ := hp
    simp only [NPROC] at hlt
    have hpn : ¬((a / 4096 : ℕ) : ℤ) < 0 := by omega
    rw [h]
    simp only [virtualEntry, if_neg hpn, Int.toNat_natCast, hown.2.2]
    omega

end Pages

section Sample

theorem timer_funded (K : KernelImage) (s : KState) : Funded K s (syscall INT_TIMER 0) :=
  ⟨⟨Or.inr (Or.inr (Or.inr (Or.inr (Or.inl rfl)))),fun h => absurd h (by decide),
    fun h => absurd h (by decide)⟩,fun h => absurd h (by decide)⟩

/-- At a timer interrupt some process can go on. -/
theorem timer_resumes (X : Executing K label s) (hno : reg.reg_intno = INT_TIMER)
    (h : exception K reg s = .ok out) : ∃ s', out = .user s' := by
  obtain ⟨t,henter,h⟩ := (bind_ok_iff _ _ _).1 h
  obtain ⟨-,E⟩ := exception_enter_cases X.inv henter
  have hrun := entered_runnable X E
  have hready : Runnable { t with ticks := t.ticks+1 } t.current := hrun
  have hslot : t.current < NPROC := E.current ▸ X.inv.current_slot.2
  rw [exception_handle, hno] at h
  change schedule K { t with ticks := t.ticks+1 } = .ok out at h
  obtain ⟨k,q,-,hsched⟩ := schedule_first (K := K) hslot hready
  rw [hsched, run] at h
  obtain ⟨-,-,h⟩ := (bind_ok_iff _ _ _).1 h
  obtain ⟨s',-,h⟩ := (bind_ok_iff _ _ _).1 h
  cases h
  exact ⟨s',rfl⟩

/-- The first tick of a clock. -/
theorem first_tick (hK : Loadable K) (R : Run K (Supplied K) (.user s)) (hticks : s.ticks = 0) :
    ∃ l t, GradedRun K (Funded K) 1000 (.user s) l (.user t) ∧
      (Outcome.user t).state.ticks = 1 := by
  obtain ⟨label,S,-⟩ := run_sound hK R
  obtain ⟨label',X⟩ := run_executing hK R
  obtain ⟨out,hout⟩ := exception_ok S (timer_funded K s).1
  obtain ⟨s',rfl⟩ := timer_resumes X rfl hout
  obtain ⟨t,henter,-⟩ := (bind_ok_iff _ _ _).1 hout
  have hzero : (Outcome.user s).state.ticks = 0 := hticks
  have hlimit : t.ticks ≠ 1000 := by
    rw [enter_ticks henter, hzero]
    decide
  refine ⟨[]++logged (syscall INT_TIMER 0) s.mem t,s',
    .exception .start (timer_funded K s) henter hlimit hout,?_⟩
  rw [exception_ticks hout, hzero]
  rfl

/-- The first page of the window. -/
def first_page : WindowPage := ⟨0,by decide⟩

/-- A process that is alone can ask for its first page. -/
theorem sample_first_page : ∃ s t l, kernel sampleKernel (some "fork") powerOn = .ok (.user s) ∧
    GradedRun sampleKernel (Supplied sampleKernel) 1000 (.user s) l (.user t) ∧ t.ticks = 0 ∧
    HasPage first_page t := by
  obtain ⟨label,s,hboot,S,hcur,hfree,-⟩ := sample_solo powerOn
  have hticks : s.ticks = 0 := kernel_ticks hboot
  have hwin : InWindow s (syscall INT_SYS_PAGE_ALLOC 0x100000) := fun _ =>
    ⟨by decide,by decide,by decide⟩
  have hallow : Supplied sampleKernel s (syscall INT_SYS_PAGE_ALLOC 0x100000) :=
    ⟨Or.inr (Or.inr (Or.inl rfl)),hwin,fun h => absurd h (by decide)⟩
  obtain ⟨label',t₁,t₂,t,hout,H,-⟩ := solo_call S (Or.inr rfl) hwin
  have hsame := enter_ticks H.enter
  have hlimit : t₁.ticks ≠ 1000 := by
    rw [hsame, hticks]
    decide
  refine ⟨s,t,[]++logged (syscall INT_SYS_PAGE_ALLOC 0x100000) s.mem t₁,hboot,
    .exception .start hallow H.enter hlimit hout,(exception_ticks hout).trans hticks,?_⟩
  obtain ⟨r,u,u',hu,hact,-,hafter,hself⟩ :=
    exception_after sample_loadable (.boot hboot) hwin hout
  have hrequest : requestOf (syscall INT_SYS_PAGE_ALLOC 0x100000) = some (.grow first_page) :=
    requestOf_alloc rfl (by decide)
  have hgot : 0 ≤ toInt32 u'.registers.reg_rax.toNat := by
    by_contra hneg
    rw [← result_task hself] at hneg
    have hfew := refused_memory S.executing rfl hwin hout (not_le.1 hneg)
    omega
  rw [Task.perform_call hrequest] at hact
  intro pid v hv
  change taskOf (Outcome.user t).state pid = some v at hv
  rw [hafter] at hv
  cases r with
  | page contents =>
    cases hact
    by_cases hpid : pid = s.current
    · subst hpid
      simp only [born, place, Function.update_self, Option.some.injEq] at hv
      rw [← hv]
      simp only [Function.update_self]
      exact Option.some_ne_none _
    · simp only [born, place, Function.update_of_ne hpid] at hv
      obtain ⟨hlt,hused⟩ := task_slot hv
      have hpos : 0 < pid := Nat.pos_of_ne_zero fun h => hused (h ▸ S.sound.inv.slot0)
      exact absurd (S.alone pid ⟨hpos,hlt⟩ hpid) hused
  | refused =>
    cases hact
    rw [show toInt32 (weensy.answer _ (-1)).reg_rax.toNat = -1 from
      register_result (Or.inl rfl)] at hgot
    exact absurd hgot (by decide)
  | done => cases hact
  | child j => cases hact
  | full => cases hact
  | abandoned j space => cases hact

end Sample

section Results

variable {buf : ℕ} {p : WindowPage}

/-- The log of every run is read, with the dumps at the multiples of `HZ`. The invariants hold and
the kernel and the processes are found to be isolated, from any tick on. -/
theorem grading_passes (E : Encoding) (hbuf : buf+4 ≤ 2^64) (hK : Loadable K)
    {command : Option String} (hboot : kernel K command s' = .ok start) (hpower : s'.ticks = 0)
    (G : GradedRun K (Supplied K) TICK_LIMIT start l out) :
    ∃ log T, write_log buf l = .ok log ∧ MemMapTimeline.init E log = .ok T ∧
      (∀ tick : ℤ, (∃ x, T.mem_data tick = some x) ↔
        ∃ n ∈ dumpTicks out.state.ticks.toNat, tick = n) ∧
      (∃ data, Sorted T data) ∧ ∀ data, Sorted T data → out.state.ticks ≠ 0 →
        CheckInvariants data T.panic (lastDump out.state.ticks.toNat) = .ok () ∧
        ∀ start_at_tick ≤ (lastDump out.state.ticks.toNat : ℤ),
          PerformCheck data IsKernelIsolated start_at_tick =
            .ok (1,lastDump out.state.ticks.toNat) ∧
          PerformCheck data AreProcessesIsolated start_at_tick =
            .ok (1,lastDump out.state.ticks.toNat) := by
  obtain ⟨log,T,hwrite,hread,R⟩ := graded_read E hbuf (graded_kept hK hboot hpower G)
  refine ⟨log,T,hwrite,hread,read_keys R,read_sorted R,fun data S hticks => ?_⟩
  have hfit := read_fit R S
  obtain ⟨hmax,items,hlast⟩ := read_last R S hticks
  exact ⟨invariants_hold hmax hfit,fun start_at_tick hstart =>
    ⟨perform_passes (fun x hx _ => kernel_isolated (hfit x hx)) hlast hstart,
      perform_passes (fun x hx _ => processes_isolated (hfit x hx)) hlast hstart⟩⟩

/-- The log of the sample kernel after one tick. -/
theorem first_dump_passes : ∃ log T data, MemMapTimeline.init latin1 log = .ok T ∧ Sorted T data ∧
    CheckInvariants data T.panic 0 = .ok () ∧
    PerformCheck data IsKernelIsolated 0 = .ok (1,0) := by
  obtain ⟨label,s,hboot,-⟩ := sample_solo powerOn
  have hticks : s.ticks = 0 := kernel_ticks hboot
  obtain ⟨l,out,G,hone⟩ := first_tick sample_loadable (.boot hboot) hticks
  obtain ⟨log,T,-,hread,-,⟨data,S⟩,hall⟩ := grading_passes latin1 (show 0+4 ≤ 2^64 by norm_num)
    sample_loadable hboot rfl (G.mono fun _ _ h => h.1)
  obtain ⟨hchecks,hstages⟩ := hall data S (by rw [hone]; decide)
  rw [hone] at hchecks hstages
  exact ⟨log,T,data,hread,S,hchecks,(hstages 0 (by decide)).1⟩

/-- The fork check succeeds from any tick on at which every process has a page at the start of its
window, if from then on forks find their pages. -/
theorem fork_stage_passes (E : Encoding) (hbuf : buf+4 ≤ 2^64) (hK : Loadable K)
    {command : Option String} (hboot : kernel K command s' = .ok start) (hpower : s'.ticks = 0)
    (G : GradedRun K (Supplied K) TICK_LIMIT start l (.user t))
    (hfirst : pageAddr p = PROC_START_ADDR) (H : HasPage p t) {l' : List Entry}
    (G' : GradedRun K (Funded K) TICK_LIMIT (.user t) l' out) :
    ∃ log T, write_log buf (l++l') = .ok log ∧ MemMapTimeline.init E log = .ok T ∧
      (∃ data, Sorted T data) ∧ ∀ data, Sorted T data → out.state.ticks ≠ 0 →
        ∀ start_at_tick : ℤ, t.ticks.toNat ≤ start_at_tick →
          start_at_tick ≤ (lastDump out.state.ticks.toNat : ℤ) →
          PerformCheck data IsForkOK start_at_tick =
            .ok (1,lastDump out.state.ticks.toNat) := by
  have hrun := G.run (.boot hboot)
  have Q := graded_kept hK hboot hpower G
  have hwhole := graded_kept hK hboot hpower (G.trans (G'.mono fun _ _ h => h.1))
  obtain ⟨log,T,hwrite,hread,R⟩ := graded_read E hbuf hwhole
  refine ⟨log,T,hwrite,hread,read_sorted R,fun data S hticks start_at_tick hlow hhigh => ?_⟩
  have hfit := read_fit R S
  obtain ⟨hmax,items,hlast⟩ := read_last R S hticks
  refine perform_passes (fun x hx hlate => fork_ok (hfit x hx) fun y hy entry hentry => ?_) hlast
    hhigh
  obtain ⟨s,stack,hdump,htick,⟨label,hs⟩,I⟩ := read_items R S hx
  obtain ⟨i,hi,hused,hid,hentries⟩ := snapshot_space ((I.items y.1 y.2).1 hy)
  obtain ⟨hp,hl⟩ := sound_slot hs hi hused
  have hpage : HasPage p s := by
    rcases List.mem_append.1 hdump with hdump | hdump
    · -- the dumps of the first part are older
      have hmem : s.ticks ∈ l.filterMap Entry.tick := List.mem_filterMap.2 ⟨_,hdump,rfl⟩
      rw [Q.ticks] at hmem
      obtain ⟨n,hn,heq⟩ := List.mem_map.1 hmem
      have hlt := (mem_dumpTicks.1 hn).1
      have hsmall := t.ticks.toNat_lt
      change n < t.ticks.toNat at hlt
      have hn' := tick_of_dump (by omega) heq.symm
      omega
    · exact (pages_dumped hK hrun H G').2 s stack hdump
  rw [hentries] at hentry
  exact first_page_owned hs hp hl (hpage i _ (taskOf_used hi hused)) hfirst hentry

theorem first_fork_stage : ∃ log T data, MemMapTimeline.init latin1 log = .ok T ∧ Sorted T data ∧
    PerformCheck data IsForkOK 0 = .ok (1,0) := by
  obtain ⟨s,t,l,hboot,G,hticks,H⟩ := sample_first_page
  obtain ⟨l',out,G',hone⟩ := first_tick sample_loadable (G.run (.boot hboot)) hticks
  obtain ⟨log,T,-,hread,⟨data,S⟩,hall⟩ := fork_stage_passes latin1 (show 0+4 ≤ 2^64 by norm_num)
    sample_loadable hboot rfl G rfl H G'
  have hstage := hall data S (by rw [hone]; decide) 0 (by rw [hticks]; decide)
  rw [hone] at hstage
  exact ⟨log,T,data,hread,S,hstage (by decide)⟩

end Results

end WeensyOS.GradedRuns
