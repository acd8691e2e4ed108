import WeensyOS.TwinBoots

/-!
# Booting starts from a clean slate

Two boots with the same command, from any two memories: the processes, the
page table entries in use, the books and the loaded segments come out the same.
-/

set_option autoImplicit false

namespace WeensyOS.SoftReboot
open WeensyOS.FlatMemory WeensyOS.KernelState WeensyOS.PageTables WeensyOS.PageAllocator
open WeensyOS.Exceptions WeensyOS.Boot WeensyOS.CheckedRuns WeensyOS.PairedRuns
open WeensyOS.RadixForest WeensyOS.TableWords WeensyOS.FreePages WeensyOS.PagingInvariant
open WeensyOS.TableWalks WeensyOS.PageMaps WeensyOS.TableCopies WeensyOS.KernelInvariant
open WeensyOS.KernelSteps
open WeensyOS.Isolation WeensyOS.KernelTables WeensyOS.ProgramLoading WeensyOS.BootResult
open WeensyOS.BootRun WeensyOS.TwinRuns WeensyOS.TwinBoots

variable {K : KernelImage} {m₁ m₂ : Memory} {T T' : ℕ → ℕ → Prop} {V V' : ℕ → Prop}
  {s t s' t' : KState} {pid r va : ℕ} {roots : ℤ → Option ℕ} {label label' : Labels}

section Setup

theorem books_setProc (A : Books V s t) (i : ℕ) (p : proc) :
    Books V (s.setProc i p) (t.setProc i p) where
  info := A.info
  procs j hj := by
    show Function.update t.processes i p j = Function.update s.processes i p j
    by_cases hji : j = i
    · rw [hji, Function.update_self, Function.update_self]
    · rw [Function.update_of_ne hji, Function.update_of_ne hji, A.procs j hj]
  used := A.used

/-- Two runs that have gone on, with at least the tables and the bytes of before. -/
def Further (m₁ m₂ : Memory) (T : ℕ → ℕ → Prop) (V : ℕ → Prop) (s t : KState) : Prop :=
  ∃ T' V', (∀ d a, T d a → T' d a) ∧ (∀ a, V a → V' a) ∧ Twin m₁ m₂ T' V' s t ∧ Booked V' s t

theorem setup_finish_both (B : Twin m₁ m₂ T V s t) (A : Booked V s t) (hp : pid < NPROC)
    (hr : T 0 (s.processes pid).p_pagetable) :
    Both (Further m₁ m₂ T V) (setup_finish pid s) (setup_finish pid t) := by
  have hproc := A.1.procs pid hp
  generalize hreg : { (s.processes pid).p_registers with
    reg_rsp := UInt64.ofNat MEMSIZE_VIRTUAL } = reg
  generalize hs₀ : s.setRegisters pid reg = s₀
  generalize ht₀ : t.setRegisters pid reg = t₀
  have hbooks : Books V s₀ t₀ := by
    rw [← hs₀, ← ht₀, KState.setRegisters, KState.setRegisters, hproc]
    exact books_setProc A.1 _ _
  have B₀ : Twin m₁ m₂ T V s₀ t₀ := by
    rw [← hs₀, ← ht₀]
    exact Twin.congr B rfl rfl
  have howner : t₀.pagetable_owner = s₀.pagetable_owner := by
    rw [← hs₀, ← ht₀]
    exact A.2
  have htable : (s₀.processes pid).p_pagetable = (s.processes pid).p_pagetable := by
    rw [← hs₀]
    simp [KState.setRegisters, KState.setProc]
  have htable' : (t₀.processes pid).p_pagetable = (s.processes pid).p_pagetable := by
    rw [hbooks.procs pid hp, htable]
  -- the map of the stack page, once the allocator has answered
  have hmap : ∀ (c : ℕ) {s₁ t₁ : KState}, Twin m₁ m₂ T V s₁ t₁ → Booked V s₁ t₁ →
      Both (Further m₁ m₂ T V)
        ((virtual_memory_map (s.processes pid).p_pagetable (MEMSIZE_VIRTUAL-PAGESIZE) c PAGESIZE 7
          (some pagetable_alloc) s₁).bind fun x => .ok (x.2.setState pid .P_RUNNABLE))
        ((virtual_memory_map (s.processes pid).p_pagetable (MEMSIZE_VIRTUAL-PAGESIZE) c PAGESIZE 7
          (some pagetable_alloc) t₁).bind fun x => .ok (x.2.setState pid .P_RUNNABLE)) := by
    intro c s₁ t₁ B₁ A₁
    refine Both.bind (map_both B₁ (stocked A₁) hr _ c PAGESIZE 7) fun x y h => ?_
    obtain ⟨-,T',V',L,-⟩ := h
    have A' := L.books A₁
    have hproc' := A'.1.procs pid hp
    refine .ok ⟨T',V',L.tables,L.bytes,Twin.congr L.twin rfl rfl,?_,A'.2⟩
    rw [KState.setState, KState.setState, hproc']
    exact books_setProc A'.1 _ _
  rw [setup_finish, setup_finish]
  simp only [hproc, hreg, hs₀, ht₀]
  rcases get_free_addr_both hbooks pid with ⟨hs,ht⟩ | ⟨f,hf,hs,ht⟩
  · simp only [hs, ht, htable, htable']
    exact hmap _ B₀ ⟨hbooks,howner⟩
  · simp only [hs, ht, setPageinfo_processes, htable, htable']
    exact hmap _ (Twin.congr B₀ rfl rfl) ⟨hbooks.take pid fun _ h => Or.inl h,howner⟩

/-- The program of a process is loaded. -/
def Segments (K : KernelImage) (V : ℕ → Prop) (s : KState) (p : ℕ × ℕ) : Prop :=
  ∃ image, K.ramimages[p.2]? = some image ∧ ∀ ph ∈ image.e_program,
    ph.p_type = ELF_PTYPE_LOAD → Filled V s.mem (s.processes p.1).p_pagetable ph

/-- Where two boots have come to, from `s` and `t`. -/
structure Booting₂ (K : KernelImage) (m₁ m₂ : Memory) (label : Labels) (V : ℕ → Prop)
    (s t : KState) : Prop where
  booting : Booting K label s
  twin : Twin m₁ m₂ (tablesOf label) V s t
  books : Books V s t

/-- What setting up one process leaves of the others. -/
structure SetUp (K : KernelImage) (V V' : ℕ → Prop) (pid : ℕ) (s s' : KState) : Prop where
  bytes : ∀ a, V a → V' a
  others : ∀ i, i ≠ pid → s'.processes i = s.processes i
  maps : ∀ (o : ℤ) x, o ≠ pid → rootsOf K s o = some x → MapsKept s.mem s'.mem x
  alive : live s' pid
  low : lowFree s ≤ lowFree s'+8

theorem process_setup_both (hK : Loadable K) (B : Booting₂ K m₁ m₂ label V s t) (hp : Slot pid)
    (hstate : (s.processes pid).p_state = .P_FREE) (hlow : 8 ≤ lowFree s) (program : ℕ) :
    Both (fun x y => ∃ label' V', Booting₂ K m₁ m₂ label' V' x y ∧ SetUp K V V' pid s x ∧
        Segments K V' x (pid,program))
      (process_setup K pid program s) (process_setup K pid program t) := by
  obtain ⟨B,D,A⟩ := B
  rw [process_setup_eq, process_setup_eq]
  obtain ⟨r,label₁,s₁,R,hcopy⟩ := setup_copied B hp hstate (by omega)
  have hproc := A.procs pid hp.2
  have hkernel : tablesOf label 0 K.kernel_pagetable := root_table B.paging B.paging.kernel_root
  have A₀ : Books V (s.setRegisters pid process_init_registers)
      (t.setRegisters pid process_init_registers) := by
    rw [KState.setRegisters, KState.setRegisters, hproc]
    exact books_setProc A _ _
  have D₀ : Twin m₁ m₂ (tablesOf label) V (s.setRegisters pid process_init_registers)
      (t.setRegisters pid process_init_registers) := Twin.congr D rfl rfl
  obtain ⟨⟨r',t₁⟩,hcopy',hr',T',V',L,hroot⟩ := Both.left
    (copy_pagetable_both pid D₀ A₀ hkernel) hcopy
  change r = r' at hr'
  subst hr'
  rw [hcopy, hcopy']
  have A₁ := L.books ⟨⟨A₀.info,A₀.procs,A₀.used⟩,rfl⟩
  have hproc₁ : t₁.processes pid = s₁.processes pid := A₁.1.procs pid hp.2
  have A₂ : Booked V' (s₁.setPagetable pid r) (t₁.setPagetable pid r) := by
    refine ⟨?_,A₁.2⟩
    rw [KState.setPagetable, KState.setPagetable, hproc₁]
    exact books_setProc A₁.1 _ _
  have D₂ : Twin m₁ m₂ (tablesOf label₁) V' (s₁.setPagetable pid r) (t₁.setPagetable pid r) := by
    refine Twin.relabel (Twin.congr L.twin rfl rfl) R.loading.paging fun o x hx => ?_
    by_cases ho : o = pid
    · rw [ho, Function.update_self, Option.some.injEq] at hx
      rw [← hx]
      exact hroot R.null
    · rw [Function.update_of_ne ho] at hx
      exact L.tables 0 x (root_table B.paging hx)
  change Both _ ((program_load K pid program none (s₁.setPagetable pid r)).bind _)
    ((program_load K pid program none (t₁.setPagetable pid r)).bind _)
  refine Both.bind (program_load_both R.loader hK program R.loading D₂ A₂) fun x y h => ?_
  obtain ⟨hres,hok⟩ := h
  rw [← hres]
  refine Both.after _ fun _ hge => ?_
  rw [kassert_ok_iff] at hge
  obtain ⟨image,V₃,s₃,t₃,reg,himage,E,hs₃,ht₃⟩ := hok hge
  rw [hs₃, ht₃]
  obtain ⟨label',s',hfinish,B',hlow',hother,hrun,htable,-,hroots,⟨f,hone⟩,-⟩ :=
    setup_stack B hp R E.loading hlow reg
  have W := E.loading
  have hproc₃ : t₃.processes pid = s₃.processes pid := E.booked.1.procs pid hp.2
  have A₃ : Booked V₃ (s₃.setRegisters pid reg) (t₃.setRegisters pid reg) := by
    refine ⟨?_,E.booked.2⟩
    rw [KState.setRegisters, KState.setRegisters, hproc₃]
    exact books_setProc E.booked.1 _ _
  have hr₃ : tablesOf label₁ 0 ((s₃.setRegisters pid reg).processes pid).p_pagetable := by
    have h : ((s₃.setRegisters pid reg).processes pid).p_pagetable = r := by
      simp [KState.setRegisters, KState.setProc, W.processes, R.loader.table]
    rw [h]
    exact root_table W.paging R.loader.root
  have D₃ : Twin m₁ m₂ (tablesOf label₁) V₃ (s₃.setRegisters pid reg)
      (t₃.setRegisters pid reg) := Twin.congr E.twin rfl rfl
  obtain ⟨t',hfinish',T₄,V₄,hT₄,hV₄,D₄,A₄⟩ := Both.left
    (setup_finish_both D₃ A₃ hp.2 hr₃) hfinish
  rw [hfinish, hfinish']
  have hkept : ∀ x o, Function.update (rootsOf K s) pid (some r) o = some x →
      MapsKept s₃.mem s'.mem x := by
    intro x o hx va hva
    rw [hone o x va hx, hva]
    by_cases h : o = pid ∧ vpage va = vpage (MEMSIZE_VIRTUAL-PAGESIZE)
    · obtain ⟨rfl,hpage⟩ := h
      rw [Function.update_self, Option.some.injEq] at hx
      subst hx
      have hvalue : vpage (MEMSIZE_VIRTUAL-PAGESIZE) = 767 := by decide
      rcases W.physical va (by omega) with h | ⟨h,-⟩
      · omega
      · omega
    · rw [if_neg h]
  change Both _ (.ok s') (.ok t')
  refine .ok ⟨label',V₄,⟨B',?_,A₄.1⟩,⟨fun a ha => hV₄ a (E.bytes a (L.bytes a ha)),hother,?_,?_,
    hlow'⟩,image,himage,fun ph hph hload => ?_⟩
  · refine Twin.relabel D₄ B'.paging fun o x hx => ?_
    rw [hroots] at hx
    exact hT₄ 0 x (root_table W.paging hx)
  · intro o x ho hx va hva
    have hx' : Function.update (rootsOf K s) pid (some r) o = some x := by
      rw [Function.update_of_ne ho]
      exact hx
    refine hkept x o hx' va ?_
    rw [W.others o x va ho hx', R.others o x va ho hx, hva]
  · rw [live, hrun, htable]
    exact ⟨by simp,R.null⟩
  · rw [htable]
    exact (E.filled ph hph hload).later hV₄ (hkept r pid R.loader.root)

theorem SetUp.live_other (U : SetUp K V V' pid s s') {i : ℕ} (hi : i ≠ pid) (h : live s i) :
    live s' i := by
  rw [live, U.others i hi]
  exact h

theorem SetUp.segments (U : SetUp K V V' pid s s') {p : ℕ × ℕ} (hp : Slot p.1) (hne : p.1 ≠ pid)
    (hl : live s p.1) (h : Segments K V s p) : Segments K V' s' p := by
  obtain ⟨image,himage,hfilled⟩ := h
  refine ⟨image,himage,fun ph hph hload => ?_⟩
  rw [U.others p.1 hne]
  have hother : (p.1 : ℤ) ≠ pid := fun h => hne (Int.ofNat.inj h)
  exact (hfilled ph hph hload).later U.bytes (U.maps p.1 _ hother (rootsOf_live hp hl))

/-- All processes of the command line. Programs that were loaded stay as they are. -/
theorem foldlM_both (hK : Loadable K) (l : List (ℕ × ℕ)) (hslots : ∀ p ∈ l, Slot p.1)
    (hnd : (l.map Prod.fst).Nodup) {s t : KState} {label : Labels} {V : ℕ → Prop}
    (B : Booting₂ K m₁ m₂ label V s t) (hstate : ∀ p ∈ l, (s.processes p.1).p_state = .P_FREE)
    (hlow : 8*l.length ≤ lowFree s) :
    Both (fun x y => ∃ label' V', Booting₂ K m₁ m₂ label' V' x y ∧
        (∀ p ∈ l, live x p.1 ∧ Segments K V' x p) ∧
        ∀ p : ℕ × ℕ, Slot p.1 → p.1 ∉ l.map Prod.fst → live s p.1 → Segments K V s p →
          live x p.1 ∧ Segments K V' x p)
      (l.foldlM (fun s p => process_setup K p.1 p.2 s) s)
      (l.foldlM (fun s p => process_setup K p.1 p.2 s) t) := by
  induction l generalizing s t label V with
  | nil => exact .ok ⟨label,V,B,fun p hp => absurd hp List.not_mem_nil,fun _ _ _ hl h => ⟨hl,h⟩⟩
  | cons p l ih =>
    rw [List.foldlM_cons, List.foldlM_cons]
    simp only [List.length_cons] at hlow
    obtain ⟨hp,hnd'⟩ := List.nodup_cons.1 hnd
    have hslot := hslots p (by simp)
    refine Both.bind (process_setup_both hK B hslot (hstate p (by simp)) (by omega) p.2)
      fun s₁ t₁ h => ?_
    obtain ⟨label₁,V₁,B₁,U,hsegments⟩ := h
    have hlow₁ := U.low
    have hne : ∀ q ∈ l, q.1 ≠ p.1 := fun q hq h => hp (List.mem_map.2 ⟨q,hq,h⟩)
    refine Both.mono (ih (fun q hq => hslots q (by simp [hq])) hnd' B₁ (fun q hq => ?_) (by omega))
      fun x y h => ?_
    · rw [U.others q.1 (hne q hq)]
      exact hstate q (by simp [hq])
    · obtain ⟨label',V',B',hall,hkeep⟩ := h
      refine ⟨label',V',B',fun q hq => ?_,fun q hq hql hl hloaded => ?_⟩
      · rcases List.mem_cons.1 hq with rfl | hq
        · exact hkeep q hslot hp U.alive hsegments
        · exact hall q hq
      · rw [List.map_cons, List.mem_cons, not_or] at hql
        exact hkeep q hq hql.2 (U.live_other hql.1 hl) (U.segments hq hql.1 hl hloaded)

end Setup

section Init

/-- The bytes of the five static tables. -/
def tableBytes (K : KernelImage) (x : ℕ) : Prop :=
  K.kernel_pagetables ≤ x ∧ x < K.kernel_pagetables+5*4096

theorem table_inside {i x : ℕ} (hi : i < 5) (hx : ¬tableBytes K x) :
    x < table K i ∨ table K i+4096 ≤ x := by
  simp only [tableBytes, table] at hx ⊢
  omega

theorem linkedTables_written (m m' : Memory) {x : ℕ} (hx : tableBytes K x) :
    linkedTables K m' x = linkedTables K m x := by
  have hfill : LibC.memset m' K.kernel_pagetables 0 (5*4096) x =
      LibC.memset m K.kernel_pagetables 0 (5*4096) x := by
    rw [LibC.memset_fill, LibC.memset_fill]
    exact (if_pos hx).trans (if_pos hx).symm
  exact setEntry_at _ _ _ _ _ x <| setEntry_at _ _ _ _ _ x <| setEntry_at _ _ _ _ _ x <|
    setEntry_at _ _ _ _ _ x hfill

theorem linkedTables_kept (m : Memory) {x : ℕ} (hx : ¬tableBytes K x) :
    linkedTables K m x = m x := by
  have hout : ∀ (m : Memory) {i j v : ℕ}, i < 5 → j < 512 →
      setEntry m (table K i) j v x = m x := fun m i j v hi hj =>
    setEntry_outside m _ j v x hj (table_inside hi hx)
  rw [linkedTables, hout _ (by decide) (by decide), hout _ (by decide) (by decide), linkedTwo,
    hout _ (by decide) (by decide), hout _ (by decide) (by decide), LibC.memset_fill]
  exact if_neg hx

theorem linked_twin (s t : KState) : Twin s.mem t.mem (tablesOf (kernelLabels K)) (tableBytes K)
    { s with mem := linkedTables K s.mem } { t with mem := linkedTables K t.mem } := by
  have F := (linked (K := K) s.mem).forest
  refine ⟨fun d a h => ?_,fun d a k h hk => ?_,fun d a i h hd hp => ?_,fun d d' a h h' => ?_,
    fun x hx => linkedTables_written _ _ hx,
    fun x hx => ⟨linkedTables_kept _ hx,linkedTables_kept _ hx⟩⟩
  · obtain ⟨q,hq,-⟩ := h
    exact ⟨F.valid a q hq,kernelLabels_small hq⟩
  · obtain ⟨q,hq,-⟩ := h
    obtain ⟨-,j,hj,rfl⟩ := kernelLabels_some hq
    simp only [tableBytes, table]
    omega
  · exact tables_closed F h hd hp
  · exact tables_level h h'

/-- The first part of `kernel`. -/
theorem kernel_init_both (K : KernelImage) (s t : KState) :
    Both (Twin s.mem t.mem (tablesOf (kernelLabels K)) (tableBytes K))
      (kernel_init K s) (kernel_init K t) := by
  have hroot : tablesOf (kernelLabels K) 0 K.kernel_pagetable := by
    have h : K.kernel_pagetable = table K 0 := by simp
    rw [h]
    exact ⟨_,kernelLabels_root,rfl⟩
  rw [kernel_init, kernel_init, virtual_memory_init_map, virtual_memory_init_map]
  have hmap : ∀ {s₁ t₁ : KState},
      Twin s.mem t.mem (tablesOf (kernelLabels K)) (tableBytes K) s₁ t₁ → ∀ va pa sz perm,
      Both (fun x y => Twin s.mem t.mem (tablesOf (kernelLabels K)) (tableBytes K) x.2 y.2)
        (virtual_memory_map K.kernel_pagetable va pa sz perm none s₁)
        (virtual_memory_map K.kernel_pagetable va pa sz perm none t₁) := by
    intro s₁ t₁ B va pa sz perm
    refine Both.mono (map_both B unstocked hroot va pa sz perm) fun x y h => ?_
    obtain ⟨-,T',V',L,-⟩ := h
    obtain ⟨rfl,rfl⟩ := L.same rfl
    exact L.twin
  have hzero : table K 0 = K.kernel_pagetable := by simp
  rw [hzero]
  refine Both.bind (Both.bind (hmap (linked_twin s t) _ _ _ _) fun x y h =>
    .ok (R := Twin s.mem t.mem (tablesOf (kernelLabels K)) (tableBytes K))
      (Twin.congr h rfl rfl)) fun s₁ t₁ h => ?_
  have h' : Twin s.mem t.mem (tablesOf (kernelLabels K)) (tableBytes K)
      (processes_init (pageinfo_init K s₁)) (processes_init (pageinfo_init K t₁)) :=
    Twin.congr h rfl rfl
  refine Both.bind (hmap h' _ _ _ _) fun x y h => ?_
  exact Both.bind (hmap h _ _ _ _) fun x y h => .ok h

theorem initial_both (K : KernelImage) (s t : KState) : ∃ s₀ t₀,
    kernel_init K s = .ok s₀ ∧ kernel_init K t = .ok t₀ ∧
      Booting₂ K s.mem t.mem (kernelLabels K) (tableBytes K) s₀ t₀ ∧
      (∀ pid < NPROC, s₀.processes pid = ⟨pid,.zero,.P_FREE,NULL⟩) ∧
      ∀ pn < 512, s₀.pageinfo pn = pageinfo_init_entry K (pn*4096) := by
  obtain ⟨m,hs,B,hprocs,hpages⟩ := initial_booting K s
  obtain ⟨m',ht,-,hprocs',hpages'⟩ := initial_booting K t
  obtain ⟨y,hy,D⟩ := Both.left (kernel_init_both K s t) hs
  rw [ht, Except.ok.injEq] at hy
  subst hy
  refine ⟨_,_,hs,ht,⟨B,D,fun pn hpn => ?_,fun i hi => ?_,fun x hx hfree => ?_⟩,hprocs,hpages⟩
  · rw [hpages pn hpn, hpages' pn hpn]
  · rw [hprocs i hi, hprocs' i hi]
  · simp only [tableBytes] at hx
    obtain ⟨hlt,hinfo⟩ := (mem_freePages _ _).1 hfree
    -- the byte lies in one of the five tables
    have hmod := K.tables_aligned
    simp only [PAGESIZE] at hmod
    have hi : x / 4096-K.kernel_pagetables / 4096 < 5 := by omega
    have hpage : table K (x / 4096-K.kernel_pagetables / 4096) / 4096 = x / 4096 := by
      simp only [table]
      omega
    obtain ⟨halign,hlo,hend,hmax⟩ := table_frame K hi
    rw [hpages _ hlt] at hinfo
    have hkernel : (KERNEL_START_ADDR ≤ x / 4096*4096 ∧ x / 4096*4096 < K.kernel_end) ∨
        x / 4096*4096 = KERNEL_STACK_TOP-PAGESIZE := by
      simp only [KERNEL_START_ADDR]
      omega
    have hreserved : physical_memory_isreserved (x / 4096*4096) = false := by
      simp only [physical_memory_isreserved, decide_eq_false_iff_not, IOPHYSMEM, EXTPHYSMEM]
      omega
    simp only [pageinfo_init_entry, hreserved, Bool.false_eq_true, if_false, if_pos hkernel] at hinfo
    exact absurd (congrArg physical_pageinfo.owner hinfo) (by decide)

end Init

section Kernel

/-- The state in which the first process runs, for both boots. -/
structure Twins (K : KernelImage) (command : Option String) (m₁ m₂ : Memory) (label : Labels)
    (V : ℕ → Prop) (s t : KState) : Prop where
  booted : Booted K label s
  twin : Twin m₁ m₂ (tablesOf label) V s t
  books : Books V s t
  segments : ∀ p ∈ boot_programs command, Segments K V s p
  loaded : ∀ p ∈ boot_programs command, live s p.1

theorem run_both (B : Booting₂ K m₁ m₂ label V s t) (pid : ℕ) (hp : Slot pid) :
    Both (fun x y => x = .user { s with current := pid, cr3 := (s.processes pid).p_pagetable } ∧
        y = .user { t with current := pid, cr3 := (s.processes pid).p_pagetable })
      (run K pid s) (run K pid t) := by
  have hproc := B.books.procs pid hp.2
  rw [run, run, hproc]
  by_cases hrun : (s.processes pid).p_state = .P_RUNNABLE
  · have hlive : live s pid := by
      exact ⟨by rw [hrun]; simp,(B.booting.runnable pid hp (by rw [hrun]; simp)).2⟩
    refine Both.after _ fun _ _ => ?_
    have D : Twin m₁ m₂ (tablesOf label) V { s with current := pid } { t with current := pid } :=
      Twin.congr B.twin rfl rfl
    have P := B.booting.paging
    simp only [hproc]
    refine Both.bind (set_pagetable_both D (root_table P (rootsOf_live hp hlive))
      (root_table P P.kernel_root)) fun x y h => ?_
    obtain ⟨rfl,rfl⟩ := h
    exact .ok ⟨rfl,rfl⟩
  · rw [kassert, if_neg hrun]
    exact .error _

/-- Two boots go the same way, and write the same bytes. -/
theorem kernel_both (hK : Loadable K) (command : Option String) (s t : KState) :
    Both (fun x y => ∃ label V s' t', x = .user s' ∧ y = .user t' ∧
        Twins K command s.mem t.mem label V s' t')
      (kernel K command s) (kernel K command t) := by
  obtain ⟨s₀,t₀,hs,ht,B,hprocs,hpages⟩ := initial_both K s t
  obtain ⟨hslots,hnd,hlen⟩ := boot_programs_slots command
  have hlow := initial_low hpages
  rw [kernel, kernel, hs, ht]
  have hsetup := foldlM_both hK _ hslots hnd B
    (fun p hp => by rw [hprocs p.1 (hslots p hp).2]) (by omega)
  change Both _ (_ >>= fun s => run K 1 s) (_ >>= fun s => run K 1 s)
  refine Both.bind hsetup fun s₁ t₁ h => ?_
  obtain ⟨label,V,B₁,hsegments,-⟩ := h
  have hp : Slot 1 := ⟨by decide,by decide⟩
  have hboth := run_both B₁ 1 hp
  cases hout : run K 1 s₁ with
  | error e =>
    rw [Both.stop hboth hout]
    exact .error e
  | ok x =>
    obtain ⟨s',hx,hbooted,-⟩ := booting_run B₁.booting hout
    obtain ⟨y,hy,hxs,hyt⟩ := Both.left hboth hout
    rw [hy]
    rw [hxs, Outcome.user.injEq] at hx
    refine .ok ⟨label,V,_,_,hxs,hyt,?_,Twin.congr B₁.twin rfl rfl,
      ⟨B₁.books.info,B₁.books.procs,B₁.books.used⟩,fun p hp => (hsegments p hp).2,
      fun p hp => (hsegments p hp).1⟩
    rw [hx]
    exact hbooted

/-- The outcomes of two boots that a user cannot tell apart. -/
structure SameStart (K : KernelImage) (command : Option String) (s t : KState) : Prop where
  pageinfo : ∀ pn < NPAGES, t.pageinfo pn = s.pageinfo pn
  processes : ∀ pid < NPROC, t.processes pid = s.processes pid
  translations : ∀ pid < NPROC, (s.processes pid).p_state ≠ .P_FREE → ∀ va,
    virtual_memory_lookup t.mem (t.processes pid).p_pagetable va =
      virtual_memory_lookup s.mem (s.processes pid).p_pagetable va
  segments : ∀ p ∈ boot_programs command, ∃ image, K.ramimages[p.2]? = some image ∧
    ∀ ph ∈ image.e_program, ph.p_type = ELF_PTYPE_LOAD → ∀ k < ph.p_memsz % 2^64,
      (virtual_memory_lookup s.mem (s.processes p.1).p_pagetable (ph.p_va+k)).perm = 7 ∧
      t.mem (virtual_memory_lookup t.mem (t.processes p.1).p_pagetable (ph.p_va+k)).pa =
        s.mem (virtual_memory_lookup s.mem (s.processes p.1).p_pagetable (ph.p_va+k)).pa

theorem Twins.same {command : Option String} (D : Twins K command m₁ m₂ label V s t) :
    SameStart K command s t := by
  have P := D.booted.inv.paging
  have htables : ∀ pid < NPROC, (s.processes pid).p_state ≠ .P_FREE → ∀ va,
      virtual_memory_lookup t.mem (t.processes pid).p_pagetable va =
        virtual_memory_lookup s.mem (s.processes pid).p_pagetable va := by
    intro pid hlt hstate va
    have hpos : 0 < pid := by
      rcases Nat.eq_zero_or_pos pid with rfl | h
      · exact absurd D.booted.inv.slot0 hstate
      · exact h
    have hp : Slot pid := ⟨hpos,hlt⟩
    have hlive : live s pid := ⟨hstate,(D.booted.runnable pid hp hstate).2⟩
    rw [D.books.procs pid hlt]
    exact lookup_same D.twin (root_table P (rootsOf_live hp hlive)) va
  refine ⟨D.books.info,D.books.procs,htables,fun p hp => ?_⟩
  obtain ⟨image,himage,hfilled⟩ := D.segments p hp
  refine ⟨image,himage,fun ph hph hload k hk => ?_⟩
  obtain ⟨hV,hlt,hleaf⟩ := hfilled ph hph hload k hk
  simp only [MEMSIZE_PHYSICAL] at hlt
  obtain ⟨hslots,-,-⟩ := boot_programs_slots command
  have hp' := hslots p hp
  have hlive := (D.loaded p hp)
  have hroot := P.forest.root _ _ (rootsOf_live hp' hlive)
  have hpage : vpage (ph.p_va+k)*4096+(ph.p_va+k) % 4096 = ph.p_va+k := by
    rw [vpage_small _ (by omega)]
    omega
  have hlook := virtual_memory_lookup_eq P.forest hroot (ph.p_va+k)
  have hframe : Frame (vpage (ph.p_va+k)*4096) := ⟨Nat.mul_mod_left _ _,by omega⟩
  rw [hleaf, leafMapping_frame hframe (Or.inr rfl), hpage] at hlook
  rw [htables p.1 hp'.2 hlive.1, hlook]
  exact ⟨rfl,D.twin.written _ hV⟩

/-- What the memory, the books and the process table held before makes no difference. -/
theorem kernel_clean_slate (hK : Loadable K) (command : Option String) (s t : KState) :
    Both (fun x y => ∃ s' t', x = .user s' ∧ y = .user t' ∧ SameStart K command s' t')
      (kernel K command s) (kernel K command t) := by
  refine Both.mono (kernel_both hK command s t) fun x y h => ?_
  obtain ⟨label,V,s',t',hx,hy,D⟩ := h
  exact ⟨s',t',hx,hy,D.same⟩

/-- Memory full of ones, and every process runnable. -/
def dirty : KState :=
  ⟨fun _ => 255,fun _ => ⟨1,7⟩,fun pid => ⟨pid,.zero,.P_RUNNABLE,0x1000⟩,3,2,9,9,1,0x5000⟩

theorem dirty_reboot : ∃ s t, kernel sampleKernel (some "fork") powerOn = .ok (.user s) ∧
    kernel sampleKernel (some "fork") dirty = .ok (.user t) ∧
      SameStart sampleKernel (some "fork") s t := by
  obtain ⟨label,s,hs,-⟩ := sample_boot powerOn
  obtain ⟨y,hy,s',t',hxs,hyt,h⟩ := Both.left
    (kernel_clean_slate sample_loadable (some "fork") powerOn dirty) hs
  rw [Outcome.user.injEq] at hxs
  subst hxs
  subst hyt
  exact ⟨_,_,hs,hy,h⟩

end Kernel

end WeensyOS.SoftReboot
