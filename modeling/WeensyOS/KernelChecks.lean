import WeensyOS.CheckedRuns
import WeensyOS.KernelInvariant

/-!
# When the kernel's checks pass

Under the invariant every assertion about ownership, reference counts and the
memory display holds. What remains of `check_virtual_memory` is that each live
process has a page table, and that it maps the kernel's own memory.
-/

set_option autoImplicit false

namespace WeensyOS.KernelChecks
open WeensyOS.FlatMemory WeensyOS.KernelState WeensyOS.PageTables WeensyOS.PageAllocator
open WeensyOS.Boot WeensyOS.Checks WeensyOS.Exceptions WeensyOS.CheckedRuns
open WeensyOS.RadixForest WeensyOS.TableWords WeensyOS.FreePages WeensyOS.PagingInvariant
open WeensyOS.TableCopies WeensyOS.KernelInvariant

variable {K : KernelImage} {label : Labels} {s s' : KState} {pid : ℕ}

section Mappings

/-- The addresses whose mapping `check_page_table_mappings` looks at. -/
def MappingOk (K : KernelImage) (m : Memory) (r : ℕ) : Prop :=
  (∀ va ∈ addrs KERNEL_START_ADDR K.kernel_end, (virtual_memory_lookup m r va).pa = va ∧
    (va ≥ K.start_data → (virtual_memory_lookup m r va).perm &&& PTE_W ≠ 0)) ∧
  (virtual_memory_lookup m r (KERNEL_STACK_TOP-PAGESIZE)).pa = KERNEL_STACK_TOP-PAGESIZE ∧
  (virtual_memory_lookup m r (KERNEL_STACK_TOP-PAGESIZE)).perm &&& PTE_W ≠ 0

theorem mapping_check_iff (pt va : ℕ) : check_page_table_mapping K pt s va = .ok () ↔
    (virtual_memory_lookup s.mem pt va).pa = va ∧
      (va ≥ K.start_data → (virtual_memory_lookup s.mem pt va).perm &&& PTE_W ≠ 0) := by
  simp only [check_page_table_mapping, seq_ok_iff, kassert_ok_iff]
  by_cases h : va ≥ K.start_data
  · simp [h, kassert_ok_iff]
  · simp [h, pure, Except.pure]

theorem mappings_check_iff (pt : ℕ) : check_page_table_mappings K pt s = .ok () ↔
    PTE_ADDR pt = pt ∧ MappingOk K s.mem pt := by
  simp only [check_page_table_mappings, seq_ok_iff, kassert_ok_iff, forM_ok_iff,
    mapping_check_iff, MappingOk]

theorem pte_addr_aligned {a : ℕ} (h : a % 4096 = 0) : PTE_ADDR a = a := by
  rw [pte_addr_eq]
  omega

/-- The kernel's memory lies below `PROC_START_ADDR`. -/
theorem kernel_addr_low {va : ℕ} (h : va ∈ addrs KERNEL_START_ADDR K.kernel_end) :
    va % 4096 = 0 ∧ 0x40000 ≤ va ∧ va < 0x7F000 := by
  obtain ⟨k,rfl,hlt⟩ := (mem_addrs _ _ _).1 h
  have hend := K.end_below_stack
  simp only [KERNEL_START_ADDR, KERNEL_STACK_TOP, PAGESIZE] at hlt hend ⊢
  omega

/-- Only the pages of the kernel image and its stack matter. -/
theorem MappingOk.congr_pages {m m' : Memory} {r r' : ℕ} (h : ∀ va,
    va ∈ addrs KERNEL_START_ADDR K.kernel_end ∨ va = KERNEL_STACK_TOP-PAGESIZE →
    virtual_memory_lookup m' r' va = virtual_memory_lookup m r va) :
    MappingOk K m' r' ↔ MappingOk K m r := by
  have hk : ∀ va ∈ addrs KERNEL_START_ADDR K.kernel_end,
      virtual_memory_lookup m' r' va = virtual_memory_lookup m r va := fun va hva =>
    h va (Or.inl hva)
  have hstack := h (KERNEL_STACK_TOP-PAGESIZE) (Or.inr rfl)
  rw [MappingOk, MappingOk, hstack]
  refine and_congr_left fun _ => ⟨fun H va hva => ?_,fun H va hva => ?_⟩
  · rw [← hk va hva]
    exact H va hva
  · rw [hk va hva]
    exact H va hva

theorem MappingOk.congr {m m' : Memory} {r r' : ℕ} (h : ∀ va < PROC_START_ADDR,
    virtual_memory_lookup m' r' va = virtual_memory_lookup m r va) :
    MappingOk K m' r' ↔ MappingOk K m r := by
  refine MappingOk.congr_pages fun va hva => h va ?_
  rcases hva with hva | rfl
  · have := kernel_addr_low hva
    simp only [PROC_START_ADDR]
    omega
  · decide

theorem kernelWord_low {va : ℕ} (h : va < 0x7F001) : kernelWord va = va / 4096*4096+3 := by
  have hv : vpage va = va / 4096 := vpage_small va (by omega)
  have h1 : vpage va < 256 := by omega
  have h2 : vpage va ≠ 0xB8 := by omega
  rw [kernelWord, if_pos h1, if_neg h2, hv]

/-- Where the leaves below `PROC_START_ADDR` are the kernel's, its memory is mapped. -/
theorem mappingOk_kernelWord {m : Memory} {r : ℕ} (h : ∀ va < PROC_START_ADDR,
    virtual_memory_lookup m r va = leafMapping (kernelWord va) va) : MappingOk K m r := by
  have hlow : ∀ va, va % 4096 = 0 → va < 0x7F001 →
      virtual_memory_lookup m r va = ⟨(va / 4096 : ℕ),va,3⟩ := by
    intro va hva hlt
    have haddr : va / 4096*4096 = va := by omega
    rw [h va (by simp only [PROC_START_ADDR]; omega), kernelWord_low hlt, haddr,
      leafMapping_frame ⟨hva,by omega⟩ (Or.inl rfl), hva, add_zero]
  have hW : 3 &&& PTE_W ≠ 0 := by decide
  refine ⟨fun va hva => ?_,?_⟩
  · obtain ⟨halign,-,hlt⟩ := kernel_addr_low hva
    rw [hlow va halign (by omega)]
    exact ⟨rfl,fun _ => hW⟩
  · rw [hlow (KERNEL_STACK_TOP-PAGESIZE) rfl (by decide)]
    exact ⟨rfl,hW⟩

end Mappings

section Ownership

/-- Every table below a labelled one has the owner of the label and one reference. -/
theorem ownership_level (P : Paging K (rootsOf K s) label s) (below : ℕ) {pt : ℕ} {o : ℤ}
    {p : List Index} (hpt : label pt = some ⟨o,p⟩) (hlen : p.length+below = 3) :
    check_page_table_ownership_level s below pt o 1 = .ok () := by
  have hone : ∀ {n : ℕ} {q : List Index}, label n = some ⟨o,q⟩ →
      PAGENUMBER n < NPAGES ∧ s.pageinfo (PAGENUMBER n).toNat = ⟨o,1⟩ := by
    intro n q hn
    obtain ⟨hlt,hinfo⟩ := P.owned n _ hn
    have hpages : NPAGES = 512 := rfl
    rw [pagenumber_eq n (by omega), Int.toNat_natCast, hpages]
    exact ⟨by omega,hinfo⟩
  induction below generalizing pt p with
  | zero =>
    obtain ⟨hlt,hinfo⟩ := hone hpt
    simp only [check_page_table_ownership_level, seq_ok_iff, kassert_ok_iff, hinfo]
    exact ⟨hlt,trivial,trivial⟩
  | succ below ih =>
    obtain ⟨hlt,hinfo⟩ := hone hpt
    simp only [check_page_table_ownership_level, seq_ok_iff, kassert_ok_iff, forM_ok_iff, hinfo]
    refine ⟨hlt,trivial,trivial,fun index hidx => ?_⟩
    rw [if_ok_iff]
    intro hne
    have hi : index < 512 := List.mem_range.1 hidx
    rcases P.forest.child pt o p ⟨index,hi⟩ hpt (by simp; omega) with h | ⟨c,hc,hl⟩
    · exact absurd h hne
    · have halign := P.aligned hl
      have hentry : entry s.mem pt index = c+7 := hc
      have haddr : PTE_ADDR (c+7) = c := by rw [pte_addr_eq]; omega
      rw [hentry, haddr]
      exact ih hl (by simp; omega)

theorem kernel_table_ne_null (K : KernelImage) : K.kernel_pagetable ≠ NULL := by
  have h1 := K.text_start
  have h2 := K.tables_in_data
  simp only [KERNEL_START_ADDR] at h1
  change K.kernel_pagetables ≠ 0
  omega

/-- The kernel's table counts as referenced by the kernel alone. -/
theorem kernel_ownership (I : KInv K label s) :
    check_page_table_ownership K K.kernel_pagetable (-1) s = .ok () := by
  have hshared : (List.range NPROC).filter (fun xpid => (s.processes xpid).p_state ≠ .P_FREE ∧
      (s.processes xpid).p_pagetable = K.kernel_pagetable) = [] := by
    rw [List.filter_eq_nil_iff]
    intro xpid hx
    simp only [decide_eq_true_eq, not_and]
    intro hstate htable
    have hpos : 0 < xpid := Nat.pos_of_ne_zero fun h => hstate (h ▸ I.slot0)
    refine I.own_table ⟨hpos,List.mem_range.1 hx⟩ ⟨hstate,?_⟩ htable
    rw [htable]
    exact kernel_table_ne_null K
  rw [check_page_table_ownership, if_pos rfl, hshared]
  exact ownership_level I.paging 3 I.kernel_root rfl

theorem process_ownership (I : KInv K label s) (hp : Slot pid) (hl : live s pid) :
    check_page_table_ownership K (s.processes pid).p_pagetable pid s = .ok () := by
  rw [check_page_table_ownership, if_neg (I.own_table hp hl)]
  exact ownership_level I.paging 3 (I.root hp hl) rfl

theorem ownership_level_owner {below pt : ℕ} {o n : ℤ}
    (h : check_page_table_ownership_level s below pt o n = .ok ()) :
    (s.pageinfo (PAGENUMBER pt).toNat).owner = o := by
  cases below with
  | zero =>
    simp only [check_page_table_ownership_level, seq_ok_iff, kassert_ok_iff] at h
    exact h.2.1
  | succ below =>
    rw [check_page_table_ownership_level, seq_ok_iff, seq_ok_iff, kassert_ok_iff,
      kassert_ok_iff] at h
    exact h.2.1

/-- A process without a page table fails the check: page zero is reserved. -/
theorem null_ownership (I : KInv K label s) (pid : ℕ) :
    check_page_table_ownership K NULL pid s ≠ .ok () := by
  intro h
  have hpn : (PAGENUMBER NULL).toNat = 0 := by decide
  rw [check_page_table_ownership, if_neg (kernel_table_ne_null K).symm] at h
  have howner := ownership_level_owner h
  rw [hpn, I.paging.zero_info] at howner
  simp only [PO_RESERVED] at howner
  omega

end Ownership

section Whole

/-- Every process that has been started has a page table that maps the kernel. -/
def KernelMapped (K : KernelImage) (s : KState) : Prop :=
  ∀ pid, Slot pid → (s.processes pid).p_state ≠ .P_FREE →
    (s.processes pid).p_pagetable ≠ NULL ∧ MappingOk K s.mem (s.processes pid).p_pagetable

theorem KernelMapped.quiet (Q : Quiet s s') (H : KernelMapped K s) : KernelMapped K s' := by
  intro pid hp hstate
  obtain ⟨h1,h2,-⟩ := Q.procs pid
  rw [ne_eq, h1] at hstate
  rw [h2, Q.mem]
  exact H pid hp hstate

theorem KernelMapped.live (H : KernelMapped K s) (hp : Slot pid)
    (h : (s.processes pid).p_state ≠ .P_FREE) : WeensyOS.KernelInvariant.live s pid :=
  ⟨h,(H pid hp h).1⟩

theorem kernel_lookup {roots : ℤ → Option ℕ} (P : Paging K roots label s) (va : ℕ) :
    virtual_memory_lookup s.mem K.kernel_pagetable va = leafMapping (kernelWord va) va := by
  rw [virtual_memory_lookup_eq P.forest (P.forest.root _ _ P.kernel_root), P.kernel_leaf]

theorem kernel_mappings (I : KInv K label s) :
    check_page_table_mappings K K.kernel_pagetable s = .ok () :=
  (mappings_check_iff _).2 ⟨pte_addr_aligned (I.paging.aligned I.kernel_root),
    mappingOk_kernelWord fun va _ => kernel_lookup I.paging va⟩

theorem pageinfo_owners (I : KInv K label s) {pn : ℕ} (hpn : pn < 512)
    (h : (s.pageinfo pn).refcount > 0 ∧ (s.pageinfo pn).owner ≥ 0) :
    ∃ pid, Slot pid ∧ s.pageinfo pn = ⟨pid,1⟩ := by
  obtain ⟨hcount,howner⟩ := h
  by_cases hinit : (pageinfo_init_entry K (pn*4096)).owner = PO_FREE
  · rcases I.paging.pages pn hpn hinit with hfree | ⟨pid,hpid,hinfo⟩
    · rw [hfree] at hcount
      exact absurd hcount (by decide)
    · obtain ⟨hpos,hlt⟩ := hpid
      have hn : NPROC = 16 := rfl
      refine ⟨pid.toNat,⟨by omega,by omega⟩,?_⟩
      rw [hinfo, Int.toNat_of_nonneg (by omega)]
  · have hmarked := I.paging.marked pn hpn hinit
    rw [hmarked] at howner
    -- only the marks `PO_RESERVED` and `PO_KERNEL` are not `PO_FREE`
    simp only [pageinfo_init_entry] at howner hinit
    split at howner
    · simp [PO_RESERVED] at howner
    · split at howner
      · simp [PO_KERNEL] at howner
      · simp_all

theorem check_virtual_memory_iff (I : KInv K label s) :
    check_virtual_memory K s = .ok () ↔ KernelMapped K s := by
  have hpn : NPAGES = 512 := rfl
  simp only [check_virtual_memory, seq_ok_iff, kassert_ok_iff, forM_ok_iff, if_ok_iff,
    I.slot0, kernel_mappings I, kernel_ownership I, true_and, List.mem_range, hpn]
  constructor
  · rintro ⟨hprocs,-⟩ pid hp hstate
    have hne : (s.processes pid).p_pagetable ≠ NULL := fun hnull => by
      have h := (hprocs pid hp.2 ⟨hstate,hnull ▸ (kernel_table_ne_null K).symm⟩).2
      rw [hnull] at h
      exact null_ownership I pid h
    have hown := I.own_table hp ⟨hstate,hne⟩
    exact ⟨hne,((mappings_check_iff _).1 (hprocs pid hp.2 ⟨hstate,hown⟩).1).2⟩
  · intro H
    refine ⟨fun pid hlt hcond => ?_,fun pn hlt hcond => ?_⟩
    · have hpos : 0 < pid := Nat.pos_of_ne_zero fun h => hcond.1 (h ▸ I.slot0)
      obtain ⟨hne,hmap⟩ := H pid ⟨hpos,hlt⟩ hcond.1
      have hroot := I.root ⟨hpos,hlt⟩ ⟨hcond.1,hne⟩
      exact ⟨(mappings_check_iff _).2 ⟨pte_addr_aligned (I.paging.aligned hroot),hmap⟩,
        process_ownership I ⟨hpos,hlt⟩ ⟨hcond.1,hne⟩⟩
    · obtain ⟨pid,hp,hinfo⟩ := pageinfo_owners I hlt hcond
      rw [hinfo]
      exact I.used pn hlt pid hp hinfo

end Whole

section Display

theorem memshow_ok (I : KInv K label s) (hp : Slot pid) (hl : live s pid) :
    memshow_virtual (s.processes pid).p_pagetable s = .ok () := by
  simp only [memshow_virtual, seq_ok_iff, kassert_ok_iff, forM_ok_iff]
  refine ⟨(pte_addr_aligned (I.paging.aligned (I.root hp hl))).symm,fun va _ => ?_⟩
  have hlook := I.lookup hp hl va
  have hleaf := I.leaf hp hl va
  by_cases he : leafWord s.mem (s.processes pid).p_pagetable va = 0
  · rw [hlook, he, leafMapping_zero]
    rfl
  · obtain ⟨a,perm,hw,ha,hperm⟩ := Leaf.split hleaf he
    rw [hlook, hw, leafMapping_frame ha hperm]
    split
    · rfl
    · obtain ⟨halign,hlt⟩ := ha
      exact (kassert_ok_iff _ _).2 (by simp only [MEMSIZE_PHYSICAL]; omega)

theorem animate_ok (I : KInv K label s)
    (hlive : ∀ pid, Slot pid → (s.processes pid).p_state ≠ .P_FREE → live s pid) :
    ∃ last showing, memshow_virtual_animate s =
      .ok { s with last_ticks := last, showing := showing } := by
  simp only [memshow_virtual_animate]
  generalize hs₁ : (if s.last_ticks = 0 ∨ s.ticks-s.last_ticks ≥ HZ/2
    then { s with last_ticks := s.ticks, showing := s.showing+1 } else s) = s₁
  have hsame : ∃ last showing, s₁ = { s with last_ticks := last, showing := showing } := by
    rw [← hs₁]
    split
    · exact ⟨_,_,rfl⟩
    · exact ⟨s.last_ticks,s.showing,rfl⟩
  obtain ⟨last,showing,rfl⟩ := hsame
  generalize hx : skip_free _ _ _ % NPROC = x
  have hlt : x < NPROC := hx ▸ Nat.mod_lt _ (by decide)
  refine ⟨last,x,?_⟩
  split
  · rename_i hstate
    have hpos : 0 < x := Nat.pos_of_ne_zero fun h => hstate (h ▸ I.slot0)
    have I' : KInv K label { s with last_ticks := last, showing := x } :=
      I.same ⟨rfl,rfl,fun _ => ⟨Iff.rfl,rfl,rfl⟩⟩ rfl
    have hshow := memshow_ok I' ⟨hpos,hlt⟩ (hlive x ⟨hpos,hlt⟩ hstate)
    simp only at hshow
    simp only [hshow]
    rfl
  · rfl

end Display

end WeensyOS.KernelChecks
