import WeensyOS.KernelTables
import WeensyOS.KernelSteps

/-!
# Loading a program

The loader takes the pages of a segment one by one, each at its own physical
address, and then stores bytes through the new page table. The stores run
upwards from the first page of the segment. The page after physical memory is
never mapped, so they reach pages of the process itself and nothing else.
-/

set_option autoImplicit false

namespace WeensyOS.ProgramLoading
open WeensyOS.FlatMemory WeensyOS.KernelState WeensyOS.PageTables WeensyOS.PageAllocator
open WeensyOS.Boot WeensyOS.CheckedRuns WeensyOS.RadixForest WeensyOS.TableWords
open WeensyOS.FreePages WeensyOS.PagingInvariant WeensyOS.TableWalks WeensyOS.PageMaps
open WeensyOS.TableCopies WeensyOS.ForkCopies WeensyOS.KernelInvariant WeensyOS.KernelChecks
open WeensyOS.KernelSteps WeensyOS.Isolation

/-- What is fixed while a program is loaded for the process `pid`. -/
structure Loader (roots : ℤ → Option ℕ) (pid r : ℕ) (s₀ : KState) : Prop where
  slot : Slot pid
  root : roots pid = some r
  table : (s₀.processes pid).p_pagetable = r
  own_pid : (s₀.processes pid).p_pid = pid

/-- A state of the loader that was started in `s₀`. -/
structure Loading (K : KernelImage) (roots : ℤ → Option ℕ) (label : Labels) (pid r : ℕ)
    (s₀ s : KState) : Prop where
  paging : Paging K roots label s
  isolated : Isolated roots label s
  reached : Reached roots label s
  physical : ∀ va, 256 ≤ vpage va → leafWord s.mem r va = 0 ∨
    (vpage va < 512 ∧ leafWord s.mem r va = vpage va*4096+7)
  others : ∀ (o : ℤ) x va, o ≠ pid → roots o = some x → leafWord s.mem x va = leafWord s₀.mem x va
  processes : s.processes = s₀.processes
  owner : s.pagetable_owner = s₀.pagetable_owner
  low : ∀ pn < 256, s.pageinfo pn = s₀.pageinfo pn
  taken : ∀ pn, s.pageinfo pn = s₀.pageinfo pn ∨ s.pageinfo pn = ⟨pid,1⟩

variable {K : KernelImage} {roots : ℤ → Option ℕ} {label : Labels} {pid r va : ℕ}
  {s₀ s s' : KState}

section Pages

/-- Only free pages have no references. -/
theorem refcount_zero (P : Paging K roots label s) {pn : ℕ} (hpn : pn < 512)
    (h : (s.pageinfo pn).refcount = 0) : pn ∈ freePages s := by
  refine (mem_freePages s pn).2 ⟨hpn,?_⟩
  by_cases hinit : (pageinfo_init_entry K (pn*4096)).owner = PO_FREE
  · rcases P.pages pn hpn hinit with hfree | ⟨o,-,hinfo⟩
    · exact hfree
    · rw [hinfo] at h
      exact absurd h one_ne_zero
  · rw [P.marked pn hpn hinit, pageinfo_init_entry] at h
    rw [pageinfo_init_entry] at hinit
    exact absurd h (by simp only [if_pos hinit]; decide)

theorem assign_free (hva : va % 4096 = 0) (hfree : va / 4096 ∈ freePages s) (o : ℤ) :
    assign_physical_page va o s = (0,s.setPageinfo (va / 4096) ⟨o,1⟩) := by
  obtain ⟨hlt,hinfo⟩ := (mem_freePages s _).1 hfree
  have haddr : va / 4096*4096 = va := by omega
  have h := assign_physical_page_free (va / 4096) hlt o s (by rw [hinfo])
  rwa [haddr] at h

theorem assign_taken (P : Paging K roots label s) (hfree : va / 4096 ∉ freePages s) (o : ℤ) :
    assign_physical_page va o s = (-1,s) := by
  refine assign_physical_page_used va o s ?_
  by_cases hlt : va < MEMSIZE_PHYSICAL
  · simp only [MEMSIZE_PHYSICAL] at hlt
    exact Or.inr (Or.inr fun h => hfree (refcount_zero P (by omega) h))
  · exact Or.inr (Or.inl (by omega))

variable (L : Loader roots pid r s₀) (W : Loading K roots label pid r s₀ s)
include L W

/-- A free page is taken and mapped at its own address. -/
theorem load_page (hva : va % 4096 = 0) (hlo : PROC_START_ADDR ≤ va)
    (hfree : va / 4096 ∈ freePages s) : ∃ s₁, Loading K roots label pid r s₀ s₁ ∧
      (∀ rest, program_load_pages pid none (va::rest) s = program_load_pages pid none rest s₁) ∧
      s₁.cr3 = s.cr3 ∧
      (∀ x, leafWord s₁.mem r x = if vpage x = vpage va then va+7 else leafWord s.mem r x) ∧
      ∀ pn, pn ≠ va / 4096 → s₁.pageinfo pn = s.pageinfo pn := by
  obtain ⟨hlt,-⟩ := (mem_freePages s _).1 hfree
  simp only [PROC_START_ADDR] at hlo
  have haddr : va / 4096*4096 = va := by omega
  have hpage : vpage va = va / 4096 := vpage_small va (by omega)
  have ho := L.slot.owner
  have hk : (pid : ℤ) ≠ PO_KERNEL := L.slot.ne_kernel
  have hm : OnlyPage s (va / 4096) s.mem := fun _ _ _ => Agree.refl _ _ _
  have G : Grows pid label label 1 s (takePage s (va / 4096) pid s.mem s.pagetable_owner) :=
    take_grows W.paging hfree hm
  have P₁ := W.paging.take G ho fun _ _ i hn => take_slots W.paging hfree hm hn i
  have hu : UserFrame label (takePage s (va / 4096) pid s.mem s.pagetable_owner)
      (va / 4096*4096) := take_user W.paging ho hfree
  have hframe := free_frame hfree
  rw [haddr] at hu hframe
  have hzero : leafWord s.mem r 0 ≠ 0 := by
    rw [W.isolated.low pid r ho L.root 0 (by decide)]
    decide
  have htables : tablesMissing s.mem r va = 0 := by
    have hz : vpage 0 = 0 := rfl
    have hsame : vpage va / 512 = vpage 0 / 512 := by omega
    rw [tablesMissing_congr s.mem r hsame]
    exact tablesMissing_leaf _ _ _ hzero
  obtain ⟨s₁,hmap,M⟩ := map_page_present P₁ ho L.root hva (by omega) hframe (Or.inr rfl)
    (.user _ hframe hu) (index123_ne va (by omega)) htables none
  have G₁ := G.trans M.grows
  have hinfo : ∀ pn, s₁.pageinfo pn = if pn = va / 4096 then ⟨pid,1⟩ else s.pageinfo pn := by
    intro pn
    rw [M.grows.pageinfo_zero pn, takePage_pageinfo, Function.update_apply]
  have hone : OneLeaf roots pid va (va / 4096) s s₁ := by
    intro o x va' hx
    rw [M.leaf o x va' hx, takePage_mem, haddr]
  have hframes : ∀ o a, ProcOwner o → OwnFrame label s o a → OwnFrame label s₁ o a :=
    fun o a ho h => h.mono ho G₁
  have hempty : leafWord s.mem r va = 0 := by
    rcases W.physical va (by omega) with h | ⟨-,h⟩
    · exact h
    · rw [hpage] at h
      exact absurd hfree (leaf_used W.paging L.root hk h)
  refine ⟨s₁,⟨M.paging,?_,?_,fun x hx => ?_,fun o x va' hne hx => ?_,?_,?_,fun pn hpn => ?_,
    fun pn => ?_⟩,fun rest => ?_,?_,fun x => ?_,fun pn hpn => ?_⟩
  · refine W.isolated.map W.paging hone (by omega) hfree hframes ⟨?_,?_,?_⟩
    · rw [haddr]
      exact hframe
    · rw [haddr]
      exact hu.1
    · rw [haddr, hinfo, if_pos rfl]
  · refine W.reached.map hone L.root (by omega) hempty (fun _ _ h => h) ?_ fun pn hpn => Or.inl ?_
    · rw [hinfo, if_pos rfl]
    · rw [hinfo, if_neg hpn]
  · rw [hone pid r x L.root]
    by_cases hp : vpage x = vpage va
    · rw [if_pos ⟨rfl,hp⟩]
      exact Or.inr (by omega)
    · rw [if_neg fun h => hp h.2]
      exact W.physical x hx
  · rw [hone o x va' hx, if_neg fun h => hne h.1]
    exact W.others o x va' hne hx
  · rw [G₁.processes, W.processes]
  · rw [M.owner, takePage_owner, W.owner]
  · rw [hinfo, if_neg (by omega), W.low pn hpn]
  · rw [hinfo]
    split
    · exact Or.inr rfl
    · exact W.taken pn
  · have hpid : (s.processes pid).p_pid = pid := by rw [W.processes, L.own_pid]
    have htable : (s.processes pid).p_pagetable = r := by rw [W.processes, L.table]
    have hflags : PTE_P ||| PTE_W ||| PTE_U = 7 := rfl
    simp only [program_load_pages, hpid, assign_free hva hfree, setPageinfo_processes, htable,
      hflags]
    change (virtual_memory_map r va va PAGESIZE 7 none
      (takePage s (va / 4096) pid s.mem s.pagetable_owner)).bind _ = _
    rw [hmap]
    rfl
  · have := G₁.rest
    rw [this]
  · rw [hone pid r x L.root, haddr]
    simp only [true_and]
  · rw [hinfo, if_neg hpn]

theorem load_page_taken (hfree : va / 4096 ∉ freePages s) (rest : List ℕ) :
    program_load_pages pid none (va::rest) s = .ok (false,s) := by
  have hpid : (s.processes pid).p_pid = pid := by rw [W.processes, L.own_pid]
  simp only [program_load_pages, hpid, assign_taken W.paging hfree]
  rfl

/-- Page addresses the loader can be asked for. -/
def LoadPages (l : List ℕ) : Prop := ∀ va ∈ l, va % 4096 = 0 ∧ PROC_START_ADDR ≤ va

omit W in
/-- The loop over the pages of a segment. It can only fail at a page that is taken. -/
theorem load_pages (l : List ℕ) (hl : LoadPages l) {s : KState}
    (W : Loading K roots label pid r s₀ s) : ∃ b s', program_load_pages pid none l s = .ok (b,s') ∧
      Loading K roots label pid r s₀ s' ∧ s'.cr3 = s.cr3 ∧
      (b = true → ∀ x, leafWord s'.mem r x =
        if vpage x ∈ l.map vpage then vpage x*4096+7 else leafWord s.mem r x) ∧
      (∀ pn, pn ∉ l.map (· / 4096) → s'.pageinfo pn = s.pageinfo pn) ∧
      ((l.map (· / 4096)).Nodup → (∀ va ∈ l, va / 4096 ∈ freePages s) → b = true) := by
  induction l generalizing s with
  | nil => exact ⟨true,s,rfl,W,rfl,fun _ x => by simp,fun _ _ => rfl,fun _ _ => rfl⟩
  | cons va l ih =>
    obtain ⟨hva,hlo⟩ := hl va (by simp)
    by_cases hfree : va / 4096 ∈ freePages s
    · obtain ⟨s₁,W₁,hrun,hcr3,hleaf,hinfo⟩ := load_page L W hva hlo hfree
      obtain ⟨b,s',hrest,W',hcr3',hleaf',hinfo',hall⟩ :=
        ih (fun x hx => hl x (by simp [hx])) W₁
      have hlt := ((mem_freePages s _).1 hfree).1
      have hpage : vpage va = va / 4096 := vpage_small va (by omega)
      refine ⟨b,s',(hrun l).trans hrest,W',hcr3'.trans hcr3,fun hb x => ?_,fun pn hpn => ?_,
        fun hnd hfrees => ?_⟩
      · rw [hleaf' hb x, hleaf x]
        simp only [List.map_cons, List.mem_cons]
        by_cases hx : vpage x = vpage va
        · rw [if_pos (Or.inl hx), if_pos hx]
          split <;> omega
        · simp only [hx, false_or, if_false]
      · simp only [List.map_cons, List.mem_cons, not_or] at hpn
        rw [hinfo' pn hpn.2, hinfo pn hpn.1]
      · obtain ⟨hva_new,hnd'⟩ := List.nodup_cons.1 hnd
        refine hall hnd' fun x hx => ?_
        have hne : x / 4096 ≠ va / 4096 := fun h => hva_new (List.mem_map.2 ⟨x,hx,h⟩)
        have hold := hfrees x (by simp [hx])
        rw [mem_freePages] at hold ⊢
        rw [hinfo _ hne]
        exact hold
    · refine ⟨false,s,load_page_taken L W hfree l,W,rfl,fun h => ?_,fun _ _ => rfl,fun _ h => ?_⟩
      · exact absurd h (by decide)
      · exact absurd (h va (by simp)) hfree

end Pages

section Stores

/-- Memory has changed, but no page table. -/
structure Stored (label : Labels) (s s' : KState) : Prop where
  tables : TablesKept label s s'.mem
  rest : s' = { s with mem := s'.mem }

theorem Stored.refl (label : Labels) (s : KState) : Stored label s s :=
  ⟨fun _ _ _ => Agree.refl _ _ _,rfl⟩

theorem Stored.trans {s'' : KState} (T : Stored label s s') (T' : Stored label s' s'') :
    Stored label s s'' where
  tables n q hn := (T.tables n q hn).trans (T'.tables n q hn)
  rest := by
    have h := T.rest
    have h' := T'.rest
    rw [h] at h'
    exact h'

theorem Stored.leaf (T : Stored label s s') (P : Paging K roots label s) :
    SameLeaves roots s s' := T.tables.leaves P

theorem Loading.stored (W : Loading K roots label pid r s₀ s) (L : Loader roots pid r s₀)
    (T : Stored label s s') : Loading K roots label pid r s₀ s' := by
  have hleaf := T.leaf W.paging
  have hinfo : s'.pageinfo = s.pageinfo := by rw [T.rest]
  refine ⟨?_,?_,?_,fun x hx => ?_,fun o x va' hne hx => ?_,?_,?_,fun pn hpn => ?_,fun pn => ?_⟩
  · exact Paging.congr (T.tables.paging W.paging) rfl hinfo
  · exact W.isolated.same hleaf fun o a _ h => ⟨h.1,h.2.1,by rw [hinfo]; exact h.2.2⟩
  · exact W.reached.same hleaf (fun _ _ h => h) fun pn => Or.inl (by rw [hinfo])
  · rw [hleaf pid r x L.root]
    exact W.physical x hx
  · rw [hleaf o x va' hx]
    exact W.others o x va' hne hx
  · rw [T.rest]
    exact W.processes
  · rw [T.rest]
    exact W.owner
  · rw [hinfo]
    exact W.low pn hpn
  · rw [hinfo]
    exact W.taken pn

/-- The page table in use does not matter to the invariants. -/
theorem Loading.cr3 (W : Loading K roots label pid r s₀ s) (pt : ℕ) :
    Loading K roots label pid r s₀ { s with cr3 := pt } :=
  ⟨Paging.congr W.paging rfl rfl,⟨W.isolated.low,W.isolated.high,W.isolated.inj⟩,W.reached,
    W.physical,W.others,W.processes,W.owner,W.low,W.taken⟩

variable (L : Loader roots pid r s₀) (W : Loading K roots label pid r s₀ s) (hcr3 : s.cr3 = r)
include L W hcr3

/-- A store above `PROC_START_ADDR` goes to a page of the process or faults. -/
theorem store_byte_cases (hlo : PROC_START_ADDR ≤ va) (hhi : va ≤ MEMSIZE_PHYSICAL) (c : UInt8) :
    (leafWord s.mem r va = 0 ∧ store_byte va c s = .error .fault) ∨
    (va < MEMSIZE_PHYSICAL ∧ ∃ s', store_byte va c s = .ok s' ∧ Stored label s s') := by
  simp only [PROC_START_ADDR] at hlo
  simp only [MEMSIZE_PHYSICAL] at hhi ⊢
  have hpage : vpage va = va / 4096 := vpage_small va (by omega)
  have hlook := virtual_memory_lookup_eq W.paging.forest (W.paging.forest.root pid r L.root) va
  rcases W.physical va (by omega) with h | ⟨hlt,h⟩
  · have hno : ¬(vamapping.unmapped.perm &&& PTE_W ≠ 0) := by decide
    rw [h, leafMapping_zero] at hlook
    exact Or.inl ⟨h,by simp only [store_byte, hcr3, hlook, if_neg hno]⟩
  · have hW : 7 &&& PTE_W ≠ 0 := by decide
    have hframe : Frame (vpage va*4096) := ⟨Nat.mul_mod_left _ _,by omega⟩
    obtain ⟨-,a,ha,hown⟩ := W.isolated.high pid r L.slot.owner L.root va (by omega) (by omega)
    have hav : a = vpage va*4096 := by omega
    rw [h, leafMapping_frame hframe (Or.inr rfl)] at hlook
    refine Or.inr ⟨by omega,{ s with mem := Function.update s.mem (vpage va*4096+va % 4096) c },?_,
      TablesKept.byte W.paging (Nat.mul_mod_left (vpage va) 4096)
      (hav ▸ hown.2.1) (Nat.mod_lt va (by decide)) c,rfl⟩
    simp only [store_byte, hcr3, hlook, if_pos hW]

end Stores

section Segments

variable (L : Loader roots pid r s₀)
include L

/-- Stores that do not fault end within physical memory. -/
theorem store_bytes_kept (n : ℕ) {src : ℕ → UInt8} {va : ℕ} {s : KState}
    (W : Loading K roots label pid r s₀ s) (hcr3 : s.cr3 = r) (hlo : PROC_START_ADDR ≤ va)
    (hhi : va ≤ MEMSIZE_PHYSICAL) (h : store_bytes src va n s = .ok s') :
    va+n ≤ MEMSIZE_PHYSICAL ∧ Stored label s s' := by
  induction n generalizing src va s with
  | zero =>
    cases h
    exact ⟨hhi,Stored.refl label _⟩
  | succ n ih =>
    obtain ⟨s₁,hone,hrest⟩ := (bind_ok_iff _ _ _).1 h
    rcases store_byte_cases L W hcr3 hlo hhi (src 0) with ⟨-,hfault⟩ | ⟨hlt,s₁',hok,T⟩
    · rw [hfault] at hone
      cases hone
    · rw [hok] at hone
      cases hone
      simp only [PROC_START_ADDR, MEMSIZE_PHYSICAL] at hlo hlt ih ⊢
      have hnext : (va+1) % 2^64 = va+1 := Nat.mod_eq_of_lt (by omega)
      rw [hnext] at hrest
      obtain ⟨hend,T'⟩ := ih (W.stored L T) (by rw [T.rest]; exact hcr3) (by omega) (by omega) hrest
      exact ⟨by omega,T.trans T'⟩

/-- Stores to mapped pages do not fault. -/
theorem store_bytes_run (n : ℕ) (src : ℕ → UInt8) {va : ℕ} {s : KState}
    (W : Loading K roots label pid r s₀ s) (hcr3 : s.cr3 = r) (hlo : PROC_START_ADDR ≤ va)
    (hhi : va+n ≤ MEMSIZE_PHYSICAL) (hmapped : ∀ k < n, leafWord s.mem r (va+k) ≠ 0) :
    ∃ s', store_bytes src va n s = .ok s' ∧ Stored label s s' := by
  induction n generalizing src va s with
  | zero => exact ⟨s,rfl,Stored.refl label s⟩
  | succ n ih =>
    rcases store_byte_cases L W hcr3 hlo (by omega) (src 0) with ⟨hzero,-⟩ | ⟨hlt,s₁,hok,T⟩
    · exact absurd hzero (hmapped 0 (by omega))
    · simp only [PROC_START_ADDR, MEMSIZE_PHYSICAL] at hlo hhi ih
      have hnext : (va+1) % 2^64 = va+1 := Nat.mod_eq_of_lt (by omega)
      have hmapped' : ∀ k < n, leafWord s₁.mem r (va+1+k) ≠ 0 := fun k hk => by
        rw [T.leaf W.paging pid r _ L.root, add_assoc, add_comm 1]
        exact hmapped (k+1) (by omega)
      obtain ⟨s',hrun,T'⟩ := ih (fun k => src (k+1)) (W.stored L T)
        (by rw [T.rest]; exact hcr3) (by omega) (by omega) hmapped'
      refine ⟨s',?_,T.trans T'⟩
      simp only [store_bytes, hok, bind, Except.bind, hnext, hrun]

/-- Where a loadable segment of an embedded program may start. -/
def Placed (ph : elf_program) : Prop :=
  ph.p_va % PAGESIZE = 0 ∧ PROC_START_ADDR ≤ ph.p_va ∧ ph.p_va < MEMSIZE_PHYSICAL

omit L in
theorem segment_pages {ph : elf_program} (hph : Placed ph) (stop : ℕ) :
    LoadPages (addrs ph.p_va stop) := by
  obtain ⟨halign,hlo,-⟩ := hph
  intro va hva
  obtain ⟨k,rfl,-⟩ := (mem_addrs _ _ _).1 hva
  simp only [PAGESIZE, PROC_START_ADDR] at halign hlo ⊢
  omega

omit L in
theorem set_pagetable_ok {pt : ℕ} (h : set_pagetable K pt s = .ok s') :
    s' = { s with cr3 := pt } := by
  simp only [set_pagetable, seq_ok_iff, Except.ok.injEq] at h
  exact h.2.2.2.2.2.symm

/-- The lengths of the copy and of the clearing, as the code computes them. -/
abbrev fileBytes (ph : elf_program) : ℕ :=
  (2^64+(ph.p_va+ph.p_filesz) % 2^64-ph.p_va) % 2^64

abbrev zeroBytes (ph : elf_program) : ℕ :=
  (2^64+(ph.p_va+ph.p_memsz) % 2^64-(ph.p_va+ph.p_filesz) % 2^64) % 2^64

omit L in
theorem load_segment_eq {ph : elf_program} (hph : Placed ph) (src : ℕ → UInt8) {b : Bool}
    (h : program_load_pages pid none (addrs ph.p_va ((ph.p_va+ph.p_memsz) % 2^64)) s = .ok (b,s')) :
    program_load_segment K pid ph src none s = if b then do
        let s ← set_pagetable K (s'.processes pid).p_pagetable s'
        let s ← store_bytes src ph.p_va (fileBytes ph) s
        let s ← store_bytes (fun _ => 0) ((ph.p_va+ph.p_filesz) % 2^64) (zeroBytes ph) s
        let s ← set_pagetable K K.kernel_pagetable s
        .ok (0,s)
      else .ok (-1,s') := by
  have hva : PTE_ADDR ph.p_va = ph.p_va := pte_addr_aligned hph.1
  simp only [program_load_segment, hva, h]
  cases b <;> rfl

/-- A segment that loads leaves a state of the loader, with the kernel's table active. -/
theorem load_segment_ok {ph : elf_program} (hph : Placed ph) (src : ℕ → UInt8)
    (W : Loading K roots label pid r s₀ s) {res : ℤ}
    (h : program_load_segment K pid ph src none s = .ok (res,s')) (hres : ¬res < 0) :
    Loading K roots label pid r s₀ s' := by
  obtain ⟨b,s₁,hpages,W₁,-⟩ := load_pages L _
    (segment_pages hph ((ph.p_va+ph.p_memsz) % 2^64)) W
  rw [load_segment_eq hph src hpages] at h
  obtain ⟨-,hlo,hhi⟩ := hph
  simp only [PROC_START_ADDR, MEMSIZE_PHYSICAL] at hlo hhi
  cases b with
  | false =>
    cases h
    exact absurd (by decide) hres
  | true =>
    simp only [if_true, bind_ok_iff] at h
    obtain ⟨s₂,hset,s₃,hfile,s₄,hzero,s₅,hback,hdone⟩ := h
    have htable : (s₁.processes pid).p_pagetable = r := by rw [W₁.processes, L.table]
    rw [htable] at hset
    rw [set_pagetable_ok hset] at hfile
    obtain ⟨hend,T⟩ := store_bytes_kept L _ (W₁.cr3 r) rfl hlo (by
      simp only [MEMSIZE_PHYSICAL]
      omega) hfile
    have W₃ := (W₁.cr3 r).stored L T
    simp only [MEMSIZE_PHYSICAL] at hend
    -- the clearing starts where the copy has ended
    have hstart : (ph.p_va+ph.p_filesz) % 2^64 = ph.p_va+fileBytes ph := by
      simp only [fileBytes] at hend ⊢
      omega
    rw [hstart] at hzero
    obtain ⟨-,T'⟩ := store_bytes_kept L _ W₃ (by rw [T.rest]) (by
      simp only [PROC_START_ADDR]
      omega) hend hzero
    cases hdone
    rw [set_pagetable_ok hback]
    exact (W₃.stored L T').cr3 _

/-- The segments of a program, one after the other. -/
theorem load_loop_ok (image : ramimage) (l : List elf_program)
    (hl : ∀ ph ∈ l, ph.p_type = ELF_PTYPE_LOAD → Placed ph) {s : KState}
    (W : Loading K roots label pid r s₀ s) {res : ℤ}
    (h : program_load_loop K pid image none l s = .ok (res,s')) (hres : ¬res < 0) :
    Loading K roots label pid r s₀ s' := by
  induction l generalizing s with
  | nil =>
    cases h
    exact W
  | cons ph l ih =>
    rw [program_load_loop] at h
    by_cases hload : ph.p_type = ELF_PTYPE_LOAD
    · rw [if_pos hload] at h
      obtain ⟨⟨res₁,s₁⟩,hseg,hrest⟩ := (bind_ok_iff _ _ _).1 h
      by_cases hbad : res₁ < 0
      · simp only [if_pos hbad] at hrest
        cases hrest
        exact absurd (by decide) hres
      · simp only [if_neg hbad] at hrest
        exact ih (fun x hx => hl x (by simp [hx]))
          (load_segment_ok L (hl ph (by simp) hload) _ W hseg hbad) hrest
    · rw [if_neg hload] at h
      exact ih (fun x hx => hl x (by simp [hx])) W h

omit L in
theorem segment_nodup (va stop : ℕ) (hva : va % 4096 = 0) :
    ((addrs va stop).map (· / 4096)).Nodup := by
  rw [addrs, List.map_map]
  refine List.nodup_range.map fun j k h => ?_
  simp only [Function.comp_apply, PAGESIZE] at h
  omega

omit L in
/-- Every byte of a segment lies in one of its pages. -/
theorem segment_covers {va stop x : ℕ} (hva : va % 4096 = 0) (hlo : va ≤ x) (hhi : x < stop)
    (hmax : stop ≤ 0x200000) : vpage x ∈ (addrs va stop).map vpage := by
  refine List.mem_map.2 ⟨x / 4096*4096,(mem_addrs _ _ _).2 ⟨x / 4096-va / 4096,?_,?_⟩,?_⟩
  · omega
  · omega
  · rw [vpage_small _ (by omega), vpage_small x (by omega)]
    omega

/-- A segment loads when its pages are free. -/
theorem load_segment_run {ph : elf_program} (hph : Placed ph) (src : ℕ → UInt8)
    (W : Loading K roots label pid r s₀ s) (hfile : ph.p_filesz ≤ ph.p_memsz)
    (hmem : ph.p_va+ph.p_memsz ≤ MEMSIZE_PHYSICAL)
    (hfree : ∀ va ∈ addrs ph.p_va (ph.p_va+ph.p_memsz), va / 4096 ∈ freePages s) :
    ∃ s', program_load_segment K pid ph src none s = .ok (0,s') ∧
      Loading K roots label pid r s₀ s' ∧
      (∀ x, leafWord s'.mem r x = if vpage x ∈ (addrs ph.p_va (ph.p_va+ph.p_memsz)).map vpage
        then vpage x*4096+7 else leafWord s.mem r x) ∧
      ∀ pn, pn ∉ (addrs ph.p_va (ph.p_va+ph.p_memsz)).map (· / 4096) →
        s'.pageinfo pn = s.pageinfo pn := by
  have hstop : (ph.p_va+ph.p_memsz) % 2^64 = ph.p_va+ph.p_memsz := by
    simp only [MEMSIZE_PHYSICAL] at hmem
    exact Nat.mod_eq_of_lt (by omega)
  obtain ⟨b,s₁,hpages,W₁,-,hleaf,hinfo,hall⟩ := load_pages L _
    (segment_pages hph ((ph.p_va+ph.p_memsz) % 2^64)) W
  have heq := load_segment_eq (K := K) hph src hpages
  rw [hstop] at hpages hleaf hinfo hall
  obtain ⟨halign,hlo,hhi⟩ := hph
  simp only [PAGESIZE] at halign
  have hb := hall (segment_nodup _ _ halign) hfree
  simp only [PROC_START_ADDR, MEMSIZE_PHYSICAL] at hlo hhi hmem
  have hbytes : fileBytes ph = ph.p_filesz ∧ zeroBytes ph = ph.p_memsz-ph.p_filesz ∧
      (ph.p_va+ph.p_filesz) % 2^64 = ph.p_va+ph.p_filesz := by
    simp only [fileBytes, zeroBytes]
    omega
  obtain ⟨hf,hz,hend⟩ := hbytes
  have htable : (s₁.processes pid).p_pagetable = r := by rw [W₁.processes, L.table]
  have hmapped : ∀ x, ph.p_va ≤ x → x < ph.p_va+ph.p_memsz → leafWord s₁.mem r x ≠ 0 := by
    intro x hx hx'
    rw [hleaf hb x, if_pos (segment_covers halign hx hx' hmem)]
    omega
  have hset : set_pagetable K r s₁ = .ok { s₁ with cr3 := r } :=
    (set_pagetable_iff W₁.paging (W₁.paging.forest.root pid r L.root)).2
      ⟨low_handlers W₁.paging L.root (W₁.isolated.low pid r L.slot.owner L.root),rfl⟩
  obtain ⟨s₃,hrun,T⟩ := store_bytes_run L ph.p_filesz src (W₁.cr3 r) rfl hlo (by
    simp only [MEMSIZE_PHYSICAL]
    omega) fun k hk => hmapped _ (by omega) (by omega)
  have W₃ := (W₁.cr3 r).stored L T
  have hmapped₃ : ∀ k < ph.p_memsz-ph.p_filesz,
      leafWord s₃.mem r (ph.p_va+ph.p_filesz+k) ≠ 0 := fun k hk => by
    rw [T.leaf (W₁.cr3 r).paging pid r _ L.root]
    exact hmapped _ (by omega) (by omega)
  obtain ⟨s₄,hrun',T'⟩ := store_bytes_run L (ph.p_memsz-ph.p_filesz) (fun _ => 0)
    W₃ (by rw [T.rest]) (by
      simp only [PROC_START_ADDR]
      omega) (by
      simp only [MEMSIZE_PHYSICAL]
      omega) hmapped₃
  have W₄ := W₃.stored L T'
  have hback : set_pagetable K K.kernel_pagetable s₄ =
      .ok { s₄ with cr3 := K.kernel_pagetable } :=
    (set_pagetable_iff W₄.paging (W₄.paging.forest.root _ _ W₄.paging.kernel_root)).2
      ⟨kernel_handlers W₄.paging,rfl⟩
  refine ⟨_,?_,W₄.cr3 K.kernel_pagetable,fun x => ?_,fun pn hpn => ?_⟩
  · rw [heq, hb, if_pos rfl, htable, hset, hf, hz, hend]
    simp only [bind, Except.bind, hrun, hrun', hback]
  · rw [T'.leaf W₃.paging pid r x L.root, T.leaf (W₁.cr3 r).paging pid r x L.root]
    exact hleaf hb x
  · rw [T'.rest, T.rest]
    exact hinfo pn hpn

end Segments

end WeensyOS.ProgramLoading
