import WeensyOS.TwinRuns
import WeensyOS.BootRun

/-!
# Two boots from different memories

Booting writes every table before it reads it, so nothing that the memory held
before shows in the tables, in the books or in the loaded segments.
-/

set_option autoImplicit false

namespace WeensyOS.TwinBoots
open WeensyOS.FlatMemory WeensyOS.KernelState WeensyOS.PageTables WeensyOS.PageAllocator
open WeensyOS.Exceptions WeensyOS.Boot WeensyOS.CheckedRuns WeensyOS.PairedRuns
open WeensyOS.RadixForest WeensyOS.TableWords WeensyOS.FreePages WeensyOS.PagingInvariant
open WeensyOS.TableWalks WeensyOS.TableCopies WeensyOS.KernelInvariant WeensyOS.KernelSteps
open WeensyOS.Isolation WeensyOS.KernelTables WeensyOS.ProgramLoading WeensyOS.BootResult
open WeensyOS.BootRun WeensyOS.TwinRuns

variable {K : KernelImage} {m₁ m₂ : Memory} {T T' : ℕ → ℕ → Prop} {V V' : ℕ → Prop}
  {s t s' t' s₀ : KState} {pid r va : ℕ} {roots : ℤ → Option ℕ} {label label' : Labels}

section Calls

theorem Twin.congr (B : Twin m₁ m₂ T V s t) (hs : s'.mem = s.mem) (ht : t'.mem = t.mem) :
    Twin m₁ m₂ T V s' t' where
  frame := B.frame
  inside := B.inside
  closed := by
    rw [hs]
    exact B.closed
  level := B.level
  written := by
    rw [hs, ht]
    exact B.written
  kept := by
    rw [hs, ht]
    exact B.kept

/-- The allocator of the kernel, when the books agree. -/
theorem stocked (A : Booked V s t) : Stocked (some pagetable_alloc) V s t :=
  fun _ h => ⟨(Option.some.inj h).symm,A⟩

theorem unstocked : Stocked none V s t := fun _ h => (by cases h)

theorem copy_loop_both {pt : ℕ} (l : List ℕ) {T : ℕ → ℕ → Prop} {V : ℕ → Prop} {s t : KState}
    (B : Twin m₁ m₂ T V s t) (A : Booked V s t) (hpt : T 0 pt) (hr : T 0 r) :
    Both (fun x y => Onward m₁ m₂ False T V s t (fun _ => True) x y)
      (copy_pagetable_loop pt r l s) (copy_pagetable_loop pt r l t) := by
  induction l generalizing T V s t with
  | nil => exact .ok (Onward.refl B trivial)
  | cons va l ih =>
    simp only [copy_pagetable_loop, lookup_same B hpt va]
    refine Both.ite _ (fun _ => ?_) fun _ => ih B A hpt hr
    refine Both.bind (map_both B (stocked A) hr va _ PAGESIZE _) fun x y hxy => ?_
    obtain ⟨x,s₁⟩ := x
    obtain ⟨y,t₁⟩ := y
    obtain ⟨hx,T₁,V₁,L,-⟩ := hxy
    change x = y at hx
    subst hx
    refine Both.ite _ (fun _ => .error _) fun _ => ?_
    refine Both.mono (ih L.twin (L.books A) (L.tables 0 pt hpt) (L.tables 0 r hr)) fun x y h => ?_
    have L' : Later m₁ m₂ False T V s t T₁ V₁ s₁ t₁ :=
      ⟨L.tables,L.bytes,L.twin,L.books,L.processes,False.elim⟩
    exact Onward.after L' h

theorem copy_pagetable_both {pt : ℕ} (o : ℤ) (B : Twin m₁ m₂ T V s t) (A : Books V s t)
    (hpt : T 0 pt) :
    Both (fun x y => x.1 = y.1 ∧ Onward m₁ m₂ False T V { s with pagetable_owner := o }
        { t with pagetable_owner := o } (fun T' => x.1 ≠ NULL → T' 0 x.1) x.2 y.2)
      (copy_pagetable pt o s) (copy_pagetable pt o t) := by
  have B₀ : Twin m₁ m₂ T V { s with pagetable_owner := o } { t with pagetable_owner := o } :=
    Twin.congr B rfl rfl
  have A₀ : Booked V { s with pagetable_owner := o } { t with pagetable_owner := o } :=
    ⟨⟨A.info,A.procs,A.used⟩,rfl⟩
  obtain ⟨c,s₁,t₁,V₁,hs,ht,L,hblank⟩ := pagetable_alloc_both B₀ A₀
  simp only [copy_pagetable, hs, ht]
  refine Both.ite _ (fun hnull => ?_) fun hnull => ?_
  · exact .ok ⟨rfl,T,V₁,L,fun h => absurd rfl h⟩
  · have N := hblank hnull
    have C := L.twin.root N.frame N.fresh N.inside N.empty 0
    have A₁ := L.books A₀
    have L₁ : Later m₁ m₂ False T V { s with pagetable_owner := o }
        { t with pagetable_owner := o } (withTable T 0 c) V₁ s₁ t₁ :=
      ⟨fun _ _ h => Or.inl h,L.bytes,C,L.books,L.processes,False.elim⟩
    refine Both.bind (copy_loop_both _ C A₁ (Or.inl hpt) (Or.inr ⟨rfl,rfl⟩)) fun x y h => ?_
    obtain ⟨T₂,V₂,L₂,-⟩ := h
    exact .ok ⟨rfl,T₂,V₂,L₁.trans L₂,fun _ => L₂.tables 0 c (Or.inr ⟨rfl,rfl⟩)⟩

theorem set_pagetable_both {pt : ℕ} (B : Twin m₁ m₂ T V s t) (hpt : T 0 pt)
    (hk : T 0 K.kernel_pagetable) :
    Both (fun x y => x = { s with cr3 := pt } ∧ y = { t with cr3 := pt })
      (set_pagetable K pt s) (set_pagetable K pt t) := by
  simp only [set_pagetable, lookup_same B hpt, lookup_same B hk]
  refine Both.after _ fun _ _ => Both.after _ fun _ _ => Both.after _ fun _ _ => ?_
  exact Both.after _ fun _ _ => Both.after _ fun _ _ => .ok ⟨rfl,rfl⟩

theorem assign_both (B : Twin m₁ m₂ T V s t) (A : Booked V s t) (addr : ℕ) (o : ℤ) :
    (assign_physical_page addr o t).1 = (assign_physical_page addr o s).1 ∧
      Twin m₁ m₂ T V (assign_physical_page addr o s).2 (assign_physical_page addr o t).2 ∧
      Booked V (assign_physical_page addr o s).2 (assign_physical_page addr o t).2 ∧
      (assign_physical_page addr o s).2.processes = s.processes := by
  have hcond : (addr &&& 0xFFF ≠ 0 ∨ addr ≥ MEMSIZE_PHYSICAL ∨
        (t.pageinfo (PAGENUMBER addr).toNat).refcount ≠ 0) ↔
      (addr &&& 0xFFF ≠ 0 ∨ addr ≥ MEMSIZE_PHYSICAL ∨
        (s.pageinfo (PAGENUMBER addr).toNat).refcount ≠ 0) := by
    by_cases hlt : addr ≥ MEMSIZE_PHYSICAL
    · simp only [hlt, true_or, or_true]
    · simp only [MEMSIZE_PHYSICAL] at hlt
      have hpn : (PAGENUMBER addr).toNat = addr / 4096 := by
        rw [pagenumber_eq _ (by omega), Int.toNat_natCast]
      rw [hpn, A.1.info _ (by omega)]
  unfold assign_physical_page
  by_cases h : addr &&& 0xFFF ≠ 0 ∨ addr ≥ MEMSIZE_PHYSICAL ∨
      (s.pageinfo (PAGENUMBER addr).toNat).refcount ≠ 0
  · simp only [if_pos h, if_pos (hcond.2 h)]
    exact ⟨trivial,B,A,trivial⟩
  · simp only [if_neg h, if_neg (mt hcond.1 h)]
    exact ⟨trivial,Twin.congr B rfl rfl,⟨A.1.take o fun _ h => Or.inl h,A.2⟩,rfl⟩

/-- The pages of a segment. -/
theorem load_pages_both (hpid : pid < NPROC) (hr : T 0 r) (l : List ℕ) {s t : KState}
    (B : Twin m₁ m₂ T V s t) (A : Booked V s t) (htable : (s.processes pid).p_pagetable = r) :
    Both (fun x y => x.1 = y.1 ∧ Twin m₁ m₂ T V x.2 y.2 ∧ Booked V x.2 y.2 ∧
        x.2.processes = s.processes)
      (program_load_pages pid none l s) (program_load_pages pid none l t) := by
  induction l generalizing s t with
  | nil => exact .ok ⟨rfl,B,A,rfl⟩
  | cons va l ih =>
    rw [program_load_pages, program_load_pages, A.1.procs pid hpid]
    obtain ⟨hres,B₁,A₁,hprocs⟩ := assign_both B A va (s.processes pid).p_pid
    cases hs : assign_physical_page va (s.processes pid).p_pid s with
    | mk x s₁ =>
      cases ht : assign_physical_page va (s.processes pid).p_pid t with
      | mk y t₁ =>
        rw [hs, ht] at hres B₁ A₁
        rw [hs] at hprocs
        change y = x at hres
        subst hres
        refine Both.ite _ (fun _ => .ok ⟨rfl,B₁,A₁,hprocs⟩) fun _ => ?_
        have htable₁ : (s₁.processes pid).p_pagetable = r := by
          change s₁.processes = s.processes at hprocs
          rw [hprocs, htable]
        have htable₂ : (t₁.processes pid).p_pagetable = r := by
          rw [A₁.1.procs pid hpid, htable₁]
        simp only [htable₁, htable₂]
        refine Both.bind (map_both B₁ unstocked hr va va PAGESIZE _) fun a b hab => ?_
        obtain ⟨a,s₂⟩ := a
        obtain ⟨b,t₂⟩ := b
        obtain ⟨hab,T₂,V₂,L,-⟩ := hab
        change a = b at hab
        subst hab
        obtain ⟨rfl,rfl⟩ := L.same rfl
        have hprocs₂ : s₂.processes = s.processes := L.processes.trans hprocs
        refine Both.ite _ (fun _ => .ok ⟨rfl,L.twin,L.books A₁,hprocs₂⟩) fun _ => ?_
        refine Both.mono (ih L.twin (L.books A₁) (by rw [hprocs₂, htable])) fun x y h => ?_
        exact ⟨h.1,h.2.1,h.2.2.1,h.2.2.2.trans hprocs₂⟩

end Calls

section Labels

/-- The tables that a labelling knows. -/
def tablesOf (label : Labels) (d a : ℕ) : Prop := ∃ q, label a = some q ∧ q.path.length = d

theorem walk_tables (B : Twin m₁ m₂ T V s t) (p : List Index) {d n c : ℕ} (hn : T d n)
    (hd : d+p.length ≤ 3) (h : walk scheme (slot s.mem) n p = some c) : T (d+p.length) c := by
  induction p generalizing d n with
  | nil =>
    cases h
    exact hn
  | cons i p ih =>
    rw [List.length_cons] at hd ⊢
    rw [walk, TreeTables.child_eq] at h
    by_cases hp : slot s.mem n i &&& PTE_P ≠ 0
    · rw [if_pos hp] at h
      have hnext := ih (B.closed d n i hn (by omega) hp) (by omega) h
      rwa [Nat.add_assoc, Nat.add_comm 1] at hnext
    · rw [if_neg hp] at h
      cases h

theorem tables_closed {m : Memory} {d a : ℕ} {i : Index} (F : Forest scheme roots (slot m) label)
    (h : tablesOf label d a) (hd : d < 3) (hp : slot m a i &&& PTE_P ≠ 0) :
    tablesOf label (d+1) (PTE_ADDR (slot m a i)) := by
  obtain ⟨⟨o,p⟩,hq,rfl⟩ := h
  rcases F.child a o p i hq hd with h0 | ⟨c,hlink,hc⟩
  · rw [h0] at hp
    exact absurd rfl hp
  · have halign : c % 4096 = 0 := F.valid c _ hc
    have haddr : PTE_ADDR (c+7) = c := by
      rw [pte_addr_eq]
      omega
    rw [hlink, scheme_link, haddr]
    exact ⟨_,hc,by simp⟩

theorem tables_level {d d' a : ℕ} (h : tablesOf label d a) (h' : tablesOf label d' a) :
    d = d' := by
  obtain ⟨q,hq,rfl⟩ := h
  obtain ⟨q',hq',rfl⟩ := h'
  rw [hq, Option.some.injEq] at hq'
  rw [hq']

/-- Tables that were written by both runs and are labelled by the first. -/
theorem Twin.relabel (B : Twin m₁ m₂ T V s t) (P : Paging K roots label s)
    (hroots : ∀ o r, roots o = some r → T 0 r) : Twin m₁ m₂ (tablesOf label) V s t where
  frame d a h := by
    obtain ⟨q,hq,-⟩ := h
    exact ⟨P.aligned hq,(P.owned a q hq).1⟩
  inside d a k h hk := by
    obtain ⟨⟨o,p⟩,hq,-⟩ := h
    obtain ⟨r,hr,hw⟩ := P.forest.rooted a o p hq
    have hlen : p.length ≤ 3 := P.forest.bounded a _ hq
    exact B.inside _ a k (walk_tables B p (hroots o r hr) (by omega) hw) hk
  closed _ _ _ h hd hp := tables_closed P.forest h hd hp
  level _ _ _ h h' := tables_level h h'
  written := B.written
  kept := B.kept

theorem root_table (P : Paging K roots label s) {o : ℤ} (hr : roots o = some r) :
    tablesOf label 0 r := ⟨_,P.forest.root o r hr,rfl⟩

end Labels

section Stores

variable (L : Loader roots pid r s₀)
include L

/-- A byte that the loader stores. -/
theorem store_byte_both (W : Loading K roots label pid r s₀ s)
    (B : Twin m₁ m₂ (tablesOf label) V s t) (A : Booked V s t) (hs : s.cr3 = r) (ht : t.cr3 = r)
    (hlo : PROC_START_ADDR ≤ va) (hhi : va ≤ MEMSIZE_PHYSICAL) (c : UInt8) :
    Both (fun x y => va < MEMSIZE_PHYSICAL ∧ Stored label s x ∧ y.cr3 = r ∧
        Twin m₁ m₂ (tablesOf label) (fun a => V a ∨ a = va) x y ∧
        Booked (fun a => V a ∨ a = va) x y)
      (store_byte va c s) (store_byte va c t) := by
  simp only [PROC_START_ADDR] at hlo
  simp only [MEMSIZE_PHYSICAL] at hhi ⊢
  have hpage : vpage va = va / 4096 := vpage_small va (by omega)
  have hlook := virtual_memory_lookup_eq W.paging.forest (W.paging.forest.root pid r L.root) va
  have hlook' := (lookup_same B (root_table W.paging L.root) va).trans hlook
  rcases W.physical va (by omega) with h | ⟨hlt,h⟩
  · have hno : ¬(vamapping.unmapped.perm &&& PTE_W ≠ 0) := by decide
    rw [h, leafMapping_zero] at hlook hlook'
    simp only [store_byte, hs, ht, hlook, hlook', if_neg hno]
    exact .error _
  · have hW : 7 &&& PTE_W ≠ 0 := by decide
    have hframe : Frame (vpage va*4096) := ⟨Nat.mul_mod_left _ _,by omega⟩
    obtain ⟨-,a,ha,hown⟩ := W.isolated.high pid r L.slot.owner L.root va (by omega) (by omega)
    have hav : a = vpage va*4096 := by omega
    have hpa : vpage va*4096+va % 4096 = va := by omega
    rw [h, leafMapping_frame hframe (Or.inr rfl)] at hlook hlook'
    rw [← hs] at hlook
    rw [← ht] at hlook'
    simp only [store_byte, hlook, hlook', if_pos hW, hpa]
    have htables : TablesKept label s (Function.update s.mem va c) := by
      have hbyte := TablesKept.byte W.paging (Nat.mul_mod_left (vpage va) 4096)
        (hav ▸ hown.2.1) (Nat.mod_lt va (by decide)) c
      rwa [hpa] at hbyte
    refine .ok ⟨by omega,⟨htables,rfl⟩,ht,⟨B.frame,fun d b k hb hk => Or.inl (B.inside d b k hb hk),
      fun d b i hb hd hp => ?_,B.level,fun x hx => ?_,fun x hx => ?_⟩,⟨⟨A.1.info,A.1.procs,
      fun x hx => ?_⟩,A.2⟩⟩
    · have hkeep : slot (Function.update s.mem va c) b i = slot s.mem b i := by
        obtain ⟨q,hq,-⟩ := hb
        exact entry_congr _ _ _ i.isLt (htables b q hq)
      rw [hkeep] at hp ⊢
      exact B.closed d b i hb hd hp
    · show Function.update t.mem va c x = Function.update s.mem va c x
      by_cases hxa : x = va
      · rw [hxa, Function.update_self, Function.update_self]
      · rw [Function.update_of_ne hxa, Function.update_of_ne hxa]
        exact B.written x (hx.resolve_right hxa)
    · obtain ⟨hV,hxa⟩ := not_or.1 hx
      show Function.update s.mem va c x = m₁ x ∧ Function.update t.mem va c x = m₂ x
      rw [Function.update_of_ne hxa, Function.update_of_ne hxa]
      exact B.kept x hV
    · rcases hx with hx | rfl
      · exact A.1.used x hx
      · have hinfo := hown.2.2
        rw [hav, Nat.mul_div_cancel _ (by decide), hpage] at hinfo
        rw [mem_freePages]
        intro hfree
        have hsame : s.pageinfo (x / 4096) = freeInfo := hfree.2
        rw [hinfo] at hsame
        exact info_ne_free _ hsame

/-- What a run of stores leaves. -/
theorem store_bytes_both (n : ℕ) (src : ℕ → UInt8) {va : ℕ} {V : ℕ → Prop} {s t : KState}
    (W : Loading K roots label pid r s₀ s) (B : Twin m₁ m₂ (tablesOf label) V s t)
    (A : Booked V s t) (hs : s.cr3 = r) (ht : t.cr3 = r) (hlo : PROC_START_ADDR ≤ va)
    (hhi : va ≤ MEMSIZE_PHYSICAL) :
    Both (fun x y => va+n ≤ MEMSIZE_PHYSICAL ∧ Stored label s x ∧ y.cr3 = r ∧
        ∃ V', (∀ a, V a → V' a) ∧ (∀ k < n, V' (va+k)) ∧ Twin m₁ m₂ (tablesOf label) V' x y ∧
          Booked V' x y)
      (store_bytes src va n s) (store_bytes src va n t) := by
  induction n generalizing src va V s t with
  | zero =>
    exact .ok ⟨hhi,Stored.refl label s,ht,V,fun _ h => h,fun k hk => absurd hk (Nat.not_lt_zero k),
      B,A⟩
  | succ n ih =>
    rw [store_bytes, store_bytes]
    refine Both.bind (store_byte_both L W B A hs ht hlo hhi (src 0)) fun x y h => ?_
    obtain ⟨hlt,St,hy,B₁,A₁⟩ := h
    have hx : x.cr3 = r := by
      rw [St.rest]
      exact hs
    simp only [PROC_START_ADDR, MEMSIZE_PHYSICAL] at hlo hlt ih ⊢
    have hnext : (va+1) % 2^64 = va+1 := Nat.mod_eq_of_lt (by omega)
    rw [hnext]
    refine Both.mono (ih _ (W.stored L St) B₁ A₁ hx hy (by omega) (by omega)) fun u v h => ?_
    obtain ⟨hend,St',hv,V',hV,hnew,B₂,A₂⟩ := h
    refine ⟨by omega,St.trans St',hv,V',fun a ha => hV a (Or.inl ha),fun k hk => ?_,B₂,A₂⟩
    cases k with
    | zero => exact hV va (Or.inr rfl)
    | succ k =>
      have h := hnew k (by omega)
      rwa [Nat.add_assoc, Nat.add_comm 1] at h

/-- The bytes of a loaded segment: both runs have stored them, each at its own address. -/
def Filled (V : ℕ → Prop) (m : Memory) (r : ℕ) (ph : elf_program) : Prop :=
  ∀ k < ph.p_memsz % 2^64, V (ph.p_va+k) ∧ ph.p_va+k < MEMSIZE_PHYSICAL ∧
    leafWord m r (ph.p_va+k) = vpage (ph.p_va+k)*4096+7

/-- User memory that was mapped stays mapped. -/
def MapsKept (m m' : Memory) (r : ℕ) : Prop :=
  ∀ va, leafWord m r va = vpage va*4096+7 → leafWord m' r va = vpage va*4096+7

omit L in
theorem Filled.later {m m' : Memory} {ph : elf_program} (F : Filled V m r ph)
    (hV : ∀ a, V a → V' a) (hm : MapsKept m m' r) : Filled V' m' r ph := by
  intro k hk
  obtain ⟨hin,hlt,hleaf⟩ := F k hk
  exact ⟨hV _ hin,hlt,hm _ hleaf⟩

/-- Where two loaders have come to. -/
structure Loaded (K : KernelImage) (roots : ℤ → Option ℕ) (label : Labels) (pid r : ℕ)
    (s₀ : KState) (m₁ m₂ : Memory) (V : ℕ → Prop) (phs : List elf_program) (m : Memory)
    (V' : ℕ → Prop) (s t : KState) : Prop where
  loading : Loading K roots label pid r s₀ s
  bytes : ∀ a, V a → V' a
  twin : Twin m₁ m₂ (tablesOf label) V' s t
  booked : Booked V' s t
  maps : MapsKept m s.mem r
  filled : ∀ ph ∈ phs, ph.p_type = ELF_PTYPE_LOAD → Filled V' s.mem r ph

theorem load_segment_both {ph : elf_program} (hph : Placed ph) (src : ℕ → UInt8)
    (W : Loading K roots label pid r s₀ s) (B : Twin m₁ m₂ (tablesOf label) V s t)
    (A : Booked V s t) :
    Both (fun x y => x.1 = y.1 ∧ (¬x.1 < 0 →
        ∃ V', Loaded K roots label pid r s₀ m₁ m₂ V [ph] s.mem V' x.2 y.2))
      (program_load_segment K pid ph src none s) (program_load_segment K pid ph src none t) := by
  obtain ⟨b,s₁,hpages,W₁,-,hleaf,-⟩ := load_pages L _
    (segment_pages hph ((ph.p_va+ph.p_memsz) % 2^64)) W
  have hr : tablesOf label 0 r := root_table W.paging L.root
  have hk : tablesOf label 0 K.kernel_pagetable := root_table W.paging W.paging.kernel_root
  have htable₀ : (s.processes pid).p_pagetable = r := by rw [W.processes, L.table]
  obtain ⟨⟨b',t₁⟩,hpages',hb,B₁,A₁,-⟩ := Both.left
    (load_pages_both L.slot.2 hr (addrs ph.p_va ((ph.p_va+ph.p_memsz) % 2^64)) B A htable₀) hpages
  change b = b' at hb
  subst hb
  rw [load_segment_eq hph src hpages, load_segment_eq hph src hpages']
  obtain ⟨halign,hlo,hhi⟩ := hph
  simp only [PAGESIZE] at halign
  simp only [PROC_START_ADDR, MEMSIZE_PHYSICAL] at hlo hhi
  have htable : (s₁.processes pid).p_pagetable = r := by rw [W₁.processes, L.table]
  have htable' : (t₁.processes pid).p_pagetable = r := by rw [A₁.1.procs pid L.slot.2, htable]
  cases b with
  | false => exact .ok ⟨rfl,fun h => absurd (show (-1 : ℤ) < 0 by decide) h⟩
  | true =>
    rw [htable, htable']
    refine Both.bind (set_pagetable_both B₁ hr hk) fun x y hxy => ?_
    obtain ⟨rfl,rfl⟩ := hxy
    have B₂ : Twin m₁ m₂ (tablesOf label) V { s₁ with cr3 := r } { t₁ with cr3 := r } :=
      Twin.congr B₁ rfl rfl
    have A₂ : Booked V { s₁ with cr3 := r } { t₁ with cr3 := r } :=
      ⟨⟨A₁.1.info,A₁.1.procs,A₁.1.used⟩,A₁.2⟩
    refine Both.bind (store_bytes_both L (fileBytes ph) src (W₁.cr3 r) B₂ A₂ rfl rfl hlo
      (by
        simp only [MEMSIZE_PHYSICAL]
        omega)) fun s₃ t₃ h => ?_
    obtain ⟨hend,St,ht₃,V₃,hV₃,hfile,B₃,A₃⟩ := h
    have W₃ := (W₁.cr3 r).stored L St
    simp only [MEMSIZE_PHYSICAL] at hend
    -- the clearing starts where the copy has ended
    have hstart : (ph.p_va+ph.p_filesz) % 2^64 = ph.p_va+fileBytes ph := by
      simp only [fileBytes] at hend ⊢
      omega
    rw [hstart]
    refine Both.bind (store_bytes_both L (zeroBytes ph) (fun _ => 0) W₃ B₃ A₃
      (by rw [St.rest]) ht₃ (by
        simp only [PROC_START_ADDR]
        omega) (by
        simp only [MEMSIZE_PHYSICAL]
        omega)) fun s₄ t₄ h => ?_
    obtain ⟨hend',St',-,V₄,hV₄,hzero,B₄,A₄⟩ := h
    have W₄ := W₃.stored L St'
    refine Both.bind (set_pagetable_both B₄ hk hk) fun x y hxy => ?_
    obtain ⟨rfl,rfl⟩ := hxy
    simp only [MEMSIZE_PHYSICAL] at hend'
    have hleaf₄ : ∀ x, leafWord s₄.mem r x = leafWord s₁.mem r x := fun x => by
      rw [St'.leaf W₃.paging pid r x L.root, St.leaf (W₁.cr3 r).paging pid r x L.root]
    have hlen : ph.p_memsz % 2^64 = fileBytes ph+zeroBytes ph := by
      simp only [fileBytes, zeroBytes] at hend' hend ⊢
      omega
    refine .ok ⟨rfl,fun _ => ⟨V₄,(W₄.cr3 K.kernel_pagetable),fun a ha => hV₄ a (hV₃ a ha),
      Twin.congr B₄ rfl rfl,⟨⟨A₄.1.info,A₄.1.procs,A₄.1.used⟩,A₄.2⟩,fun va hva => ?_,
      fun ph' hph' _ => ?_⟩⟩
    · show leafWord s₄.mem r va = _
      rw [hleaf₄, hleaf rfl va]
      split
      · rfl
      · exact hva
    · rw [List.mem_singleton] at hph'
      subst hph'
      intro k hk
      refine ⟨?_,?_,?_⟩
      · by_cases hkf : k < fileBytes ph'
        · exact hV₄ _ (hfile k hkf)
        · have hin := hzero (k-fileBytes ph') (by omega)
          have haddr : ph'.p_va+fileBytes ph'+(k-fileBytes ph') = ph'.p_va+k := by omega
          rwa [haddr] at hin
      · simp only [MEMSIZE_PHYSICAL]
        omega
      · show leafWord s₄.mem r _ = _
        have hstop : (ph'.p_va+ph'.p_memsz) % 2^64 = ph'.p_va+ph'.p_memsz % 2^64 := by omega
        rw [hleaf₄, hleaf rfl, if_pos]
        exact segment_covers halign (by omega) (by omega) (by omega)

omit L in
theorem MapsKept.trans {m m' m'' : Memory} (h : MapsKept m m' r) (h' : MapsKept m' m'' r) :
    MapsKept m m'' r := fun va hva => h' va (h va hva)

omit L in
theorem Loaded.cons {V'' : ℕ → Prop} {m : Memory} {s₁ t₁ : KState} {ph : elf_program}
    {l : List elf_program} (D : Loaded K roots label pid r s₀ m₁ m₂ V [ph] m V' s t)
    (E : Loaded K roots label pid r s₀ m₁ m₂ V' l s.mem V'' s₁ t₁) :
    Loaded K roots label pid r s₀ m₁ m₂ V (ph::l) m V'' s₁ t₁ where
  loading := E.loading
  bytes a ha := E.bytes a (D.bytes a ha)
  twin := E.twin
  booked := E.booked
  maps := D.maps.trans E.maps
  filled ph' hph' hload := by
    rcases List.mem_cons.1 hph' with rfl | hl
    · exact (D.filled ph' (by simp) hload).later E.bytes E.maps
    · exact E.filled ph' hl hload

omit L in
/-- A program header that is not loaded. -/
theorem Loaded.skip {m : Memory} {ph : elf_program} {l : List elf_program}
    (hskip : ph.p_type ≠ ELF_PTYPE_LOAD) (E : Loaded K roots label pid r s₀ m₁ m₂ V l m V' s t) :
    Loaded K roots label pid r s₀ m₁ m₂ V (ph::l) m V' s t where
  loading := E.loading
  bytes := E.bytes
  twin := E.twin
  booked := E.booked
  maps := E.maps
  filled ph' hph' hload := by
    rcases List.mem_cons.1 hph' with rfl | hl
    · exact absurd hload hskip
    · exact E.filled ph' hl hload

theorem load_loop_both (image : ramimage) (l : List elf_program)
    (hl : ∀ ph ∈ l, ph.p_type = ELF_PTYPE_LOAD → Placed ph) {V : ℕ → Prop} {s t : KState}
    (W : Loading K roots label pid r s₀ s) (B : Twin m₁ m₂ (tablesOf label) V s t)
    (A : Booked V s t) :
    Both (fun x y => x.1 = y.1 ∧ (¬x.1 < 0 →
        ∃ V', Loaded K roots label pid r s₀ m₁ m₂ V l s.mem V' x.2 y.2))
      (program_load_loop K pid image none l s) (program_load_loop K pid image none l t) := by
  induction l generalizing V s t with
  | nil =>
    exact .ok ⟨rfl,fun _ => ⟨V,W,fun _ h => h,B,A,fun _ h => h,
      fun ph hph => absurd hph List.not_mem_nil⟩⟩
  | cons ph l ih =>
    rw [program_load_loop, program_load_loop]
    refine Both.ite _ (fun hload => ?_) fun hskip => ?_
    · refine Both.bind (load_segment_both L (hl ph (by simp) hload) _ W B A) fun x y h => ?_
      obtain ⟨x,s₁⟩ := x
      obtain ⟨y,t₁⟩ := y
      obtain ⟨hx,hok⟩ := h
      change x = y at hx
      subst hx
      refine Both.ite _ (fun _ => ?_) fun hx => ?_
      · exact .ok ⟨rfl,fun h => absurd (show (-1 : ℤ) < 0 by decide) h⟩
      · obtain ⟨V₁,D⟩ := hok hx
        refine Both.mono (ih (fun x hx => hl x (by simp [hx])) D.loading D.twin D.booked)
          fun a b h => ?_
        refine ⟨h.1,fun ha => ?_⟩
        obtain ⟨V₂,E⟩ := h.2 ha
        exact ⟨V₂,D.cons E⟩
    · refine Both.mono (ih (fun x hx => hl x (by simp [hx])) W B A) fun a b h => ?_
      refine ⟨h.1,fun ha => ?_⟩
      obtain ⟨V₂,E⟩ := h.2 ha
      exact ⟨V₂,E.skip hskip⟩

theorem program_load_both (hK : Loadable K) (program : ℕ) (W : Loading K roots label pid r s₀ s)
    (B : Twin m₁ m₂ (tablesOf label) V s t) (A : Booked V s t) :
    Both (fun x y => x.1 = y.1 ∧ (x.1 ≥ 0 → ∃ image V' s₁ t₁ reg,
        K.ramimages[program]? = some image ∧
        Loaded K roots label pid r s₀ m₁ m₂ V image.e_program s.mem V' s₁ t₁ ∧
        x.2 = s₁.setRegisters pid reg ∧ y.2 = t₁.setRegisters pid reg))
      (program_load K pid program none s) (program_load K pid program none t) := by
  rw [program_load, program_load]
  cases himage : K.ramimages[program]? with
  | none => exact .error _
  | some image =>
    refine Both.after _ fun _ _ => ?_
    have hplaced := hK image (List.mem_of_getElem? himage)
    refine Both.bind (load_loop_both L image _ hplaced W B A) fun x y h => ?_
    obtain ⟨x,s₁⟩ := x
    obtain ⟨y,t₁⟩ := y
    obtain ⟨hx,hok⟩ := h
    change x = y at hx
    subst hx
    refine Both.ite _ (fun _ => ?_) fun hx => ?_
    · exact .ok ⟨rfl,fun h => absurd (show ¬(-1 : ℤ) ≥ 0 by decide) (not_not_intro h)⟩
    · obtain ⟨V',D⟩ := hok hx
      have hproc : t₁.processes pid = s₁.processes pid := D.booked.1.procs pid L.slot.2
      refine .ok ⟨rfl,fun _ => ⟨image,V',s₁,t₁,_,rfl,D,rfl,?_⟩⟩
      rw [hproc]

end Stores

end WeensyOS.TwinBoots
