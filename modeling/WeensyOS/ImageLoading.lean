import WeensyOS.LoadedPages

/-!
# Program images in memory

What `program_load` leaves at the addresses of the loadable segments. The code
copies to the page of `p_va` where its comment says `p_va`, and computes the
length of the copy from there, so the bytes of a segment that starts within a
page are those that lie `p_va % PAGESIZE` further in the image.
-/

set_option autoImplicit false

namespace WeensyOS.ImageLoading
open WeensyOS.FlatMemory WeensyOS.KernelState WeensyOS.PageTables WeensyOS.PageAllocator
open WeensyOS.Boot WeensyOS.CheckedRuns WeensyOS.TableWords WeensyOS.FreePages
open WeensyOS.PrivateRuns WeensyOS.TreeTables WeensyOS.RangeWalks WeensyOS.RangeMaps
open WeensyOS.ProgramLoading WeensyOS.BootRun WeensyOS.ExactCopies WeensyOS.LoadedPages
open WeensyOS.TableGrowth WeensyOS.PagingInvariant

variable {K : KernelImage} {Y : ℕ → Prop} {s₀ s s₁ s' : KState} {p r va n : ℕ}
  {allocator : Option (Allocator KState)} {image : ramimage} {ph : elf_program}

section Pages

/-- The allocator is `NULL` or keeps its contract. -/
def Lawfully (allocator : Option (Allocator KState)) : Prop :=
  ∀ alloc, allocator = some alloc → Allocates alloc

theorem map_allocates (hlaw : Lawfully allocator) :
    ∃ alloc, Allocates alloc ∧ ∀ r va pa sz perm s, virtual_memory_map r va pa sz perm allocator s =
      virtual_memory_map r va pa sz perm (some alloc) s := by
  cases allocator with
  | none => exact ⟨noPages,noPages_allocates,fun r va pa sz perm s => map_without perm r va pa sz s⟩
  | some alloc => exact ⟨alloc,hlaw alloc rfl,fun _ _ _ _ _ _ => rfl⟩

/-- The loader's process and its page table. -/
structure Target (s₀ : KState) (p r pid : ℕ) : Prop where
  table : (s₀.processes p).p_pagetable = r
  own_pid : (s₀.processes p).p_pid = pid

variable {pid : ℕ}

/-- The pages of a segment, one after the other. -/
theorem pages_loaded (hlaw : Lawfully allocator) (P : Target s₀ p r pid) (l : List ℕ)
    (hl : ∀ a ∈ l, UserPage a ∧ a / 4096 ∈ freePages s₀) (hnd : l.Nodup) {Y : ℕ → Prop}
    (hnew : ∀ a ∈ l, ¬Y a) {s : KState} (L : Loaded r pid Y s₀ s)
    (h : program_load_pages p allocator l s = .ok (true,s')) :
    Loaded r pid (fun a => Y a ∨ a ∈ l) s₀ s' ∧ ∀ a, Y a → Agree s.mem s'.mem a PAGESIZE := by
  obtain ⟨alloc,A,hsame⟩ := map_allocates hlaw
  induction l generalizing Y s with
  | nil =>
    cases h
    have hY : (fun a => Y a ∨ a ∈ ([] : List ℕ)) = Y := by
      ext a
      simp
    rw [hY]
    exact ⟨L,fun a _ => Agree.refl _ _ _⟩
  | cons va l ih =>
    obtain ⟨hva,hfree⟩ := hl va (by simp)
    obtain ⟨hnot,hnd'⟩ := List.nodup_cons.1 hnd
    have hpid : (s.processes p).p_pid = pid := by rw [L.processes, P.own_pid]
    have htable : (s.processes p).p_pagetable = r := by rw [L.processes, P.table]
    have hflags : PTE_P ||| PTE_W ||| PTE_U = 7 := rfl
    rw [program_load_pages, hpid] at h
    cases hassign : assign_physical_page va pid s with
    | mk res s₁ =>
    rw [hassign] at h
    by_cases hres : res < 0
    · simp only [if_pos hres] at h
      cases h
    · obtain ⟨hin,hs₁⟩ := L.assigned hva hfree hassign hres
      have htable₁ : (s₁.processes p).p_pagetable = r := by rw [hs₁, setPageinfo_processes, htable]
      simp only [if_neg hres, htable₁, hflags, hsame] at h
      obtain ⟨⟨ret,s₂⟩,hmap,h⟩ := (bind_ok_iff _ _ _).1 h
      by_cases hret : ret < 0
      · simp only [if_pos hret] at h
        cases h
      · simp only [if_neg hret] at h
        rw [hs₁] at hmap
        obtain ⟨L₂,hkept⟩ := L.page A hva (hnew va (by simp)) hin hmap hret
        obtain ⟨L',hkept'⟩ := ih (fun a ha => hl a (by simp [ha])) hnd'
          (fun a ha hY => by
            rcases hY with hY | rfl
            · exact hnew a (by simp [ha]) hY
            · exact hnot ha) L₂ h
        have hY : (fun a => (Y a ∨ a = va) ∨ a ∈ l) = fun a => Y a ∨ a ∈ va::l := by
          ext a
          rw [List.mem_cons, or_assoc]
        rw [hY] at L'
        exact ⟨L',fun a ha => (hkept a ha).trans (hkept' a (Or.inl ha))⟩

end Pages

section Stores

variable {pid : ℕ}

/-- Stores into pages of the process go to the addresses they name. -/
theorem store_bytes_exact (n : ℕ) (src : ℕ → UInt8) (va : ℕ) {s : KState}
    (L : Loaded r pid Y s₀ s) (hcr3 : s.cr3 = r) (hin : ∀ k < n, InPages Y (va+k)) :
    store_bytes src va n s = .ok { s with mem := blit s.mem va n src } := by
  induction n generalizing src va s with
  | zero =>
    rw [blit_zero]
    rfl
  | succ n ih =>
    have hfirst : InPages Y va := hin 0 (by omega)
    have hmax := (L.user _ hfirst).2.2
    simp only [MEMSIZE_PHYSICAL] at hmax
    have hnext : (va+1) % 2^64 = va+1 := Nat.mod_eq_of_lt (by omega)
    have hW : 7 &&& PTE_W ≠ 0 := by decide
    have hone : store_byte va (src 0) s =
        .ok { s with mem := Function.update s.mem va (src 0) } := by
      simp only [store_byte, hcr3, L.lookup hfirst, if_pos hW]
    have L' : Loaded r pid Y s₀ { s with mem := Function.update s.mem va (src 0) } :=
      L.store fun x hx => Function.update_of_ne (fun h : x = va => hx (h ▸ hfirst)) ..
    have hrest := ih (fun k => src (k+1)) (va+1) L' hcr3 fun k hk => by
      have := hin (k+1) (by omega)
      rwa [add_assoc, add_comm 1 k]
    simp only [store_bytes, hone, bind, Except.bind, hnext, hrest, blit_succ]

end Stores

section Segments

/-- The pages of a segment, from the page of its first byte on. -/
abbrev loadPages (ph : elf_program) : List ℕ := addrs (PTE_ADDR ph.p_va) (ph.p_va+ph.p_memsz)

/-- A segment in user memory that is free. -/
structure SegmentFits (ph : elf_program) (s : KState) : Prop where
  file : ph.p_filesz ≤ ph.p_memsz
  user : ∀ a ∈ loadPages ph, PROC_START_ADDR ≤ a ∧ a < MEMSIZE_PHYSICAL
  free : ∀ a ∈ loadPages ph, a / PAGESIZE ∈ freePages s

/-- The bytes that the loader leaves for a segment. -/
structure SegmentBytes (ph : elf_program) (src : ℕ → UInt8) (m : Memory) : Prop where
  file : ∀ k < ph.p_va % 4096+ph.p_filesz, m (PTE_ADDR ph.p_va+k) = src k
  zero : ∀ k, ph.p_filesz ≤ k → k < ph.p_memsz → m (ph.p_va+k) = 0

theorem base_add (va : ℕ) : PTE_ADDR va+va % 4096 = va := by
  rw [pte_addr_eq]
  omega

theorem base_aligned (va : ℕ) : PTE_ADDR va % 4096 = 0 := by
  rw [pte_addr_eq]
  exact Nat.mul_mod_left _ _

theorem loadPages_aligned {a : ℕ} (h : a ∈ loadPages ph) : a % 4096 = 0 := by
  obtain ⟨k,rfl,-⟩ := (mem_addrs _ _ _).1 h
  have := base_aligned ph.p_va
  omega

theorem loadPages_nodup (ph : elf_program) : (loadPages ph).Nodup :=
  List.Nodup.of_map _ (segment_nodup _ _ (base_aligned ph.p_va))

/-- Every byte of a segment lies in one of its pages. -/
theorem in_loadPages {x : ℕ} (hlo : PTE_ADDR ph.p_va ≤ x) (hhi : x < ph.p_va+ph.p_memsz) :
    InPages (· ∈ loadPages ph) x := by
  have halign := base_aligned ph.p_va
  refine (mem_addrs _ _ _).2 ⟨x / 4096-PTE_ADDR ph.p_va / 4096,?_,?_⟩
  · omega
  · omega

/-- A segment without pages is empty; others end within physical memory. -/
theorem SegmentFits.bound (F : SegmentFits ph s) :
    (ph.p_memsz = 0 ∧ ph.p_va % 4096 = 0) ∨ ph.p_va+ph.p_memsz ≤ 0x200000 := by
  have hbase := base_add ph.p_va
  by_cases hsome : PTE_ADDR ph.p_va < ph.p_va+ph.p_memsz
  · have hlast := F.user _ (in_loadPages (x := ph.p_va+ph.p_memsz-1) (by omega) (by omega))
    simp only [MEMSIZE_PHYSICAL] at hlast
    omega
  · omega

theorem SegmentFits.pages (F : SegmentFits ph s) :
    ∀ a ∈ loadPages ph, UserPage a ∧ a / 4096 ∈ freePages s := fun a ha =>
  ⟨⟨loadPages_aligned ha,F.user a ha⟩,F.free a ha⟩

/-- The lengths that the code computes. -/
theorem SegmentFits.lengths (F : SegmentFits ph s) :
    addrs (PTE_ADDR ph.p_va) ((ph.p_va+ph.p_memsz) % 2^64) = loadPages ph ∧
      (2^64+(ph.p_va+ph.p_filesz) % 2^64-PTE_ADDR ph.p_va) % 2^64 = ph.p_va % 4096+ph.p_filesz ∧
      (2^64+(ph.p_va+ph.p_memsz) % 2^64-(ph.p_va+ph.p_filesz) % 2^64) % 2^64 =
        ph.p_memsz-ph.p_filesz := by
  have hbase := base_add ph.p_va
  have hfile := F.file
  rcases F.bound with ⟨hmem,halign⟩ | hend
  · have hstart : PTE_ADDR ph.p_va = ph.p_va := by omega
    have hcount : ∀ x, x ≤ ph.p_va → addrs ph.p_va x = [] := by
      intro x hx
      have hzero : (x-ph.p_va+(PAGESIZE-1)) / PAGESIZE = 0 := by
        simp only [PAGESIZE]
        omega
      rw [addrs, hzero]
      rfl
    refine ⟨?_,by omega,by omega⟩
    rw [loadPages, hstart, hcount _ (by omega), hcount _ (by omega)]
  · have hmem : (ph.p_va+ph.p_memsz) % 2^64 = ph.p_va+ph.p_memsz :=
      Nat.mod_eq_of_lt (by omega)
    rw [hmem]
    exact ⟨rfl,by omega,by omega⟩

theorem SegmentBytes.congr {src : ℕ → UInt8} {m m' : Memory} (F : SegmentFits ph s)
    (B : SegmentBytes ph src m) (h : ∀ a ∈ loadPages ph, Agree m m' a PAGESIZE) :
    SegmentBytes ph src m' := by
  have hbase := base_add ph.p_va
  have hfile := F.file
  have hsame : ∀ x, PTE_ADDR ph.p_va ≤ x → x < ph.p_va+ph.p_memsz → m' x = m x := by
    intro x hlo hhi
    have hx : x / 4096*4096+x % 4096 = x := by omega
    have hbyte := h _ (in_loadPages hlo hhi) (x % 4096) (Nat.mod_lt x (by decide))
    rwa [hx] at hbyte
  refine ⟨fun k hk => ?_,fun k hk hk' => ?_⟩
  · rw [hsame _ (by omega) (by omega)]
    exact B.file k hk
  · rw [hsame _ (by omega) (by omega)]
    exact B.zero k hk hk'

/-- Memory after the copy of a segment and after the clearing of the rest. -/
def copiedMem (m : Memory) (ph : elf_program) (src : ℕ → UInt8) : Memory :=
  blit m (PTE_ADDR ph.p_va) (ph.p_va % 4096+ph.p_filesz) src

def segmentMem (m : Memory) (ph : elf_program) (src : ℕ → UInt8) : Memory :=
  blit (copiedMem m ph src) (ph.p_va+ph.p_filesz) (ph.p_memsz-ph.p_filesz) fun _ => 0

section Memory

variable (m : Memory) (src : ℕ → UInt8) (hfile : ph.p_filesz ≤ ph.p_memsz) {x : ℕ}
  (hx : ¬(PTE_ADDR ph.p_va ≤ x ∧ x < ph.p_va+ph.p_memsz))
include hfile

theorem segmentMem_bytes : SegmentBytes ph src (segmentMem m ph src) := by
  have hbase := base_add ph.p_va
  refine ⟨fun k hk => ?_,fun k hk hk' => ?_⟩
  · have hout : PTE_ADDR ph.p_va+k < ph.p_va+ph.p_filesz := by omega
    rw [segmentMem, blit_other _ _ _ _ _ (Or.inl hout), copiedMem, blit_here _ _ _ _ _ hk]
  · have haddr : ph.p_va+k = ph.p_va+ph.p_filesz+(k-ph.p_filesz) := by omega
    have hin : k-ph.p_filesz < ph.p_memsz-ph.p_filesz := by omega
    rw [segmentMem, haddr, blit_here _ _ _ _ _ hin]

include hx

theorem copiedMem_other : copiedMem m ph src x = m x := by
  have hbase := base_add ph.p_va
  rw [copiedMem, blit_other]
  omega

theorem segmentMem_other : segmentMem m ph src x = m x := by
  have hbase := base_add ph.p_va
  have hout : x < ph.p_va+ph.p_filesz ∨ ph.p_va+ph.p_filesz+(ph.p_memsz-ph.p_filesz) ≤ x := by
    omega
  rw [segmentMem, blit_other _ _ _ _ _ hout, copiedMem_other m src hfile hx]

end Memory

variable {pid : ℕ}

/-- The copy and the clearing of a segment whose pages are mapped. -/
theorem segment_stored (F : SegmentFits ph s₀) (L : Loaded r pid Y s₀ s) (hcr3 : s.cr3 = r)
    (hY : ∀ a ∈ loadPages ph, Y a) (src : ℕ → UInt8)
    (hcopy : store_bytes src (PTE_ADDR ph.p_va) (ph.p_va % 4096+ph.p_filesz) s = .ok s₁)
    (hclear : store_bytes (fun _ => 0) ((ph.p_va+ph.p_filesz) % 2^64) (ph.p_memsz-ph.p_filesz) s₁ =
      .ok s') : s' = { s with mem := segmentMem s.mem ph src } := by
  have hbase := base_add ph.p_va
  have hfile := F.file
  have hin : ∀ x, PTE_ADDR ph.p_va ≤ x → x < ph.p_va+ph.p_memsz → InPages Y x := fun x hlo hhi =>
    hY _ (in_loadPages hlo hhi)
  rw [store_bytes_exact _ src _ L hcr3 fun k hk => hin _ (by omega) (by omega),
    Except.ok.injEq] at hcopy
  subst hcopy
  have L' : Loaded r pid Y s₀ { s with mem := copiedMem s.mem ph src } :=
    L.store fun x hx => copiedMem_other s.mem src hfile fun h => hx (hin x h.1 h.2)
  -- the clearing starts where the copy has ended
  have hstart : ph.p_memsz-ph.p_filesz = 0 ∨
      (ph.p_va+ph.p_filesz) % 2^64 = ph.p_va+ph.p_filesz := by
    rcases F.bound with ⟨hmem,-⟩ | hend
    · exact Or.inl (by omega)
    · exact Or.inr (Nat.mod_eq_of_lt (by omega))
  rcases hstart with hnone | hstart
  · rw [hnone, store_bytes, Except.ok.injEq] at hclear
    rw [← hclear, segmentMem, hnone, blit_zero, copiedMem]
  · rw [hstart] at hclear
    have hdone := store_bytes_exact (ph.p_memsz-ph.p_filesz) (fun _ => 0) (ph.p_va+ph.p_filesz)
      L' hcr3 fun k hk => hin _ (by omega) (by omega)
    have hboth := hclear.symm.trans hdone
    rw [Except.ok.injEq] at hboth
    exact hboth

/-- One segment. -/
theorem segment_loaded (hlaw : Lawfully allocator) (P : Target s₀ p r pid) (F : SegmentFits ph s₀)
    (hnew : ∀ a ∈ loadPages ph, ¬Y a) (L : Loaded r pid Y s₀ s) (src : ℕ → UInt8) {res : ℤ}
    (h : program_load_segment K p ph src allocator s = .ok (res,s')) (hres : ¬res < 0) :
    Loaded r pid (fun a => Y a ∨ a ∈ loadPages ph) s₀ s' ∧
      (∀ a, Y a → Agree s.mem s'.mem a PAGESIZE) ∧ SegmentBytes ph src s'.mem := by
  obtain ⟨hpages,hcopied,hcleared⟩ := F.lengths
  simp only [program_load_segment, hpages, hcopied, hcleared] at h
  obtain ⟨⟨b,s₁⟩,hload,h⟩ := (bind_ok_iff _ _ _).1 h
  cases b with
  | false =>
    simp only [Bool.not_false, if_true] at h
    cases h
    exact absurd (by decide) hres
  | true =>
    obtain ⟨L₁,hkept⟩ := pages_loaded hlaw P _ F.pages (loadPages_nodup ph) hnew L hload
    have htable : (s₁.processes p).p_pagetable = r := by rw [L₁.processes, P.table]
    simp only [Bool.not_true, Bool.false_eq_true, if_false, htable] at h
    obtain ⟨s₂,hset,h⟩ := (bind_ok_iff _ _ _).1 h
    obtain ⟨s₃,hcopy,h⟩ := (bind_ok_iff _ _ _).1 h
    obtain ⟨s₄,hclear,h⟩ := (bind_ok_iff _ _ _).1 h
    obtain ⟨s₅,hback,h⟩ := (bind_ok_iff _ _ _).1 h
    simp only [Except.ok.injEq, Prod.mk.injEq] at h
    obtain ⟨-,rfl⟩ := h
    have L₂ := L₁.cr3 r
    rw [set_pagetable_ok hset] at hcopy
    have hstored := segment_stored F L₂ rfl (fun a ha => Or.inr ha) src hcopy hclear
    have hmem : s₅.mem = segmentMem s₁.mem ph src := by
      rw [set_pagetable_ok hback, hstored]
    have hout : ∀ x, ¬InPages (fun a => Y a ∨ a ∈ loadPages ph) x →
        segmentMem s₁.mem ph src x = s₁.mem x := fun x hx =>
      segmentMem_other s₁.mem src F.file fun hin => hx (Or.inr (in_loadPages hin.1 hin.2))
    have L₄ := (L₂.store hout).cr3 K.kernel_pagetable
    have hlast : s₅ = { s₁ with
        mem := segmentMem s₁.mem ph src, cr3 := K.kernel_pagetable } := by
      rw [set_pagetable_ok hback, hstored]
    refine ⟨hlast ▸ L₄,fun a ha => (hkept a ha).trans fun k hk => ?_,?_⟩
    · have halign := (L.user a ha).1
      have hpage : (a+k) / 4096*4096 = a := by
        simp only [PAGESIZE] at hk
        omega
      rw [hmem]
      refine segmentMem_other s₁.mem src F.file fun hin => ?_
      have hmine := in_loadPages hin.1 hin.2
      rw [InPages, hpage] at hmine
      exact hnew a hmine ha
    · rw [hmem]
      exact segmentMem_bytes s₁.mem src F.file

/-- Segments without a common page. -/
def PagesApart (ph ph' : elf_program) : Prop := ∀ a ∈ loadPages ph, a ∉ loadPages ph'

/-- The segments of a program, one after the other. -/
theorem image_loaded (hlaw : Lawfully allocator) (P : Target s₀ p r pid) (l : List elf_program)
    (hfits : ∀ ph ∈ l, ph.p_type = ELF_PTYPE_LOAD → SegmentFits ph s₀)
    (hapart : (l.filter fun ph => ph.p_type = ELF_PTYPE_LOAD).Pairwise PagesApart)
    {Y : ℕ → Prop} {s : KState}
    (hnew : ∀ ph ∈ l, ph.p_type = ELF_PTYPE_LOAD → ∀ a ∈ loadPages ph, ¬Y a)
    (L : Loaded r pid Y s₀ s) {res : ℤ}
    (h : program_load_loop K p image allocator l s = .ok (res,s')) (hres : ¬res < 0) :
    ∃ Y', Loaded r pid Y' s₀ s' ∧ (∀ a, Y a → Y' a ∧ Agree s.mem s'.mem a PAGESIZE) ∧
      ∀ ph ∈ l, ph.p_type = ELF_PTYPE_LOAD → (∀ a ∈ loadPages ph, Y' a) ∧
        SegmentBytes ph (fun k => image.bytes (ph.p_offset+k)) s'.mem := by
  induction l generalizing Y s with
  | nil =>
    cases h
    exact ⟨Y,L,fun a ha => ⟨ha,Agree.refl _ _ _⟩,fun ph hph => absurd hph List.not_mem_nil⟩
  | cons ph l ih =>
    have hrest : ∀ x ∈ l, x.p_type = ELF_PTYPE_LOAD → SegmentFits x s₀ := fun x hx =>
      hfits x (List.mem_cons_of_mem _ hx)
    rw [program_load_loop] at h
    by_cases hload : ph.p_type = ELF_PTYPE_LOAD
    · rw [if_pos hload] at h
      obtain ⟨⟨res₁,s₁⟩,hseg,h⟩ := (bind_ok_iff _ _ _).1 h
      rw [List.filter_cons_of_pos (by simpa using hload), List.pairwise_cons] at hapart
      have F := hfits ph (by simp) hload
      by_cases hbad : res₁ < 0
      · simp only [if_pos hbad, Except.ok.injEq, Prod.mk.injEq] at h
        exact absurd (h.1 ▸ (by decide)) hres
      · simp only [if_neg hbad] at h
        obtain ⟨L₁,hkept,B⟩ := segment_loaded hlaw P F (hnew ph (by simp) hload) L _ hseg hbad
        obtain ⟨Y',L',hY',hall⟩ := ih hrest hapart.2 (fun x hx hxl a ha hY => by
          rcases hY with hY | hin
          · exact hnew x (List.mem_cons_of_mem _ hx) hxl a ha hY
          · exact hapart.1 x (List.mem_filter.2 ⟨hx,by simpa using hxl⟩) a hin ha) L₁ h
        refine ⟨Y',L',fun a ha => ?_,fun x hx hxl => ?_⟩
        · exact ⟨(hY' a (Or.inl ha)).1,(hkept a ha).trans (hY' a (Or.inl ha)).2⟩
        · rcases List.mem_cons.1 hx with rfl | hx
          · exact ⟨fun a ha => (hY' a (Or.inr ha)).1,
              B.congr F fun a ha => (hY' a (Or.inr ha)).2⟩
          · exact hall x hx hxl
    · rw [if_neg hload] at h
      rw [List.filter_cons_of_neg (by simpa using hload)] at hapart
      obtain ⟨Y',L',hY',hall⟩ := ih hrest hapart
        (fun x hx => hnew x (List.mem_cons_of_mem _ hx)) L h
      refine ⟨Y',L',hY',fun x hx hxl => ?_⟩
      rcases List.mem_cons.1 hx with rfl | hx
      · exact absurd hxl hload
      · exact hall x hx hxl

end Segments

section Images

/-- The byte at a virtual address. -/
def load_byte (m : Memory) (pagetable va : ℕ) : Option UInt8 :=
  let vam := virtual_memory_lookup m pagetable va
  if vam.perm &&& PTE_P ≠ 0 then some (m vam.pa) else none

/-- A segment as the process `p` finds it. -/
structure Reproduced (image : ramimage) (ph : elf_program) (p : ℕ) (s : KState) : Prop where
  file : ∀ k < ph.p_filesz, load_byte s.mem (s.processes p).p_pagetable (ph.p_va+k) =
    some (image.bytes (ph.p_offset+k))
  zero : ∀ k, ph.p_filesz ≤ k → k < ph.p_memsz →
    load_byte s.mem (s.processes p).p_pagetable (ph.p_va+k) = some 0
  owned : ∀ a ∈ loadPages ph,
    s.pageinfo (virtual_memory_lookup s.mem (s.processes p).p_pagetable a).pn.toNat =
      ⟨(s.processes p).p_pid,1⟩
  user : ∀ a ∈ loadPages ph, (virtual_memory_lookup s.mem (s.processes p).p_pagetable a).perm =
    PTE_P ||| PTE_W ||| PTE_U

/-- A program whose loadable segments have pages of their own. -/
structure ImageFits (image : ramimage) (s : KState) : Prop where
  fits : ∀ ph ∈ loadable image, SegmentFits ph s
  apart : (loadable image).Pairwise PagesApart

/-- Where a segment starts within a page, the bytes further on in the image are the same. -/
def ShiftInvisible (image : ramimage) (ph : elf_program) : Prop :=
  ∀ k < ph.p_filesz, image.bytes (ph.p_offset+(ph.p_va % PAGESIZE+k)) =
    image.bytes (ph.p_offset+k)

theorem loaded_byte {pid : ℕ} (L : Loaded r pid Y s₀ s) {x : ℕ} (h : InPages Y x) :
    load_byte s.mem r x = some (s.mem x) := by
  have hp : 7 &&& PTE_P ≠ 0 := by decide
  simp only [load_byte, L.lookup h, if_pos hp]

theorem reproduced_iff {pid : ℕ} (P : Target s p r pid) (F : SegmentFits ph s₁)
    (L : Loaded r pid Y s₀ s) (hY : ∀ a ∈ loadPages ph, Y a)
    (B : SegmentBytes ph (fun k => image.bytes (ph.p_offset+k)) s.mem) :
    Reproduced image ph p s ↔ ShiftInvisible image ph := by
  have hbase := base_add ph.p_va
  have hfile := F.file
  have hbyte : ∀ k < ph.p_memsz,
      load_byte s.mem (s.processes p).p_pagetable (ph.p_va+k) = some (s.mem (ph.p_va+k)) := by
    intro k hk
    rw [P.table]
    exact loaded_byte L (hY _ (in_loadPages (by omega) (by omega)))
  have hshift : ∀ k < ph.p_filesz,
      s.mem (ph.p_va+k) = image.bytes (ph.p_offset+(ph.p_va % PAGESIZE+k)) := by
    intro k hk
    have haddr : ph.p_va+k = PTE_ADDR ph.p_va+(ph.p_va % 4096+k) := by omega
    rw [haddr]
    exact B.file _ (by omega)
  have hpage : ∀ a ∈ loadPages ph,
      virtual_memory_lookup s.mem (s.processes p).p_pagetable a = ⟨(a / 4096 : ℕ),a,7⟩ := by
    intro a ha
    have hin : InPages Y a := by
      have halign := loadPages_aligned ha
      have hback : a / 4096*4096 = a := by omega
      rw [InPages, hback]
      exact hY a ha
    rw [P.table]
    exact L.lookup hin
  constructor
  · intro R k hk
    have h := R.file k hk
    rw [hbyte k (by omega), hshift k hk, Option.some.injEq] at h
    exact h
  · intro hinv
    refine ⟨fun k hk => ?_,fun k hk hk' => ?_,fun a ha => ?_,fun a ha => ?_⟩
    · rw [hbyte k (by omega), hshift k hk, hinv k hk]
    · rw [hbyte k hk', B.zero k hk hk']
    · rw [hpage a ha, P.own_pid]
      exact L.owned a (hY a ha)
    · rw [hpage a ha]
      rfl

theorem image_reproduced_iff (hlaw : ∀ alloc, allocator = some alloc → Allocates alloc)
    (T : TreeShaped s.mem (s.processes p).p_pagetable)
    (hused : InUse (s.processes p).p_pagetable s) (himage : K.ramimages[n]? = some image)
    (hfits : ImageFits image s) (h : program_load K p n allocator s = .ok (0,s')) :
    ((∀ ph ∈ loadable image, Reproduced image ph p s') ∧
      (s'.processes p).p_registers.reg_rip = image.e_entry) ↔
    ∀ ph ∈ loadable image, ShiftInvisible image ph := by
  simp only [program_load, himage] at h
  obtain ⟨-,h⟩ := (seq_ok_iff _ _ _).1 h
  obtain ⟨⟨res,s₁⟩,hloop,h⟩ := (bind_ok_iff _ _ _).1 h
  by_cases hres : res < 0
  · simp only [if_pos hres, Except.ok.injEq, Prod.mk.injEq] at h
    exact absurd h.1 (by decide)
  simp only [if_neg hres, Except.ok.injEq, Prod.mk.injEq, true_and] at h
  have P : Target s p (s.processes p).p_pagetable (s.processes p).p_pid := ⟨rfl,rfl⟩
  have L₀ : Loaded (s.processes p).p_pagetable (s.processes p).p_pid (fun _ => False) s s :=
    ⟨T.tree,fun a ha _ => hused a ha,Ledger.refl s,rfl,fun _ h => h.elim,fun _ h => h.elim,
      fun _ h => h.elim,fun _ h => h.elim⟩
  have hload : ∀ ph, ph ∈ loadable image ↔ ph ∈ image.e_program ∧ ph.p_type = ELF_PTYPE_LOAD := by
    intro ph
    rw [loadable, List.mem_filter, decide_eq_true_iff]
  obtain ⟨Y,L,-,hall⟩ := image_loaded hlaw P image.e_program
    (fun ph hph hl => hfits.fits ph ((hload ph).2 ⟨hph,hl⟩)) hfits.apart
    (fun _ _ _ _ _ h => h) L₀ hloop hres
  have hprocs : s₁.processes = s.processes := L.processes
  have P' : Target s' p (s.processes p).p_pagetable (s.processes p).p_pid := by
    rw [← h]
    constructor
    · simp [KState.setRegisters, KState.setProc, hprocs]
    · simp [KState.setRegisters, KState.setProc, hprocs]
  have L' : Loaded (s.processes p).p_pagetable (s.processes p).p_pid Y s' s' := by
    rw [← h]
    exact ⟨L.tree,L.tables,Ledger.refl _,rfl,L.user,L.owned,L.apart,L.mapped⟩
  have hrip : (s'.processes p).p_registers.reg_rip = image.e_entry := by
    rw [← h]
    simp [KState.setRegisters, KState.setProc]
  have hmem : s'.mem = s₁.mem := by
    rw [← h]
    rfl
  have heach : ∀ ph ∈ loadable image, Reproduced image ph p s' ↔ ShiftInvisible image ph := by
    intro ph hph
    obtain ⟨hin,hl⟩ := (hload ph).1 hph
    obtain ⟨hY,B⟩ := hall ph hin hl
    rw [← hmem] at B
    exact reproduced_iff P' (hfits.fits ph hph) L' hY B
  constructor
  · rintro ⟨hrep,-⟩ ph hph
    exact (heach ph hph).1 (hrep ph hph)
  · intro hinv
    exact ⟨fun ph hph => (heach ph hph).2 (hinv ph hph),hrip⟩

end Images

section Sample

/-- The pages of the kernel's image and of its stack. -/
def kernelPages : List ℕ := (List.range 64).map (0x40+·)

/-- One chain of tables, which maps these pages to themselves. -/
def sampleTables : Memory :=
  let m := setEntry (fun _ => 0) 0x57000 0 0x1007
  let m := setEntry m 0x1000 0 0x2007
  let m := setEntry m 0x2000 0 0x3007
  kernelPages.foldl (fun m pn => setEntry m 0x3000 pn (pn*PAGESIZE+3)) m

/-- The kernel before it loads a program for process 1. -/
def loaderState : KState :=
  { powerOn with
    mem := sampleTables
    pageinfo := fun pn => if pn < 256 then ⟨PO_RESERVED,1⟩ else freeInfo
    processes := fun i => ⟨i,.zero,.P_FREE,0x57000⟩ }

/-- The table of each level. -/
def sampleTable : ℕ → ℕ
  | 0 => 0x57000
  | d+1 => (d+1)*0x1000

theorem sample_chain : TableChain sampleTables sampleTable fun _ => 0 := by
  have hpages : ∀ pn ∈ kernelPages, pn < NPAGETABLEENTRIES := by decide
  rw [sampleTables]
  refine List.foldlRecOn (motive := fun m => TableChain m sampleTable fun _ => 0) kernelPages _ ?_
    fun m H pn hpn => H.write (hpages pn hpn) _
  refine ⟨fun d hd => ?_,by decide,fun d hd i hi => ?_⟩
  · have hcases : d = 0 ∨ d = 1 ∨ d = 2 ∨ d = 3 := by omega
    rcases hcases with rfl | rfl | rfl | rfl <;> decide
  · have hcases : d = 0 ∨ d = 1 ∨ d = 2 := by omega
    have haligned : sampleTable d % 4096 = 0 := by
      rcases hcases with rfl | rfl | rfl <;> rfl
    rw [entry_setEntry_if rfl haligned (by decide) hi (by decide),
      entry_setEntry_if rfl haligned (by decide) hi (by decide),
      entry_setEntry_if rfl haligned (by decide) hi (by decide), blank_entry]
    rcases hcases with rfl | rfl | rfl <;> simp [sampleTable]

theorem sample_used : InUse 0x57000 loaderState := by
  rintro a ⟨d,T⟩ hfree
  obtain ⟨hd,rfl⟩ := sample_chain.page T
  have hinfo := ((mem_freePages _ _).1 hfree).2
  have hlow : sampleTable d / PAGESIZE < 256 := by
    have hcases : d = 0 ∨ d = 1 ∨ d = 2 ∨ d = 3 := by omega
    rcases hcases with rfl | rfl | rfl | rfl <;> decide
  have hused : loaderState.pageinfo (sampleTable d / PAGESIZE) = ⟨PO_RESERVED,1⟩ := if_pos hlow
  rw [hused] at hinfo
  cases hinfo

/-- The kernel of the usual layout with one program. -/
def kernelWith (image : ramimage) : KernelImage := { sampleKernel with ramimages := [image] }

/-- One segment at `va` with the bytes of the image from 0x1000 on. -/
def oneSegment (va filesz memsz : ℕ) : ramimage where
  e_magic := ELF_MAGIC
  e_entry := 0x100000
  e_program := [⟨ELF_PTYPE_LOAD,0x1000,va,filesz,memsz⟩]
  bytes k := UInt8.ofNat k

theorem oneSegment_fits {va filesz memsz : ℕ} (hva : va = 0x100000 ∨ va = 0x100001)
    (hfile : filesz ≤ memsz) (hmem : memsz ≤ 16) :
    ImageFits (oneSegment va filesz memsz) loaderState := by
  have hlist : loadable (oneSegment va filesz memsz) = [⟨ELF_PTYPE_LOAD,0x1000,va,filesz,memsz⟩] :=
    rfl
  have hpage : 256 ∈ freePages loaderState := (mem_freePages _ _).2 ⟨by decide,rfl⟩
  refine ⟨fun ph hph => ?_,by rw [hlist]; exact List.pairwise_singleton _ _⟩
  rw [hlist, List.mem_singleton] at hph
  subst hph
  have haddr : ∀ a ∈ loadPages ⟨ELF_PTYPE_LOAD,0x1000,va,filesz,memsz⟩, a = 0x100000 := by
    intro a ha
    obtain ⟨k,rfl,hlt⟩ := (mem_addrs _ _ _).1 ha
    rw [pte_addr_eq] at hlt ⊢
    simp only at hlt ⊢
    omega
  refine ⟨hfile,fun a ha => ?_,fun a ha => ?_⟩
  · rw [haddr a ha]
    decide
  · rw [haddr a ha]
    exact hpage

/-- A segment at the start of a page, with bytes to clear. -/
theorem aligned_image_reproduced : ∃ s',
    program_load (kernelWith (oneSegment 0x100000 2 4)) 1 0 none loaderState = .ok (0,s') ∧
    (∀ ph ∈ loadable (oneSegment 0x100000 2 4), Reproduced (oneSegment 0x100000 2 4) ph 1 s') ∧
    (s'.processes 1).p_registers.reg_rip = 0x100000 := by
  have hret : returned (program_load (kernelWith (oneSegment 0x100000 2 4)) 1 0 none loaderState) =
      some 0 := by decide +kernel
  obtain ⟨s',hs'⟩ := returned_some hret
  have himage : (kernelWith (oneSegment 0x100000 2 4)).ramimages[0]? =
      some (oneSegment 0x100000 2 4) := rfl
  have hiff := image_reproduced_iff (fun _ h => (by cases h)) sample_chain.tree sample_used himage
    (oneSegment_fits (Or.inl rfl) (by decide) (by decide)) hs'
  refine ⟨s',hs',hiff.2 fun ph hph k _ => ?_⟩
  rw [List.mem_singleton.1 hph]
  have hzero : 0x100000 % PAGESIZE+k = k := Nat.zero_add k
  simp only [hzero]

/-- The byte at 0x100001, which should be the first of the segment. -/
def secondByte : Checked (ℤ × KState) → Option (ℤ × Option UInt8)
  | .ok (r,s) => some (r,load_byte s.mem (s.processes 1).p_pagetable 0x100001)
  | .error _ => none

/-- A segment one byte into its page. -/
theorem unaligned_image_shifted : TreeShaped loaderState.mem (loaderState.processes 1).p_pagetable ∧
    InUse (loaderState.processes 1).p_pagetable loaderState ∧
    ImageFits (oneSegment 0x100001 1 1) loaderState ∧ ∃ s',
      program_load (kernelWith (oneSegment 0x100001 1 1)) 1 0 none loaderState = .ok (0,s') ∧
      ¬∀ ph ∈ loadable (oneSegment 0x100001 1 1), Reproduced (oneSegment 0x100001 1 1) ph 1 s' := by
  have hbyte : secondByte (program_load (kernelWith (oneSegment 0x100001 1 1)) 1 0 none
      loaderState) = some (0,some 1) := by decide +kernel
  refine ⟨sample_chain.tree,sample_used,oneSegment_fits (Or.inr rfl) (by decide) (by decide),?_⟩
  cases hload : program_load (kernelWith (oneSegment 0x100001 1 1)) 1 0 none loaderState with
  | error e =>
    rw [hload] at hbyte
    cases hbyte
  | ok x =>
    obtain ⟨res,s'⟩ := x
    rw [hload] at hbyte
    simp only [secondByte, Option.some.injEq, Prod.mk.injEq] at hbyte
    obtain ⟨rfl,hone⟩ := hbyte
    refine ⟨s',rfl,fun hall => ?_⟩
    have hfirst := (hall _ (List.mem_singleton.2 rfl)).file 0 (by decide)
    simp only [add_zero] at hfirst
    have hsame := hone.symm.trans hfirst
    rw [Option.some.injEq] at hsame
    have hne : (1 : UInt8) ≠ UInt8.ofNat 0x1000 := by decide
    exact hne hsame

end Sample

end WeensyOS.ImageLoading
