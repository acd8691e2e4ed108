import WeensyOS.PageAllocator
import WeensyOS.TableWords

/-!
# Free pages and what the allocators do with them

The page allocator takes the lowest free page and marks it for its owner, or
finds none and changes nothing. Page zero is reserved, so the address zero
always means that memory has run out.
-/

set_option autoImplicit false

namespace WeensyOS.FreePages
open WeensyOS.FlatMemory WeensyOS.KernelState WeensyOS.PageTables WeensyOS.PageAllocator
open WeensyOS.TableWords

abbrev freeInfo : physical_pageinfo := ⟨PO_FREE,0⟩

def freePages (s : KState) : Finset ℕ :=
  (Finset.range NPAGES).filter fun pn => s.pageinfo pn = freeInfo

def freeCount (s : KState) : ℕ := (freePages s).card

theorem mem_freePages (s : KState) (pn : ℕ) :
    pn ∈ freePages s ↔ pn < 512 ∧ s.pageinfo pn = freeInfo := by
  have hpages : NPAGES = 512 := rfl
  simp [freePages, hpages]

theorem freePages_congr {s s' : KState} (h : s'.pageinfo = s.pageinfo) :
    freePages s' = freePages s := by
  simp [freePages, h]

theorem freeCount_congr {s s' : KState} (h : s'.pageinfo = s.pageinfo) :
    freeCount s' = freeCount s := by
  rw [freeCount, freePages_congr h, freeCount]

theorem freeCount_eq_zero (s : KState) : freeCount s = 0 ↔ freePages s = ∅ :=
  Finset.card_eq_zero

@[simp] theorem setPageinfo_pageinfo (s : KState) (f : ℕ) (info : physical_pageinfo) :
    (s.setPageinfo f info).pageinfo = Function.update s.pageinfo f info := rfl

@[simp] theorem setPageinfo_mem (s : KState) (f : ℕ) (info : physical_pageinfo) :
    (s.setPageinfo f info).mem = s.mem := rfl

@[simp] theorem setPageinfo_owner (s : KState) (f : ℕ) (info : physical_pageinfo) :
    (s.setPageinfo f info).pagetable_owner = s.pagetable_owner := rfl

@[simp] theorem setPageinfo_processes (s : KState) (f : ℕ) (info : physical_pageinfo) :
    (s.setPageinfo f info).processes = s.processes := rfl

theorem freePages_setPageinfo (s : KState) (f : ℕ) (info : physical_pageinfo)
    (hinfo : info ≠ freeInfo) : freePages (s.setPageinfo f info) = (freePages s).erase f := by
  ext pn
  by_cases hpn : pn = f
  · subst hpn
    simp [mem_freePages, hinfo]
  · simp [mem_freePages, hpn]

theorem freeCount_setPageinfo (s : KState) (f : ℕ) (info : physical_pageinfo)
    (hf : f ∈ freePages s) (hinfo : info ≠ freeInfo) :
    freeCount (s.setPageinfo f info)+1 = freeCount s := by
  rw [freeCount, freePages_setPageinfo s f info hinfo]
  exact Finset.card_erase_add_one hf

theorem pagenumber_frame (f : ℕ) (hf : f < 512) : (PAGENUMBER (f*4096)).toNat = f := by
  rw [pagenumber_eq _ (by omega)]
  simp

/-- A frame address with no owner yet is assigned. -/
theorem assign_physical_page_free (f : ℕ) (hf : f < 512) (owner : ℤ) (s : KState)
    (hfree : (s.pageinfo f).refcount = 0) :
    assign_physical_page (f*4096) owner s = (0,s.setPageinfo f ⟨owner,1⟩) := by
  have halign : f*4096 &&& 0xFFF = 0 := by
    have h := Nat.and_two_pow_sub_one_eq_mod (f*4096) 12
    simpa using h
  have hrange : ¬(f*4096 ≥ MEMSIZE_PHYSICAL) := by
    simp only [MEMSIZE_PHYSICAL]
    omega
  simp [assign_physical_page, pagenumber_frame f hf, halign, hrange, hfree]

theorem assign_physical_page_used (addr : ℕ) (owner : ℤ) (s : KState)
    (hused : addr % 4096 ≠ 0 ∨ addr ≥ MEMSIZE_PHYSICAL ∨
      (s.pageinfo (addr / 4096)).refcount ≠ 0) :
    assign_physical_page addr owner s = (-1,s) := by
  have halign : addr &&& 0xFFF = addr % 4096 := Nat.and_two_pow_sub_one_eq_mod addr 12
  by_cases hrange : addr ≥ MEMSIZE_PHYSICAL
  · simp [assign_physical_page, hrange]
  · have hpn : (PAGENUMBER addr).toNat = addr / 4096 := by
      simp only [MEMSIZE_PHYSICAL] at hrange
      rw [pagenumber_eq _ (by omega)]
      exact Int.toNat_natCast _
    have hcond : addr &&& 0xFFF ≠ 0 ∨ addr ≥ MEMSIZE_PHYSICAL ∨
        (s.pageinfo (PAGENUMBER addr).toNat).refcount ≠ 0 := by
      rw [halign, hpn]
      exact hused
    rw [assign_physical_page, if_pos hcond]

theorem addrs_physical : addrs 0 MEMSIZE_PHYSICAL = (List.range 512).map (·*4096) := by
  simp [addrs, MEMSIZE_PHYSICAL, PAGESIZE]

theorem get_free_addr_loop_range (owner : ℤ) (s : KState) (l : List ℕ) (hl : ∀ f ∈ l, f < 512) :
    get_free_addr_loop owner (l.map (·*4096)) s =
      match l.find? fun f => s.pageinfo f = freeInfo with
      | none => (0,s)
      | some f => (f*4096,s.setPageinfo f ⟨owner,1⟩) := by
  induction l with
  | nil => rfl
  | cons f l ih =>
    have hf := hl f (by simp)
    have hinfo : ((s.pageinfo f).refcount = 0 ∧ (s.pageinfo f).owner = PO_FREE) ↔
        s.pageinfo f = freeInfo := by
      rw [physical_pageinfo.ext_iff]
      exact and_comm
    simp only [List.map_cons, get_free_addr_loop, pagenumber_frame f hf, hinfo]
    by_cases hfree : s.pageinfo f = freeInfo
    · simp [hfree, assign_physical_page_free f hf owner s (by rw [hfree])]
    · simp [hfree, ih (fun g hg => hl g (by simp [hg]))]

theorem get_free_addr_none (owner : ℤ) (s : KState) (h : freePages s = ∅) :
    get_free_addr owner s = (0,s) := by
  have hnone : (List.range 512).find? (fun f => s.pageinfo f = freeInfo) = none := by
    rw [List.find?_eq_none]
    intro f hf hfree
    have hmem : f ∈ freePages s := (mem_freePages s f).2
      ⟨List.mem_range.1 hf,by simpa using hfree⟩
    simp [h] at hmem
  rw [get_free_addr, addrs_physical,
    get_free_addr_loop_range owner s _ (fun f hf => List.mem_range.1 hf), hnone]

/-- The lowest free page is the one taken. -/
theorem get_free_addr_some (owner : ℤ) (s : KState) (h : freePages s ≠ ∅) :
    ∃ f ∈ freePages s, (∀ g ∈ freePages s, f ≤ g) ∧
      get_free_addr owner s = (f*4096,s.setPageinfo f ⟨owner,1⟩) := by
  obtain ⟨g,hg⟩ := Finset.nonempty_iff_ne_empty.2 h
  have hsome : ∃ f, (List.range 512).find? (fun f => s.pageinfo f = freeInfo) = some f := by
    rw [← Option.isSome_iff_exists, List.find?_isSome]
    obtain ⟨hlt,hfree⟩ := (mem_freePages s g).1 hg
    exact ⟨g,List.mem_range.2 hlt,by simpa using hfree⟩
  obtain ⟨f,hf⟩ := hsome
  obtain ⟨hfree,hlt,hleast⟩ := List.find?_range_eq_some.1 hf
  refine ⟨f,(mem_freePages s f).2 ⟨List.mem_range.1 hlt,by simpa using hfree⟩,?_,?_⟩
  · intro g hg
    by_contra hlow
    have := hleast g (by omega)
    simp [((mem_freePages s g).1 hg).2] at this
  · rw [get_free_addr, addrs_physical,
      get_free_addr_loop_range owner s _ (fun f hf => List.mem_range.1 hf), hf]

theorem pagetable_alloc_none (s : KState) (h : freePages s = ∅) :
    pagetable_alloc s = (0,s) := by
  simp [pagetable_alloc, get_free_addr_none _ s h]

/-- A new table: a page that was free, marked for the pending owner and cleared. -/
theorem pagetable_alloc_some (s : KState) (h : freePages s ≠ ∅) (h0 : 0 ∉ freePages s) :
    ∃ f ∈ freePages s, f ≠ 0 ∧
      pagetable_alloc s = (f*4096,{ s.setPageinfo f ⟨s.pagetable_owner,1⟩ with
        mem := LibC.memset s.mem (f*4096) 0 4096 }) := by
  obtain ⟨f,hf,-,heq⟩ := get_free_addr_some s.pagetable_owner s h
  have hne : f ≠ 0 := fun hz => h0 (hz ▸ hf)
  exact ⟨f,hf,hne,by simp [pagetable_alloc, heq, hne]⟩

end WeensyOS.FreePages
