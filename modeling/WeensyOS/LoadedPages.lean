import WeensyOS.ExactCopies

/-!
# Pages given to a program

The pages that the loader takes for a process whose page table is a tree of any
shape. Whatever the allocator of page tables hands out afterwards, they stay
mapped at their own addresses and keep their bytes.
-/

set_option autoImplicit false

namespace WeensyOS.LoadedPages
open WeensyOS.FlatMemory WeensyOS.KernelState WeensyOS.PageTables WeensyOS.PageAllocator
open WeensyOS.Boot WeensyOS.CheckedRuns WeensyOS.TableWords WeensyOS.FreePages
open WeensyOS.PageMaps WeensyOS.PrivateRuns WeensyOS.TreeTables WeensyOS.RangeWalks
open WeensyOS.RangeMaps WeensyOS.TableCopies

section Allocators

/-- Pages change hands only while they are free, and get a reference. -/
def Ledger (t s : KState) : Prop :=
  ∀ pn, s.pageinfo pn = t.pageinfo pn ∨ (pn ∈ freePages t ∧ (s.pageinfo pn).refcount ≠ 0)

/-- "The `allocator` function should return a newly allocated page, or NULL": a page that was
free, which now has a reference. No other page is written to. -/
structure Allocates (alloc : Allocator KState) : Prop where
  page : ∀ s, (alloc s).1 ≠ NULL → (alloc s).1 % PAGESIZE = 0 ∧
    (alloc s).1 < MEMSIZE_PHYSICAL ∧ (alloc s).1 / PAGESIZE ∈ freePages s ∧
    (alloc s).1 / PAGESIZE ∉ freePages (alloc s).2
  ledger : ∀ s, Ledger s (alloc s).2
  kept : ∀ s a, a % PAGESIZE = 0 → a ≠ (alloc s).1 ∨ (alloc s).1 = NULL →
    Agree s.mem (alloc s).2.mem a PAGESIZE
  processes : ∀ s, (alloc s).2.processes = s.processes

variable {t s s' : KState} {pn : ℕ}

theorem Ledger.refl (s : KState) : Ledger s s := fun _ => Or.inl rfl

theorem not_free (h : (s.pageinfo pn).refcount ≠ 0) : pn ∉ freePages s := by
  rw [mem_freePages]
  rintro ⟨-,hfree⟩
  rw [hfree] at h
  exact h rfl

theorem Ledger.free (L : Ledger t s) (h : pn ∈ freePages s) : pn ∈ freePages t := by
  rcases L pn with hsame | ⟨hfree,-⟩
  · rw [mem_freePages] at h ⊢
    rw [← hsame]
    exact h
  · exact hfree

theorem Ledger.settled (L : Ledger t s) (h : pn ∉ freePages t) : s.pageinfo pn = t.pageinfo pn :=
  (L pn).resolve_right fun hfree => h hfree.1

theorem Ledger.trans (L : Ledger t s) (L' : Ledger s s') : Ledger t s' := by
  intro pn
  rcases L' pn with hsame | ⟨hfree,hone⟩
  · rw [hsame]
    exact L pn
  · exact Or.inr ⟨L.free hfree,hone⟩

/-- Of pages that were free the loader can take those that still are. -/
theorem Ledger.untaken (L : Ledger t s) (h : pn ∈ freePages t) (hzero : (s.pageinfo pn).refcount = 0) :
    pn ∈ freePages s := by
  rcases L pn with hsame | ⟨-,hone⟩
  · rw [mem_freePages] at h ⊢
    rw [hsame]
    exact h
  · exact absurd hzero hone

theorem pagetable_alloc_allocates : Allocates pagetable_alloc := by
  -- both outcomes of the search for a free page
  have hcases : ∀ s, pagetable_alloc s = (NULL,s) ∨ ∃ f ∈ freePages s,
      pagetable_alloc s = (f*4096,{ s.setPageinfo f ⟨s.pagetable_owner,1⟩ with
        mem := if f*4096 = NULL then s.mem else LibC.memset s.mem (f*4096) 0 4096 }) := by
    intro s
    by_cases h : freePages s = ∅
    · exact Or.inl (pagetable_alloc_none s h)
    · obtain ⟨f,hf,-,heq⟩ := get_free_addr_some s.pagetable_owner s h
      refine Or.inr ⟨f,hf,?_⟩
      by_cases hnull : f*4096 = NULL
      · simp only [pagetable_alloc, heq, hnull, if_true, setPageinfo_mem]
        rfl
      · simp only [pagetable_alloc, heq, if_neg hnull, setPageinfo_mem]
  refine ⟨fun s hne => ?_,fun s pn => ?_,fun s a ha hsep => ?_,fun s => ?_⟩
  · rcases hcases s with h | ⟨f,hf,h⟩
    · rw [h] at hne
      exact absurd rfl hne
    · have hlt := ((mem_freePages s f).1 hf).1
      have hdiv : f*4096 / PAGESIZE = f := Nat.mul_div_cancel f (by decide)
      rw [h]
      simp only [hdiv]
      refine ⟨Nat.mul_mod_left f 4096,?_,hf,not_free ?_⟩
      · simp only [MEMSIZE_PHYSICAL]
        omega
      · change (Function.update s.pageinfo f (⟨s.pagetable_owner,1⟩ : physical_pageinfo) f).refcount ≠ 0
        rw [Function.update_self]
        exact one_ne_zero
  · rcases hcases s with h | ⟨f,hf,h⟩
    · rw [h]
      exact Or.inl rfl
    · rw [h]
      change Function.update s.pageinfo f _ pn = _ ∨
        (_ ∧ (Function.update s.pageinfo f (⟨s.pagetable_owner,1⟩ : physical_pageinfo) pn).refcount ≠ 0)
      by_cases hpn : pn = f
      · rw [hpn, Function.update_self]
        exact Or.inr ⟨hf,one_ne_zero⟩
      · rw [Function.update_of_ne hpn]
        exact Or.inl rfl
  · rcases hcases s with h | ⟨f,hf,h⟩
    · rw [h]
      exact Agree.refl _ _ _
    · rw [h] at hsep ⊢
      by_cases hnull : f*4096 = NULL
      · simp only [if_pos hnull]
        exact Agree.refl _ _ _
      · simp only [if_neg hnull]
        exact memset_agree s.mem _ a 0 (Nat.mul_mod_left f 4096) ha (hsep.resolve_right hnull)
  · rcases hcases s with h | ⟨f,hf,h⟩
    · rw [h]
    · rw [h]
      rfl

/-- An allocator without pages. -/
def noPages {σ : Type} : Allocator σ := fun s => (NULL,s)

theorem noPages_allocates : Allocates noPages where
  page _ h := absurd rfl h
  ledger s := Ledger.refl s
  kept _ _ _ _ := Agree.refl _ _ _
  processes _ := rfl

end Allocators

section Without

variable {σ : Type} [MachineMemory σ] (perm : ℕ)

theorem entry_without (va i pt : ℕ) (s : σ) : lookup_l4pagetable_entry va perm none i pt s =
    lookup_l4pagetable_entry va perm (some noPages) i pt s := by
  simp only [lookup_l4pagetable_entry, noPages, if_true]

theorem lookup_without (va : ℕ) (levels : List ℕ) (pt : ℕ) (s : σ) :
    lookup_l4pagetable_loop va perm none levels pt s =
      lookup_l4pagetable_loop va perm (some noPages) levels pt s := by
  induction levels generalizing pt s with
  | nil => rfl
  | cons l levels ih => simp only [lookup_l4pagetable_loop, entry_without, ih]

theorem loop_without (r n va pa : ℕ) (last : ℤ) (l4 : ℕ) (s : σ) :
    virtual_memory_map_loop r perm none n va pa last l4 s =
      virtual_memory_map_loop r perm (some noPages) n va pa last l4 s := by
  induction n generalizing va pa last l4 s with
  | zero => rfl
  | succ n ih => simp only [virtual_memory_map_loop, lookup_l4pagetable, lookup_without, ih]

/-- A call without an allocator is a call with one that has no pages. -/
theorem map_without (r va pa sz : ℕ) (s : σ) :
    virtual_memory_map r va pa sz perm none s =
      virtual_memory_map r va pa sz perm (some noPages) s := by
  simp only [virtual_memory_map, loop_without]

end Without

section Maps

variable {Y : ℕ → Prop} {t s s' : KState} {alloc : Allocator KState} {r pid va : ℕ}

/-- The pages `Y` are as they were in `t`, and are none of the pages `X`. -/
structure Held (Y : ℕ → Prop) (t s : KState) (X : ℕ → Prop) : Prop where
  tables : ∀ a, X a → a % PAGESIZE = 0 ∧ (a ≠ NULL → a / PAGESIZE ∉ freePages s)
  apart : ∀ a, Y a → ¬X a
  kept : ∀ a, Y a → Agree t.mem s.mem a PAGESIZE
  ledger : Ledger t s
  processes : s.processes = t.processes

theorem held_lawful (A : Allocates alloc)
    (hY : ∀ a, Y a → a % PAGESIZE = 0 ∧ a ≠ NULL ∧ a / PAGESIZE ∉ freePages t) :
    Lawful alloc (Held Y t) where
  page s X H hne := by
    obtain ⟨halign,hlt,hfree,-⟩ := A.page s hne
    exact ⟨halign,hlt,fun hX => (H.tables _ hX).2 hne hfree⟩
  next s X H := by
    have hstay : ∀ pn, pn ∉ freePages s → pn ∉ freePages (alloc s).2 := fun pn h h' =>
      h ((A.ledger s).free h')
    refine ⟨fun a ha => ?_,fun a ha hX => ?_,fun a ha => ?_,H.ledger.trans (A.ledger s),
      (A.processes s).trans H.processes⟩
    · rcases ha with ha | rfl
      · exact ⟨(H.tables a ha).1,fun hne => hstay _ ((H.tables a ha).2 hne)⟩
      · by_cases hne : (alloc s).1 = NULL
        · rw [hne]
          exact ⟨rfl,fun h => absurd rfl h⟩
        · exact ⟨(A.page s hne).1,fun _ => (A.page s hne).2.2.2⟩
    · rcases hX with hX | rfl
      · exact H.apart a ha hX
      · obtain ⟨-,hne,hused⟩ := hY _ ha
        exact hused (H.ledger.free (A.page s hne).2.2.1)
    · obtain ⟨halign,hne,hused⟩ := hY a ha
      refine (H.kept a ha).trans (A.kept s a halign ?_)
      by_cases hsame : a = (alloc s).1
      · exact absurd (H.ledger.free (A.page s (hsame ▸ hne)).2.2.1) (hsame ▸ hused)
      · exact Or.inl hsame
  kept s X a H ha := by
    obtain ⟨halign,hused⟩ := H.tables a ha
    refine A.kept s a halign ?_
    by_cases hne : (alloc s).1 = NULL
    · exact Or.inr hne
    · refine Or.inl ?_
      rintro rfl
      exact hused hne (A.page s hne).2.2.1
  store s X m H hm := by
    refine ⟨H.tables,H.apart,fun a ha => ?_,H.ledger,H.processes⟩
    exact (H.kept a ha).trans (hm a (hY a ha).1 (H.apart a ha))

end Maps

section Pages

/-- A page where programs are loaded. -/
def UserPage (a : ℕ) : Prop := a % 4096 = 0 ∧ PROC_START_ADDR ≤ a ∧ a < MEMSIZE_PHYSICAL

/-- The pages `Y` belong to the process `pid` with the page table `r`. -/
structure Loaded (r pid : ℕ) (Y : ℕ → Prop) (s₀ s : KState) : Prop where
  tree : TreeAt s.mem r
  tables : ∀ a, Pages s.mem r a → a ≠ NULL → a / 4096 ∉ freePages s
  ledger : Ledger s₀ s
  processes : s.processes = s₀.processes
  user : ∀ a, Y a → UserPage a
  owned : ∀ a, Y a → s.pageinfo (a / 4096) = ⟨pid,1⟩
  apart : ∀ a, Y a → ¬Pages s.mem r a
  mapped : ∀ a, Y a → ∀ k < 4096,
    virtual_memory_lookup s.mem r (a+k) = ⟨((a+k) / 4096 : ℕ),a+k,7⟩

variable {Y : ℕ → Prop} {s₀ s s₁ s' : KState} {alloc : Allocator KState} {r pid va : ℕ}

theorem UserPage.ne_null {a : ℕ} (h : UserPage a) : a ≠ NULL := by
  have hlo := h.2.1
  simp only [PROC_START_ADDR] at hlo
  simp only [NULL]
  omega

/-- Addresses in pages of `Y`. -/
def InPages (Y : ℕ → Prop) (x : ℕ) : Prop := Y (x / 4096*4096)

theorem Loaded.lookup (L : Loaded r pid Y s₀ s) {x : ℕ} (h : InPages Y x) :
    virtual_memory_lookup s.mem r x = ⟨(x / 4096 : ℕ),x,7⟩ := by
  have hx : x / 4096*4096+x % 4096 = x := by omega
  have hlook := L.mapped _ h (x % 4096) (Nat.mod_lt x (by decide))
  rwa [hx] at hlook

/-- What is stored in the pages of `Y` changes no table. -/
theorem Loaded.store (L : Loaded r pid Y s₀ s) {m : Memory}
    (hm : ∀ x, ¬InPages Y x → m x = s.mem x) : Loaded r pid Y s₀ { s with mem := m } := by
  have hagree : ∀ a, Pages s.mem r a → Agree s.mem m a PAGESIZE := by
    intro a ha k hk
    refine hm _ fun hin => ?_
    have halign := (pages_aligned L.tree ha).1
    have hpage : (a+k) / 4096*4096 = a := by
      simp only [PAGESIZE] at hk
      omega
    rw [InPages, hpage] at hin
    exact L.apart a hin ha
  have hslots := pages_slots hagree
  refine ⟨L.tree.congr hslots,fun a ha => ?_,L.ledger,L.processes,L.user,L.owned,fun a ha h => ?_,
    fun a ha k hk => ?_⟩
  · exact L.tables a ((pages_congr hslots).1 ha)
  · exact L.apart a ha ((pages_congr hslots).1 h)
  · rw [← L.mapped a ha k hk, lookup_view, lookup_view]
    exact view_congr fun q _ hpre =>
      words_congr hslots (prefix_length hpre (indices_length _))

theorem Loaded.cr3 (L : Loaded r pid Y s₀ s) (pt : ℕ) : Loaded r pid Y s₀ { s with cr3 := pt } :=
  ⟨L.tree,L.tables,L.ledger,L.processes,L.user,L.owned,L.apart,L.mapped⟩

/-- A page that was free is assigned, or was handed out in the meantime. -/
theorem Loaded.assigned (L : Loaded r pid Y s₀ s) (hva : UserPage va)
    (hfree : va / 4096 ∈ freePages s₀) {o res : ℤ}
    (h : assign_physical_page va o s = (res,s₁)) (hres : ¬res < 0) :
    va / 4096 ∈ freePages s ∧ s₁ = s.setPageinfo (va / 4096) ⟨o,1⟩ := by
  obtain ⟨halign,-,hlt⟩ := hva
  by_cases hzero : (s.pageinfo (va / 4096)).refcount = 0
  · have hin := L.ledger.untaken hfree hzero
    have haddr : va / 4096*4096 = va := by omega
    have hdone := assign_physical_page_free (va / 4096) ((mem_freePages _ _).1 hin).1 o s hzero
    rw [haddr, h, Prod.mk.injEq] at hdone
    exact ⟨hin,hdone.2⟩
  · rw [assign_physical_page_used va o s (Or.inr (Or.inr hzero)), Prod.mk.injEq] at h
    exact absurd (h.1 ▸ (by decide)) hres

/-- The page is the program's once it is mapped. -/
theorem Loaded.page (L : Loaded r pid Y s₀ s) (A : Allocates alloc) (hva : UserPage va)
    (hnew : ¬Y va) (hin : va / 4096 ∈ freePages s) {ret : ℤ}
    (h : virtual_memory_map r va va PAGESIZE 7 (some alloc)
      (s.setPageinfo (va / 4096) ⟨pid,1⟩) = .ok (ret,s')) (hret : ¬ret < 0) :
    Loaded r pid (fun a => Y a ∨ a = va) s₀ s' ∧ ∀ a, Y a → Agree s.mem s'.mem a PAGESIZE := by
  have hva' := hva
  obtain ⟨halign,hlo,hlt⟩ := hva'
  simp only [PROC_START_ADDR, MEMSIZE_PHYSICAL] at hlo hlt
  generalize ht : s.setPageinfo (va / 4096) ⟨pid,1⟩ = t at h
  have hmem : t.mem = s.mem := by rw [← ht, setPageinfo_mem]
  have hinfo : ∀ pn, t.pageinfo pn = if pn = va / 4096 then ⟨pid,1⟩ else s.pageinfo pn := by
    intro pn
    rw [← ht, setPageinfo_pageinfo, Function.update_apply]
  have hledger : Ledger s t := by
    intro pn
    rw [hinfo]
    by_cases hpn : pn = va / 4096
    · rw [if_pos hpn, hpn]
      exact Or.inr ⟨hin,one_ne_zero⟩
    · rw [if_neg hpn]
      exact Or.inl rfl
  have hnot : ∀ a, Y a → a ≠ va := fun a ha hsame => hnew (hsame ▸ ha)
  have hpages : ∀ a, Y a → a / 4096 ≠ va / 4096 := by
    intro a ha
    have := (L.user a ha).1
    have := hnot a ha
    omega
  have hY : ∀ a, Y a ∨ a = va → t.pageinfo (a / 4096) = ⟨pid,1⟩ := by
    rintro a (ha | rfl)
    · rw [hinfo, if_neg (hpages a ha)]
      exact L.owned a ha
    · rw [hinfo, if_pos rfl]
  have huser : ∀ a, Y a ∨ a = va → UserPage a := by
    rintro a (ha | rfl)
    · exact L.user a ha
    · exact hva
  have hused : ∀ a, Y a ∨ a = va → a / 4096 ∉ freePages t := fun a ha =>
    not_free (by rw [hY a ha]; exact one_ne_zero)
  have htree : TreeAt t.mem r := hmem ▸ L.tree
  have hfresh : ¬Pages s.mem r va := fun hp => L.tables va hp hva.ne_null hin
  have hapart : ∀ a, Y a ∨ a = va → ¬Pages t.mem r a := by
    rw [hmem]
    rintro a (ha | rfl)
    · exact L.apart a ha
    · exact hfresh
  -- the call, with the pages in use held
  have G : Walkable (some alloc) (Held (fun a => Y a ∨ a = va) t) True r (Pages t.mem r) t := by
    refine ⟨htree,fun alloc' _ => ⟨fun a ha => ?_,hapart,fun _ _ => Agree.refl _ _ _,Ledger.refl t,rfl⟩,
      fun _ ha => ha,fun _ _ _ => trivial⟩
    refine ⟨(pages_aligned htree ha).1,fun hne hfree => ?_⟩
    exact L.tables a (hmem ▸ ha) hne (hledger.free hfree)
  obtain ⟨-,-,-,-,-,hrun⟩ := map_asserts h
  have hlaw : ∀ alloc', some alloc = some alloc' →
      Lawful alloc' (Held (fun a => Y a ∨ a = va) t) := fun alloc' hsame =>
    Option.some.inj hsame ▸ held_lawful A fun a ha =>
      ⟨(huser a ha).1,(huser a ha).ne_null,hused a ha⟩
  have hidx : index123 va ≠ -1 := index123_ne va (by rw [vpage]; omega)
  rcases map_present hlaw (by decide) (by decide) 1 G (by decide) (by omega) halign (by omega)
    (fun _ hne => absurd rfl hne) (Or.inr (Or.inl hidx)) hrun with ⟨-,⟨X,G'⟩,M⟩ | ⟨hfail,-⟩
  swap
  · rw [hfail] at hret
    exact absurd (by decide) hret
  have H := G'.avail alloc rfl
  have hkept : ∀ a, Y a → Agree s.mem s'.mem a PAGESIZE := fun a ha => hmem ▸ H.kept a (Or.inl ha)
  refine ⟨⟨G'.tree,fun a ha hne => ?_,(L.ledger.trans hledger).trans H.ledger,?_,huser,
    fun a ha => ?_,fun a ha hp => ?_,fun a ha k hk => ?_⟩,hkept⟩
  · exact (H.tables a (G'.inside a ha)).2 hne
  · rw [H.processes, ← ht, setPageinfo_processes, L.processes]
  · rw [H.ledger.settled (hused a ha)]
    exact hY a ha
  · exact H.apart a ha (G'.inside a hp)
  · rcases ha with ha | rfl
    · have hau := L.user a ha
      have hold := L.mapped a ha k hk
      rw [← hmem] at hold
      rw [← hold]
      refine M.frame fun j hj hpath => ?_
      have hj0 : j = 0 := by omega
      rw [hj0, Nat.zero_mul, add_zero, indices_eq_iff, vpage, vpage] at hpath
      have := hpages a ha
      have := hau.1
      have := hau.2.2
      simp only [MEMSIZE_PHYSICAL] at this
      omega
    · exact M.lookup halign halign (by omega) (by decide) (by decide) (by omega)

end Pages

end WeensyOS.LoadedPages
