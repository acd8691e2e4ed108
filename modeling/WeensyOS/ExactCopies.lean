import WeensyOS.TableGrowth
import WeensyOS.BootRun

/-!
# Copies of page tables of any shape

`copy_pagetable` for a source of any shape and any state of `pageinfo`: below
`PROC_START_ADDR` the copy reads like the source, above it is empty, and its
tables are pages that were free. The pages of the source must not be free.
-/

set_option autoImplicit false

namespace WeensyOS.ExactCopies
open WeensyOS.FlatMemory WeensyOS.KernelState WeensyOS.PageTables WeensyOS.PageAllocator
open WeensyOS.RadixForest WeensyOS.TableWords WeensyOS.FreePages WeensyOS.PagingInvariant
open WeensyOS.TableWalks WeensyOS.TableCopies WeensyOS.PrivateRuns WeensyOS.TreeTables
open WeensyOS.RangeWalks WeensyOS.RangeMaps WeensyOS.TableGrowth WeensyOS.Boot
open WeensyOS.BootResult WeensyOS.BootRun WeensyOS.KernelTables WeensyOS.ProgramLoading

variable {m m' : Memory} {r r' f : ℕ} {o : ℤ} {s s₀ s' : KState} {q : List Index}

section Lookups

/-- Addresses of one page are mapped alike. -/
theorem lookup_page (m : Memory) (r va : ℕ) :
    (∀ x, vpage x = vpage va → virtual_memory_lookup m r x = .unmapped) ∨
    ∃ e p, p % 2 = 1 ∧ p < 8 ∧ ∀ x, vpage x = vpage va →
      virtual_memory_lookup m r x = ⟨PAGENUMBER e,PTE_ADDR e+x % 4096,p⟩ := by
  have hpath : ∀ x, vpage x = vpage va → ∀ l < 4, index x l = index va l := by
    intro x hx l hl
    have h := (indices_eq_iff x va).2 hx
    simp only [indices, List.map_cons, List.map_nil, List.cons.injEq, and_true] at h
    obtain ⟨h0,h1,h2,h3⟩ := h
    have hcases : l = 0 ∨ l = 1 ∨ l = 2 ∨ l = 3 := by omega
    rcases hcases with rfl | rfl | rfl | rfl
    · exact h0
    · exact h1
    · exact h2
    · exact h3
  have hview : ∀ x, vpage x = vpage va → virtual_memory_lookup m r x =
      if word m r [index va 0] &&& PTE_P ≠ 0 ∧ word m r [index va 0,index va 1] &&& PTE_P ≠ 0 ∧
        word m r [index va 0,index va 1,index va 2] &&& PTE_P ≠ 0 ∧
        word m r (indices va) &&& PTE_P ≠ 0 then
        ⟨PAGENUMBER (word m r (indices va)),PTE_ADDR (word m r (indices va))+x % 4096,
          7 &&& PTE_FLAGS (word m r [index va 0]) &&&
          PTE_FLAGS (word m r [index va 0,index va 1]) &&&
          PTE_FLAGS (word m r [index va 0,index va 1,index va 2]) &&&
          PTE_FLAGS (word m r (indices va))⟩
      else .unmapped := by
    intro x hx
    have h := hpath x hx
    rw [lookup_view, view, h 0 (by decide), h 1 (by decide), h 2 (by decide), h 3 (by decide),
      pageoffset_eq]
    rfl
  by_cases hp : word m r [index va 0] &&& PTE_P ≠ 0 ∧
      word m r [index va 0,index va 1] &&& PTE_P ≠ 0 ∧
      word m r [index va 0,index va 1,index va 2] &&& PTE_P ≠ 0 ∧
      word m r (indices va) &&& PTE_P ≠ 0
  · have h7 : 7 &&& PTE_P ≠ 0 := by decide
    have q0 := (flags_present 7 _ h7).2 hp.1
    have q1 := (flags_present _ _ q0).2 hp.2.1
    have q2 := (flags_present _ _ q1).2 hp.2.2.1
    have q3 := (flags_present _ _ q2).2 hp.2.2.2
    refine Or.inr ⟨word m r (indices va),_,(present_iff _).1 q3,?_,fun x hx => ?_⟩
    · refine lt_of_le_of_lt ?_ (by decide : 7 < 8)
      exact Nat.and_le_left.trans (Nat.and_le_left.trans (Nat.and_le_left.trans Nat.and_le_left))
    · rw [hview x hx, if_pos hp]
  · refine Or.inl fun x hx => ?_
    rw [hview x hx, if_neg hp]

/-- The entry that `virtual_memory_map` writes to repeat a mapping. -/
def entryOf (v : vamapping) : ℕ := v.pa+v.perm

theorem mapped_frame {va : ℕ} (hva : va % 4096 = 0)
    (hperm : (virtual_memory_lookup m r va).perm ≠ 0)
    (hphys : (virtual_memory_lookup m r va).pa < MEMSIZE_PHYSICAL) :
    Frame (virtual_memory_lookup m r va).pa ∧ (virtual_memory_lookup m r va).perm % 2 = 1 ∧
      (virtual_memory_lookup m r va).perm < 4096 := by
  rcases lookup_page m r va with h | ⟨e,p,hodd,hlt,h⟩
  · rw [h va rfl] at hperm
    exact absurd rfl hperm
  · rw [h va rfl] at hphys ⊢
    simp only [MEMSIZE_PHYSICAL] at hphys
    have haddr : PTE_ADDR e % 4096 = 0 := by rw [pte_addr_eq]; omega
    exact ⟨⟨by simp only; omega,hphys⟩,hodd,by simp only; omega⟩

end Lookups

section Root

/-- A table without entries leads nowhere. -/
theorem blank_word (h : ∀ j, slot m r j = 0) (hq : q ≠ []) : word m r q = 0 := by
  induction q using List.reverseRecOn with
  | nil => exact absurd rfl hq
  | append_singleton p i ih =>
    rcases List.eq_nil_or_concat p with rfl | ⟨p',j,rfl⟩
    · exact h i
    · rw [List.concat_eq_append] at ih ⊢
      have hnone : node m r (p'++[j]) = none := by
        rw [node_snoc, ih (by simp)]
        exact scheme.child_empty
      exact word_missing hnone i

theorem blank_node (h : ∀ j, slot m r j = 0) (hq : q ≠ []) : node m r q = none := by
  obtain ⟨p,i,rfl⟩ := (List.eq_nil_or_concat q).resolve_left hq
  rw [List.concat_eq_append, node_snoc, blank_word h (by simp)]
  exact scheme.child_empty

theorem blank_pages (h : ∀ j, slot m r j = 0) {a : ℕ} : Pages m r a ↔ a = r := by
  rw [pages_iff]
  constructor
  · rintro ⟨q,-,hn⟩
    by_cases hq : q = []
    · subst hq
      exact (Option.some.inj hn).symm
    · rw [blank_node h hq] at hn
      cases hn
  · rintro rfl
    exact ⟨[],Nat.zero_le 3,rfl⟩

/-- The tree starts as an empty root in a free page. -/
theorem root_grown (hzero : 0 ∉ freePages s) (hf : f ∈ freePages s) :
    Grown o (f*4096) s (takePage s f o (LibC.memset s.mem (f*4096) 0 4096) o) := by
  have hlt := ((mem_freePages s f).1 hf).1
  have halign : f*4096 % 4096 = 0 := Nat.mul_mod_left f 4096
  have hdiv : f*4096 / 4096 = f := Nat.mul_div_cancel f (by decide)
  have hblank : ∀ j, slot (LibC.memset s.mem (f*4096) 0 4096) (f*4096) j = 0 := fun j =>
    entry_memset _ _ _ j.isLt
  refine ⟨⟨fun p c hp hc => ?_,fun p p' c hp hp' hc hc' => ?_⟩,fun q hq hlen => ?_,hzero,
    fun a ha => ?_,fun pn => ?_,rfl⟩
  · have hin := (blank_pages hblank).1 (pages_iff.2 ⟨p,hp,hc⟩)
    rw [hin]
    exact ⟨halign,by omega⟩
  · have hroot : ∀ {p}, node (LibC.memset s.mem (f*4096) 0 4096) (f*4096) p = some c → p = [] := by
      intro p h
      by_contra hne
      rw [blank_node hblank hne] at h
      cases h
    rw [hroot hc, hroot hc']
  · exact Or.inl (blank_word hblank hq)
  · rw [(blank_pages hblank).1 ha, hdiv, takePage_pageinfo, Function.update_self]
    exact ⟨hf,rfl⟩
  · by_cases hpn : pn = f
    · exact Or.inl ((blank_pages hblank).2 (by rw [hpn]))
    · rw [takePage_pageinfo, Function.update_of_ne hpn]
      refine Or.inr ⟨rfl,memset_agree s.mem _ _ 0 halign (Nat.mul_mod_left pn 4096) ?_⟩
      omega

end Root

section Loop

/-- The tables below a root are pages in use. -/
def InUse (r : ℕ) (s : KState) : Prop := ∀ a, Pages s.mem r a → a / PAGESIZE ∉ freePages s

theorem grown_kept (G : Grown o r s₀ s) (T : TreeShaped s₀.mem r') (hused : InUse r' s₀) {a : ℕ}
    (ha : Pages s₀.mem r' a) : Agree s₀.mem s.mem a PAGESIZE :=
  G.kept (pages_aligned T.tree ha).1 (hused a ha)

theorem grown_lookup (G : Grown o r s₀ s) (T : TreeShaped s₀.mem r') (hused : InUse r' s₀)
    (va : ℕ) :
    virtual_memory_lookup s.mem r' va = virtual_memory_lookup s₀.mem r' va := by
  have hslots : ∀ n j, Pages s₀.mem r' n → slot s.mem n j = slot s₀.mem n j :=
    pages_slots fun a ha => grown_kept G T hused ha
  rw [lookup_view, lookup_view]
  refine view_congr fun q _ hpre => ?_
  exact words_congr hslots (prefix_length hpre (indices_length va))

/-- The pages that the loop finds mapped. -/
def mappedPages (m : Memory) (r : ℕ) (l : List ℕ) : List ℕ :=
  l.filter fun va => (virtual_memory_lookup m r va).perm ≠ 0

theorem copy_run (T : TreeShaped s₀.mem r') (hused : InUse r' s₀) (l : List ℕ) (hl : LowPages l)
    (hphys : ∀ va ∈ mappedPages s₀.mem r' l,
      (virtual_memory_lookup s₀.mem r' va).pa < MEMSIZE_PHYSICAL)
    {s : KState} (G : Grown o r s₀ s)
    (hfree : mappedPages s₀.mem r' l ≠ [] → node s.mem r (tableIndices 0) = none →
      3 ≤ freeCount s) :
    ∃ s', copy_pagetable_loop r' r l s = .ok s' ∧ Grown o r s₀ s' ∧
      ∀ x, word s'.mem r (indices x) = if vpage x ∈ (mappedPages s₀.mem r' l).map vpage
        then entryOf (virtual_memory_lookup s₀.mem r' (vpage x*4096))
        else word s.mem r (indices x) := by
  induction l generalizing s with
  | nil => exact ⟨s,rfl,G,fun x => by simp [mappedPages]⟩
  | cons va l ih =>
    obtain ⟨hva,hlt⟩ := hl va (by simp)
    simp only [PROC_START_ADDR] at hlt
    have hlow := hl.vpage (List.mem_cons_self : va ∈ va::l)
    have hback : vpage va*4096 = va := by
      rw [vpage_small va (by omega)]
      omega
    have hlook := grown_lookup G T hused va
    have hl' : LowPages l := fun x hx => hl x (by simp [hx])
    by_cases hperm : (virtual_memory_lookup s₀.mem r' va).perm ≠ 0
    · have hcons : mappedPages s₀.mem r' (va::l) = va::mappedPages s₀.mem r' l :=
        List.filter_cons_of_pos (by simpa using hperm)
      rw [hcons] at hphys hfree ⊢
      obtain ⟨hframe,hodd,hsmall⟩ := mapped_frame hva hperm (hphys va (by simp))
      have hpath : tableIndices va = tableIndices 0 := by
        have hzero : vpage 0 = 0 := rfl
        rw [tableIndices_eq_iff]
        omega
      obtain ⟨s₁,hmap,G₁,hnode,hleaf⟩ := G.map hva (by omega) hframe ⟨hodd,hsmall⟩ fun h =>
        hfree (List.cons_ne_nil _ _) (hpath ▸ h)
      obtain ⟨s',hrun,G',hleaf'⟩ := ih hl' (fun x hx => hphys x (by simp [hx])) G₁
        fun _ h => absurd (hpath ▸ h) hnode
      refine ⟨s',?_,G',fun x => ?_⟩
      · simp only [copy_pagetable_loop, hlook, if_pos hperm, hmap, bind, Except.bind, hrun, ne_eq,
          not_true_eq_false, if_false]
      · rw [hleaf' x, hleaf x, List.map_cons]
        by_cases hx : vpage x = vpage va
        · rw [if_pos (List.mem_cons.2 (Or.inl hx)), if_pos hx, hx, hback, entryOf, ite_self]
        · rw [if_neg hx]
          simp only [List.mem_cons, hx, false_or]
    · have hcons : mappedPages s₀.mem r' (va::l) = mappedPages s₀.mem r' l :=
        List.filter_cons_of_neg (by simpa using hperm)
      rw [hcons] at hphys hfree ⊢
      obtain ⟨s',hrun,G',hleaf⟩ := ih hl' hphys G hfree
      refine ⟨s',?_,G',hleaf⟩
      simp only [copy_pagetable_loop, hlook, if_neg hperm, hrun]

end Loop

section Copies

/-- The pages that a copy takes: a root, and three tables if anything is mapped. -/
def pagesNeeded (m : Memory) (r : ℕ) : ℕ :=
  if ∃ va < PROC_START_ADDR, (virtual_memory_lookup m r va).perm ≠ 0 then 4 else 1

/-- The tree at `root` in `s'` is a copy for `o` of the tree at `r` in `s`. -/
structure ExactCopy (r : ℕ) (o : ℤ) (root : ℕ) (s s' : KState) : Prop where
  not_null : root ≠ NULL
  below : ∀ va < PROC_START_ADDR,
    virtual_memory_lookup s'.mem root va = virtual_memory_lookup s.mem r va
  above : ∀ va, PROC_START_ADDR / PAGESIZE ≤ vpage va →
    virtual_memory_lookup s'.mem root va = .unmapped
  source : ∀ a, Pages s.mem r a → Agree s.mem s'.mem a PAGESIZE
  trees : ∀ x, TreeShaped s.mem x → InUse x s →
    (∀ a, Pages s.mem x a → Agree s.mem s'.mem a PAGESIZE) ∧ ∀ va,
      virtual_memory_lookup s'.mem x va = virtual_memory_lookup s.mem x va
  pages : ∀ pn, (s'.pageinfo pn = s.pageinfo pn ∧ Agree s.mem s'.mem (pn*PAGESIZE) PAGESIZE) ∨
    (pn ∈ freePages s ∧ s'.pageinfo pn = ⟨o,1⟩ ∧ Pages s'.mem root (pn*PAGESIZE))
  tables : ∀ a, Pages s'.mem root a → a / PAGESIZE ∈ freePages s ∧
    s'.pageinfo (a / PAGESIZE) = ⟨o,1⟩ ∧ ¬Pages s'.mem r a
  tree : TreeShaped s'.mem root
  rest : s' = { s with mem := s'.mem, pageinfo := s'.pageinfo, pagetable_owner := o }

/-- What the words of a grown tree say. -/
theorem grown_view (G : Grown o r s₀ s) {va pa perm : ℕ} (hpa : Frame pa) (hodd : perm % 2 = 1)
    (hlt : perm < 8) (hw : word s.mem r (indices va) = pa+perm) :
    virtual_memory_lookup s.mem r va = ⟨(pa / 4096 : ℕ),pa+va % 4096,perm⟩ := by
  have hp : perm &&& PTE_P ≠ 0 := (present_iff perm).2 hodd
  have hmask : perm &&& 7 = perm := by
    have h := Nat.and_two_pow_sub_one_eq_mod perm 3
    simp only [Nat.reducePow, Nat.reduceSub] at h
    omega
  have hgrants : ∀ q, q ≠ [] → q <+: tableIndices va → Grants perm (word s.mem r q) := by
    intro q hq hpre
    have hlen := prefix_length hpre (tableIndices_length va)
    have hne : word s.mem r q ≠ 0 := by
      intro hzero
      have hmiss := word_below hq hpre (by rw [hzero]; rfl)
      omega
    have h7 := (G.links q hq hlen).resolve_left hne
    exact ⟨link_present h7,fun _ => (writable_iff _).2 (by omega),
      fun _ => (user_iff _).2 (by omega)⟩
  rw [lookup_view, view_mapped hgrants hpa.1 hpa.2 hp (by omega) hw, hmask]

theorem lookup_zero {va : ℕ} (hw : word m r (indices va) = 0) :
    virtual_memory_lookup m r va = .unmapped := by
  rw [lookup_view]
  exact view_unmapped ⟨indices _,by simp [indices],List.prefix_rfl,by rw [hw]; rfl⟩

/-- Below `PROC_START_ADDR` the words of the copy repeat the mappings of the source. -/
theorem grown_below (G : Grown o r s₀ s) {va : ℕ} (hva : va < PROC_START_ADDR)
    (hphys : ∀ va < PROC_START_ADDR, (virtual_memory_lookup m r' va).perm ≠ 0 →
      (virtual_memory_lookup m r' va).pa < MEMSIZE_PHYSICAL)
    (hw : word s.mem r (indices va) =
      if (virtual_memory_lookup m r' (vpage va*4096)).perm ≠ 0
      then entryOf (virtual_memory_lookup m r' (vpage va*4096)) else 0) :
    virtual_memory_lookup s.mem r va = virtual_memory_lookup m r' va := by
  simp only [PROC_START_ADDR] at hva
  have hpage : vpage va = va / 4096 := vpage_small va (by omega)
  have hbase : vpage (vpage va*4096) = vpage va := vpage_page _ (by omega)
  have hstart : vpage va*4096 < PROC_START_ADDR := by
    simp only [PROC_START_ADDR]
    omega
  rcases lookup_page m r' va with h | ⟨e,p,hodd,hlt,h⟩
  · have hno : ¬(vamapping.unmapped.perm ≠ 0) := by decide
    rw [h _ hbase, if_neg hno] at hw
    rw [h va rfl, lookup_zero hw]
  · have hp : p ≠ 0 := by omega
    have halign : vpage va*4096 % 4096 = 0 := Nat.mul_mod_left _ _
    have hpa := hphys _ hstart (by rw [h _ hbase]; exact hp)
    rw [h _ hbase, if_pos hp, entryOf, halign, add_zero] at hw
    rw [h _ hbase, halign, add_zero] at hpa
    simp only [MEMSIZE_PHYSICAL] at hpa
    have haddr := pte_addr_eq e
    have hframe : Frame (PTE_ADDR e) := ⟨by omega,hpa⟩
    have hpn : PAGENUMBER e = (PTE_ADDR e / 4096 : ℕ) := by
      rw [pagenumber_eq e (by omega)]
      congr 1
      omega
    rw [h va rfl, grown_view G hframe hodd hlt hw, hpn]

theorem mem_mappedPages (m : Memory) (r x : ℕ) :
    vpage x ∈ (mappedPages m r (addrs 0 PROC_START_ADDR)).map vpage ↔
      vpage x < 256 ∧ (virtual_memory_lookup m r (vpage x*4096)).perm ≠ 0 := by
  have hback : ∀ va ∈ addrs 0 PROC_START_ADDR, vpage va*4096 = va := by
    intro va hva
    obtain ⟨halign,hlt⟩ := low_pages va hva
    simp only [PROC_START_ADDR] at hlt
    rw [vpage_small va (by omega)]
    omega
  constructor
  · intro h
    obtain ⟨va,hva,hpage⟩ := List.mem_map.1 h
    obtain ⟨hin,hperm⟩ := List.mem_filter.1 hva
    rw [← hpage, hback va hin]
    exact ⟨low_pages.vpage hin,by simpa using hperm⟩
  · rintro ⟨hlow,hperm⟩
    obtain ⟨va,hin,hpage⟩ := List.mem_map.1 ((mem_low_vpage x).2 hlow)
    rw [← hpage, hback va hin] at hperm
    exact List.mem_map.2 ⟨va,List.mem_filter.2 ⟨hin,by simpa using hperm⟩,hpage⟩

theorem copy_pagetable_exact (T : TreeShaped s.mem r') (hused : InUse r' s)
    (hzero : 0 ∉ freePages s)
    (hphys : ∀ va < PROC_START_ADDR, (virtual_memory_lookup s.mem r' va).perm ≠ 0 →
      (virtual_memory_lookup s.mem r' va).pa < MEMSIZE_PHYSICAL)
    (hfree : pagesNeeded s.mem r' ≤ freeCount s) :
    ∃ root s', copy_pagetable r' o s = .ok (root,s') ∧ ExactCopy r' o root s s' := by
  have hcount : 1 ≤ freeCount s ∧
      ((∃ va < PROC_START_ADDR, (virtual_memory_lookup s.mem r' va).perm ≠ 0) →
        4 ≤ freeCount s) := by
    rw [pagesNeeded] at hfree
    split at hfree
    · exact ⟨by omega,fun _ => hfree⟩
    · rename_i hnone
      exact ⟨hfree,fun h => absurd h hnone⟩
  have hsome : freePages s ≠ ∅ := fun h => by
    have := (freeCount_eq_zero s).2 h
    omega
  obtain ⟨f,hf,hnull,hrun⟩ := copy_pagetable_start r' o hzero hsome
  have hlt := ((mem_freePages s f).1 hf).1
  have G := root_grown (o := o) hzero hf
  have hblank : ∀ j, slot (LibC.memset s.mem (f*4096) 0 4096) (f*4096) j = 0 := fun j =>
    entry_memset _ _ _ j.isLt
  have hmapped : ∀ va ∈ mappedPages s.mem r' (addrs 0 PROC_START_ADDR),
      va < PROC_START_ADDR ∧ (virtual_memory_lookup s.mem r' va).perm ≠ 0 := by
    intro va hva
    obtain ⟨hin,hperm⟩ := List.mem_filter.1 hva
    exact ⟨(low_pages va hin).2,by simpa using hperm⟩
  have hleft := freeCount_setPageinfo s f ⟨o,1⟩ hf (by intro h; cases h)
  have hsame : freeCount (takePage s f o (LibC.memset s.mem (f*4096) 0 4096) o) =
      freeCount (s.setPageinfo f ⟨o,1⟩) := freeCount_congr rfl
  obtain ⟨s',hloop,G',hleaf⟩ := copy_run T hused (addrs 0 PROC_START_ADDR) low_pages
    (fun va hva => hphys va (hmapped va hva).1 (hmapped va hva).2) G fun hne _ => by
      obtain ⟨va,hva⟩ := List.exists_mem_of_ne_nil _ hne
      have := hcount.2 ⟨va,hmapped va hva⟩
      omega
  have hword : ∀ x, word s'.mem (f*4096) (indices x) =
      if vpage x < 256 ∧ (virtual_memory_lookup s.mem r' (vpage x*4096)).perm ≠ 0
      then entryOf (virtual_memory_lookup s.mem r' (vpage x*4096)) else 0 := by
    intro x
    rw [hleaf x, takePage_mem, blank_word hblank (by simp [indices])]
    simp only [mem_mappedPages]
  refine ⟨f*4096,s',?_,⟨hnull,fun va hva => ?_,fun va hva => ?_,fun a ha => ?_,
    fun x Tx hx => ?_,fun pn => ?_,fun a ha => ?_,G'.tree.shaped,G'.rest⟩⟩
  · rw [hrun, hloop]
    rfl
  · have hlow : vpage va < 256 := by
      simp only [PROC_START_ADDR] at hva
      rw [vpage_small va (by omega)]
      omega
    refine grown_below G' hva hphys ?_
    rw [hword va]
    simp only [hlow, true_and]
  · refine lookup_zero ?_
    rw [hword va, if_neg]
    simp only [PROC_START_ADDR, PAGESIZE] at hva
    omega
  · exact grown_kept G' T hused ha
  · exact ⟨fun a ha => grown_kept G' Tx hx ha,grown_lookup G' Tx hx⟩
  · rcases G'.others pn with htable | hsame
    · obtain ⟨hin,hinfo⟩ := G'.tables _ htable
      rw [Nat.mul_div_cancel pn (by decide)] at hin hinfo
      exact Or.inr ⟨hin,hinfo,htable⟩
    · exact Or.inl hsame
  · obtain ⟨hin,hinfo⟩ := G'.tables a ha
    refine ⟨hin,hinfo,fun h => ?_⟩
    have hslots : ∀ n j, Pages s.mem r' n → slot s'.mem n j = slot s.mem n j :=
      pages_slots fun a ha => grown_kept G' T hused ha
    exact hused a ((pages_congr hslots).1 h) hin

end Copies

section Kernel

variable {K : KernelImage} {roots : ℤ → Option ℕ} {label : Labels}

/-- The address spaces of the kernel are trees. -/
theorem paging_tree (P : Paging K roots label s) (hr : roots o = some r) : TreeShaped s.mem r := by
  refine TreeAt.shaped ⟨fun p c hp hc => ?_,fun p p' c hp hp' hc hc' => ?_⟩
  · have hlabel := P.forest.walk_label (P.forest.root o r hr) (by simpa using hp) hc
    exact ⟨P.aligned hlabel,(P.owned _ _ hlabel).1⟩
  · exact (P.forest.walk_injective hr hr hp hp' hc hc').2

theorem paging_used (P : Paging K roots label s) (hr : roots o = some r) : InUse r s := by
  rintro a ⟨d,T⟩
  obtain ⟨p,hp,-⟩ := table_page_label P hr T
  intro hfree
  have hnone := P.label_free hfree
  have haddr : a / PAGESIZE*4096 = a := by
    have := P.aligned hp
    simp only [PAGESIZE]
    omega
  rw [haddr, hp] at hnone
  cases hnone

theorem paging_physical (P : Paging K roots label s) (hr : roots o = some r) {va : ℕ}
    (hva : va < PROC_START_ADDR) (hperm : (virtual_memory_lookup s.mem r va).perm ≠ 0) :
    (virtual_memory_lookup s.mem r va).pa < MEMSIZE_PHYSICAL := by
  have hlow : vpage va < 256 := by
    simp only [PROC_START_ADDR] at hva
    rw [vpage_small va (by omega)]
    omega
  rw [virtual_memory_lookup_eq P.forest (P.forest.root o r hr)] at hperm ⊢
  by_cases he : leafWord s.mem r va = 0
  · rw [he] at hperm
    exact absurd rfl hperm
  · obtain ⟨a,perm,hw,⟨halign,hlt⟩,hperm'⟩ := Leaf.split (low_leaf P hr hlow) he
    rw [hw, leafMapping_frame ⟨halign,hlt⟩ hperm']
    simp only [MEMSIZE_PHYSICAL]
    omega

theorem pagesNeeded_le (m : Memory) (r : ℕ) : pagesNeeded m r ≤ 4 := by
  rw [pagesNeeded]
  split
  · exact le_rfl
  · decide

/-- The kernel's page table is copied for a first process. -/
theorem kernel_pagetable_copied : ∃ s root s', kernel_init sampleKernel powerOn = .ok s ∧
    copy_pagetable sampleKernel.kernel_pagetable 1 s = .ok (root,s') ∧
    ExactCopy sampleKernel.kernel_pagetable 1 root s s' := by
  obtain ⟨m,hinit,B,-,hpages⟩ := initial_booting sampleKernel powerOn
  have P := B.paging
  have hfree : 4 ≤ freeCount (initial sampleKernel powerOn m) := by
    have hlow := initial_low hpages
    have hle := lowFree_le (initial sampleKernel powerOn m)
    omega
  obtain ⟨root,s',hcopy,C⟩ := copy_pagetable_exact (o := 1) (paging_tree P P.kernel_root)
    (paging_used P P.kernel_root) P.zero_used
    (fun va hva => paging_physical P P.kernel_root hva) ((pagesNeeded_le _ _).trans hfree)
  exact ⟨_,root,s',hinit,hcopy,C⟩

end Kernel

section Unmarked

/-- Copying without a word on which pages are free. -/
def CopiesAnyway (r : ℕ) (o : ℤ) (s : KState) : Prop :=
  TreeShaped s.mem r → (∀ va < PROC_START_ADDR, (virtual_memory_lookup s.mem r va).perm ≠ 0 →
    (virtual_memory_lookup s.mem r va).pa < MEMSIZE_PHYSICAL) →
  pagesNeeded s.mem r ≤ freeCount s →
  ∃ root s', copy_pagetable r o s = .ok (root,s') ∧ ExactCopy r o root s s'

/-- Only the page `f` is free, and memory holds zeros. -/
def onlyFree (f : ℕ) : KState :=
  { powerOn with pageinfo := fun pn => if pn = f then freeInfo else ⟨PO_RESERVED,1⟩ }

theorem onlyFree_pages (hf : f < 512) : freePages (onlyFree f) = {f} := by
  ext pn
  rw [mem_freePages, Finset.mem_singleton]
  constructor
  · rintro ⟨-,hfree⟩
    by_contra hne
    have hinfo : (onlyFree f).pageinfo pn = ⟨PO_RESERVED,1⟩ := if_neg hne
    rw [hinfo] at hfree
    cases hfree
  · rintro rfl
    exact ⟨hf,if_pos rfl⟩

theorem blank_lookup (h : ∀ j, slot m r j = 0) (va : ℕ) :
    virtual_memory_lookup m r va = .unmapped := lookup_zero (blank_word h (by simp [indices]))

/-- What would follow for an empty table at page 1. -/
theorem copied_anyway (hf : f < 512) (h : CopiesAnyway 0x1000 1 (onlyFree f)) :
    ∃ root s', copy_pagetable 0x1000 1 (onlyFree f) = .ok (root,s') ∧
      ExactCopy 0x1000 1 root (onlyFree f) s' := by
  have hnone : ∀ va, (virtual_memory_lookup (onlyFree f).mem 0x1000 va).perm = 0 := fun va => by
    rw [blank_lookup (m := (onlyFree f).mem) (fun j => blank_entry _ _) va]
    rfl
  refine h (blank_tree rfl (by decide)) (fun va _ hperm => absurd (hnone va) hperm) ?_
  rw [freeCount, onlyFree_pages hf, Finset.card_singleton, pagesNeeded, if_neg]
  rintro ⟨va,-,hperm⟩
  exact hperm (hnone va)

/-- The allocator's `NULL` is the address of page 0, and a table that is not marked as used
is taken for its own copy. -/
theorem unmarked_pages_taken :
    ¬CopiesAnyway 0x1000 1 (onlyFree 0) ∧ ¬CopiesAnyway 0x1000 1 (onlyFree 1) := by
  constructor
  · intro h
    obtain ⟨root,s',hrun,C⟩ := copied_anyway (by decide) h
    have hsame : freePages { onlyFree 0 with pagetable_owner := 1 } = {0} :=
      (freePages_congr rfl).trans (onlyFree_pages (by decide))
    obtain ⟨f,hf,-,haddr⟩ := get_free_addr_some 1 { onlyFree 0 with pagetable_owner := 1 }
      (by rw [hsame]; exact Finset.singleton_ne_empty 0)
    rw [hsame, Finset.mem_singleton] at hf
    subst hf
    simp only [copy_pagetable, pagetable_alloc, haddr, Nat.zero_mul, if_true, Except.ok.injEq,
      Prod.mk.injEq] at hrun
    exact C.not_null hrun.1.symm
  · intro h
    obtain ⟨root,s',hrun,C⟩ := copied_anyway (by decide) h
    obtain ⟨f,hf,-,hstart⟩ := copy_pagetable_start 0x1000 1
      (s := onlyFree 1) (by rw [onlyFree_pages (by decide)]; decide)
      (by rw [onlyFree_pages (by decide)]; exact Finset.singleton_ne_empty 1)
    rw [onlyFree_pages (by decide), Finset.mem_singleton] at hf
    subst hf
    rw [hrun] at hstart
    cases hloop : copy_pagetable_loop 0x1000 (1*4096) (addrs 0 PROC_START_ADDR)
        (takePage (onlyFree 1) 1 1 (LibC.memset (onlyFree 1).mem (1*4096) 0 4096) 1) with
    | error e =>
      rw [hloop] at hstart
      cases hstart
    | ok s₁ =>
      rw [hloop] at hstart
      simp only [Except.bind, Except.ok.injEq, Prod.mk.injEq] at hstart
      have hroot : root = 0x1000 := hstart.1
      subst hroot
      have hin : Pages s'.mem 0x1000 0x1000 := ⟨0,.root⟩
      exact (C.tables _ hin).2.2 hin

end Unmarked

end WeensyOS.ExactCopies
