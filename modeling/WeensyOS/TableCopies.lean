import WeensyOS.PageMaps

/-!
# Copying page tables

`copy_pagetable` takes exactly four pages: a root and the three tables that
cover the addresses below `PROC_START_ADDR`. With fewer free pages it returns
`NULL` or panics, depending on whether the root could still be taken.
-/

set_option autoImplicit false

namespace WeensyOS.TableCopies
open WeensyOS.FlatMemory WeensyOS.KernelState WeensyOS.PageTables WeensyOS.PageAllocator
open WeensyOS.RadixForest WeensyOS.TableWords WeensyOS.FreePages WeensyOS.PagingInvariant
open WeensyOS.TableWalks WeensyOS.PageMaps

variable {K : KernelImage} {roots : ℤ → Option ℕ} {o o' : ℤ} {label label' : Labels}
  {c : ℕ} {s s' : KState} {r r' : ℕ}

theorem vpage_small (va : ℕ) (h : va < 2^48) : vpage va = va / 4096 := by
  rw [vpage, Nat.mod_eq_of_lt h]

theorem vpage_page (k : ℕ) (h : k < 2^36) : vpage (k*4096) = k := by
  rw [vpage_small _ (by omega)]
  omega

/-- A leaf that is not empty is a frame with one of two permission words. -/
theorem Leaf.split {va e : ℕ} (h : Leaf label s va e) (he : e ≠ 0) :
    ∃ a perm, e = a+perm ∧ Frame a ∧ (perm = 3 ∨ perm = 7) := by
  cases h with
  | empty => exact absurd rfl he
  | kernel a hf hlow => exact ⟨a,3,rfl,hf,Or.inl rfl⟩
  | console hlow => exact ⟨console,7,rfl,⟨by decide,by decide⟩,Or.inr rfl⟩
  | user a hf hu => exact ⟨a,7,rfl,hf,Or.inr rfl⟩

theorem leafMapping_frame {a perm : ℕ} (ha : Frame a) (hperm : perm = 3 ∨ perm = 7) (va : ℕ) :
    leafMapping (a+perm) va = ⟨(a / 4096 : ℕ),a+va % 4096,perm⟩ := by
  obtain ⟨halign,hlt⟩ := ha
  have hp : (a+perm) &&& PTE_P ≠ 0 := (present_iff _).2 (by omega)
  have haddr : PTE_ADDR (a+perm) = a := by rw [pte_addr_eq]; omega
  have hpn : (a+perm) / 4096 = a / 4096 := by omega
  have hflags : (a+perm) % 8 = perm := by omega
  simp only [leafMapping, if_pos hp, haddr, hflags, pageoffset_eq,
    pagenumber_eq (a+perm) (by omega), hpn]

theorem leafMapping_zero (va : ℕ) : leafMapping 0 va = .unmapped := rfl

/-- Low leaves are proper leaves in every address space, the kernel's included. -/
theorem low_leaf (P : Paging K roots label s) (hr : roots o = some r) {va : ℕ}
    (hlow : vpage va < 256) : Leaf label s va (leafWord s.mem r va) := by
  by_cases hk : o = PO_KERNEL
  · subst hk
    rw [P.kernel_root, Option.some.injEq] at hr
    rw [← hr, P.kernel_leaf, kernelWord, if_pos hlow]
    split
    · exact .console hlow
    · exact .kernel _ ⟨Nat.mul_mod_left _ _,by omega⟩ hlow
  · exact P.leaves o r va hr hk

theorem Paging.congr (P : Paging K roots label s) (hmem : s'.mem = s.mem)
    (hinfo : s'.pageinfo = s.pageinfo) : Paging K roots label s' where
  forest := hmem ▸ P.forest
  owned n q h := by rw [hinfo]; exact P.owned n q h
  owners := P.owners
  kernel_root := P.kernel_root
  kernel_leaf va := by rw [hmem]; exact P.kernel_leaf va
  leaves o r va hr hk := by
    rw [hmem]
    exact (P.leaves o r va hr hk).imp fun a hu => ⟨hu.1,by rw [hinfo]; exact hu.2⟩
  marked pn hpn h := by rw [hinfo]; exact P.marked pn hpn h
  pages pn hpn h := by rw [hinfo]; exact P.pages pn hpn h

section Plant

variable {f : ℕ}

theorem plant_grows (o po : ℤ) (P : Paging K roots label s) (hf : f ∈ freePages s) :
    Grows o label (Function.update label (f*4096) (some ⟨o,[]⟩)) 1 s
      (takePage s f o (LibC.memset s.mem (f*4096) 0 4096) po) := by
  have halign : f*4096 % 4096 = 0 := Nat.mul_mod_left f 4096
  have hnone := P.label_free hf
  refine Grows.alloc hf hnone (fun n hn => Function.update_of_ne hn ..) ?_ ?_ ?_
  · intro x hx
    simp only [Function.update_self, Option.some.injEq] at hx
    rw [← hx]
  · intro pn hpn _
    exact memset_agree _ _ _ _ halign (Nat.mul_mod_left pn 4096) (by omega)
  · intro n q i hn _ _
    have hne : n ≠ f*4096 := by
      rintro rfl
      rw [hnone] at hn
      cases hn
    exact entry_congr _ _ _ i.isLt (memset_agree _ _ _ _ halign (P.aligned hn) hne)

theorem leaf_blank {m : Memory} {n : ℕ} (h : ∀ j, slot m n j = 0) (va : ℕ) :
    leafWord m n va = 0 := by
  have hchild : scheme.child 0 = none := scheme.child_empty
  simp [leafWord, indices, leaf, h, hchild]

/-- A process without a page table gets an empty root. -/
theorem plant_paging (po : ℤ) (P : Paging K roots label s) (ho : ProcOwner o)
    (hro : roots o = none) (hf : f ∈ freePages s) :
    Paging K (Function.update roots o (some (f*4096)))
      (Function.update label (f*4096) (some ⟨o,[]⟩))
      (takePage s f o (LibC.memset s.mem (f*4096) 0 4096) po) := by
  have halign : f*4096 % 4096 = 0 := Nat.mul_mod_left f 4096
  have hnone := P.label_free hf
  have G := plant_grows o po P hf
  have hblank : ∀ j, slot (LibC.memset s.mem (f*4096) 0 4096) (f*4096) j = 0 := fun j =>
    entry_memset _ _ _ j.isLt
  have hslots : ∀ n q j, label n = some q →
      slot (LibC.memset s.mem (f*4096) 0 4096) n j = slot s.mem n j := by
    intro n q j hn
    have hne : n ≠ f*4096 := by
      rintro rfl
      rw [hnone] at hn
      cases hn
    exact entry_congr _ _ _ j.isLt (memset_agree _ _ _ _ halign (P.aligned hn) hne)
  have hne : ∀ o' x, roots o' = some x → o' ≠ o := by
    rintro o' x h rfl
    rw [hro] at h
    cases h
  have hkernel := hne _ _ P.kernel_root
  have hdisjoint := P.forest.plant hro hnone halign hblank hslots
  refine ⟨hdisjoint,?_,?_,?_,?_,?_,P.marked_grow G,P.pages_grow G ho⟩
  · intro n q h
    exact P.owned_grow G h
  · intro n q h
    rcases G.fresh n q h with hl | ⟨-,hq,-⟩
    · exact P.owners n q hl
    · exact Or.inr (hq ▸ ho)
  · rw [Function.update_of_ne hkernel]
    exact P.kernel_root
  · intro va
    rw [P.leaf_kept G P.kernel_root hkernel]
    exact P.kernel_leaf va
  · intro o' x va hx hk
    by_cases hoo : o' = o
    · subst hoo
      rw [Function.update_self, Option.some.injEq] at hx
      subst hx
      rw [takePage_mem, leaf_blank hblank]
      exact .empty
    · rw [Function.update_of_ne hoo] at hx
      rw [P.leaf_kept G hx hoo]
      exact (P.leaves o' x va hx hk).mono G

end Plant

/-- The low leaves that a page table offers for copying. -/
structure LowLeaves (label : Labels) (s : KState) (r : ℕ) : Prop where
  leaf : ∀ va, vpage va < 256 → Leaf label s va (leafWord s.mem r va)
  present : ∀ va, vpage va < 256 → leafWord s.mem r va ≠ 0

/-- Pages of the copying loop: aligned addresses below `PROC_START_ADDR`. -/
def LowPages (l : List ℕ) : Prop := ∀ va ∈ l, va % 4096 = 0 ∧ va < PROC_START_ADDR

theorem LowPages.vpage {l : List ℕ} (h : LowPages l) {va : ℕ} (hva : va ∈ l) :
    vpage va < 256 := by
  obtain ⟨-,hlt⟩ := h va hva
  simp only [PROC_START_ADDR] at hlt
  rw [vpage_small va (by omega)]
  omega

/-- What the loop reads for a page of the source. -/
theorem copy_source (P : Paging K roots label s) (hr' : roots o' = some r')
    (L : LowLeaves label s r') {va : ℕ} (hlow : vpage va < 256) (hva : va % 4096 = 0) :
    ∃ a perm, leafWord s.mem r' va = a+perm ∧ Frame a ∧ (perm = 3 ∨ perm = 7) ∧
      virtual_memory_lookup s.mem r' va = ⟨(a / 4096 : ℕ),a,perm⟩ := by
  obtain ⟨a,perm,hw,ha,hperm⟩ := Leaf.split (L.leaf va hlow) (L.present va hlow)
  refine ⟨a,perm,hw,ha,hperm,?_⟩
  rw [virtual_memory_lookup_eq P.forest (P.forest.root o' r' hr'), hw,
    leafMapping_frame ha hperm, hva, add_zero]

theorem LowLeaves.mono (P : Paging K roots label s) (hoo : o' ≠ o) (hr' : roots o' = some r')
    (L : LowLeaves label s r') (G : Grows o label label' c s s') : LowLeaves label' s' r' where
  leaf va h := by
    rw [P.leaf_kept G hr' hoo]
    exact (L.leaf va h).mono G
  present va h := by
    rw [P.leaf_kept G hr' hoo]
    exact L.present va h

/-- The copying loop once the low tables of the new address space exist. -/
theorem copy_loop (ho : ProcOwner o) (hoo : o' ≠ o) (l : List ℕ) (hl : LowPages l)
    {s : KState} (P : Paging K roots label s)
    (hr : roots o = some r) (hr' : roots o' = some r') (L : LowLeaves label s r')
    (htables : tablesMissing s.mem r 0 = 0) :
    ∃ s', copy_pagetable_loop r' r l s = .ok s' ∧ Grows o label label 0 s s' ∧
      Paging K roots label s' ∧ s'.pagetable_owner = s.pagetable_owner ∧
      ∀ va, leafWord s'.mem r va =
        if vpage va ∈ l.map vpage then leafWord s.mem r' va else leafWord s.mem r va := by
  induction l generalizing s with
  | nil => exact ⟨s,rfl,Grows.refl o label s,P,rfl,fun va => by simp⟩
  | cons va l ih =>
    obtain ⟨hva,hlt⟩ := hl va (by simp)
    simp only [PROC_START_ADDR] at hlt
    have hhead : va ∈ va::l := by simp
    have hlow := hl.vpage hhead
    obtain ⟨a,perm,hw,ha,hperm,hlook⟩ := copy_source P hr' L hlow hva
    have hzero : vpage va / 512 = vpage 0 / 512 := by
      have : vpage 0 = 0 := rfl
      omega
    obtain ⟨s₁,hmap,M⟩ := map_page_present P ho hr hva (by omega) ha hperm
      (by rw [← hw]; exact L.leaf va hlow) (index123_ne va (by omega))
      ((tablesMissing_congr s.mem r hzero).trans htables) (some pagetable_alloc)
    have htables₁ : tablesMissing s₁.mem r 0 = 0 := by
      obtain ⟨l4,hl4⟩ := (tablesMissing_zero _ _ _).1 htables
      exact (tablesMissing_zero _ _ _).2 ⟨l4,P.walk_kept M.grows hr (by simp) hl4⟩
    obtain ⟨s',hrun,G,P',hpo,hleaf⟩ := ih (fun x hx => hl x (by simp [hx])) M.paging
      (L.mono P hoo hr' M.grows) htables₁
    refine ⟨s',?_,M.grows.trans G,P',hpo.trans M.owner,fun x => ?_⟩
    · have hperm0 : perm ≠ 0 := by omega
      simp only [copy_pagetable_loop, hlook, if_pos hperm0, hmap, bind, Except.bind, hrun,
        ne_eq, not_true_eq_false, if_false]
    · rw [hleaf x, P.leaf_kept M.grows hr' hoo, M.leaf o r x hr]
      simp only [List.map_cons, List.mem_cons, true_and]
      by_cases hx : vpage x = vpage va
      · simp [hx, leafWord_congr_page hx, hw]
      · simp [hx]

theorem addrs_low : addrs 0 PROC_START_ADDR = 0 :: (List.range 255).map fun k => (k+1)*4096 := by
  have hcount : (PROC_START_ADDR-0+(PAGESIZE-1)) / PAGESIZE = 255+1 := rfl
  rw [addrs, hcount, List.range_succ_eq_map, List.map_cons, List.map_map]
  simp

theorem low_pages : LowPages (addrs 0 PROC_START_ADDR) := by
  intro va hva
  obtain ⟨k,rfl,hlt⟩ := (mem_addrs _ _ _).1 hva
  exact ⟨by omega,hlt⟩

theorem mem_low_vpage (va : ℕ) :
    vpage va ∈ (addrs 0 PROC_START_ADDR).map vpage ↔ vpage va < 256 := by
  constructor
  · intro h
    obtain ⟨x,hx,heq⟩ := List.mem_map.1 h
    rw [← heq]
    exact low_pages.vpage hx
  · intro h
    refine List.mem_map.2 ⟨vpage va*4096,(mem_addrs _ _ _).2 ⟨vpage va,by omega,?_⟩,?_⟩
    · simp only [PROC_START_ADDR]
      omega
    · exact vpage_page _ (by omega)

/-- A root without entries lacks all three tables. -/
theorem tablesMissing_blank {m : Memory} {n : ℕ} (h : ∀ j, slot m n j = 0) (va : ℕ) :
    tablesMissing m n va = 3 := by
  rw [tablesMissing, missing_blank n _ h, tableIndices_length]

theorem copy_pagetable_none (r' : ℕ) (o : ℤ) (hfree : freePages s = ∅) :
    copy_pagetable r' o s = .ok (NULL,{ s with pagetable_owner := o }) := by
  have halloc := pagetable_alloc_none { s with pagetable_owner := o }
    ((freePages_congr rfl).trans hfree)
  simp only [copy_pagetable, halloc, if_true]

/-- The root is taken first. -/
theorem copy_pagetable_start (r' : ℕ) (o : ℤ) (hz : 0 ∉ freePages s) (hfree : freePages s ≠ ∅) :
    ∃ f ∈ freePages s, f*4096 ≠ NULL ∧ copy_pagetable r' o s =
      (copy_pagetable_loop r' (f*4096) (addrs 0 PROC_START_ADDR)
        (takePage s f o (LibC.memset s.mem (f*4096) 0 4096) o)).bind
      fun s' => .ok (f*4096,s') := by
  have hsame : freePages { s with pagetable_owner := o } = freePages s := freePages_congr rfl
  obtain ⟨f,hf,hne,halloc⟩ := pagetable_alloc_some { s with pagetable_owner := o }
    (hsame ▸ hfree) (hsame ▸ hz)
  have hnull : f*4096 ≠ NULL := by
    simp only [NULL]
    omega
  refine ⟨f,hsame ▸ hf,hnull,?_⟩
  simp only [copy_pagetable, halloc, if_neg hnull]
  rfl

section CopyPagetable

variable (P : Paging K roots label s) (ho : ProcOwner o) (hro : roots o = none)
  (hr' : roots o' = some r') (L : LowLeaves label s r')
include P ho hro hr' L

theorem copy_pagetable_ok (hcount : 4 ≤ freeCount s) :
    ∃ f label' s', copy_pagetable r' o s = .ok (f*4096,s') ∧ f*4096 ≠ NULL ∧
      Grows o label label' 4 s s' ∧
      Paging K (Function.update roots o (some (f*4096))) label' s' ∧ s'.pagetable_owner = o ∧
      OnlyTables label' s s' ∧
      ∀ va, leafWord s'.mem (f*4096) va = if vpage va < 256 then leafWord s.mem r' va else 0 := by
  have hfree : freePages s ≠ ∅ := fun h => by
    rw [freeCount, h, Finset.card_empty] at hcount
    omega
  have hoo : o' ≠ o := by rintro rfl; rw [hro] at hr'; cases hr'
  obtain ⟨f,hf,hnull,hrun⟩ := copy_pagetable_start r' o P.zero_used hfree
  have G₀ := plant_grows o o P hf
  have P₀ := plant_paging o P ho hro hf
  have L₀ := L.mono P hoo hr' G₀
  have hr₀ := Function.update_self o (some (f*4096)) roots
  have hr₀' : Function.update roots o (some (f*4096)) o' = some r' := by
    rw [Function.update_of_ne hoo, hr']
  have hblank : ∀ j, slot (LibC.memset s.mem (f*4096) 0 4096) (f*4096) j = 0 := fun j =>
    entry_memset _ _ _ j.isLt
  have hneed := tablesMissing_blank hblank 0
  have hcount₀ := G₀.count
  have hzero : vpage 0 < 256 := by decide
  have halign : 0 % 4096 = 0 := rfl
  obtain ⟨a,perm,hw,ha,hperm,hlook⟩ := copy_source P₀ hr₀' L₀ hzero rfl
  obtain ⟨label₁,s₁,hmap,T₁,M⟩ := map_page_grow P₀ ho rfl hr₀ halign (by decide) ha hperm
    (by rw [← hw]; exact L₀.leaf 0 (by decide)) (index123_ne 0 (by decide))
    (by rw [takePage_mem, hneed]; omega)
  rw [takePage_mem, hneed] at M
  have htables : tablesMissing s₁.mem (f*4096) 0 = 0 := by
    refine tablesMissing_leaf _ _ _ ?_
    rw [M.leaf o _ 0 hr₀, if_pos ⟨rfl,rfl⟩]
    omega
  obtain ⟨s',hloop,G,P',hpo,hleaf⟩ := copy_loop ho hoo ((List.range 255).map fun k => (k+1)*4096)
    (fun va hva => low_pages va (by rw [addrs_low]; exact List.mem_cons_of_mem _ hva))
    M.paging hr₀ hr₀' (L₀.mono P₀ hoo hr₀' M.grows) htables
  have T : OnlyTables label₁ s s' :=
    ((taken_table _ _ _ _ _ _ _).trans M.grows T₁).trans G fun pn => Or.inl (G.pageinfo_zero pn)
  refine ⟨f,label₁,s',?_,hnull,((G₀.trans M.grows).trans G),P',?_,T,fun va => ?_⟩
  · have hperm0 : perm ≠ 0 := by omega
    rw [hrun, addrs_low]
    simp only [copy_pagetable_loop, hlook, if_pos hperm0, hmap, bind, Except.bind, hloop,
      ne_eq, not_true_eq_false, if_false]
  · rw [hpo, M.owner, takePage_owner]
  · have hsource : ∀ x, leafWord s₁.mem r' x = leafWord s.mem r' x := fun x => by
      rw [P₀.leaf_kept M.grows hr₀' hoo, P.leaf_kept G₀ hr' hoo]
    have hlow := mem_low_vpage va
    rw [addrs_low, List.map_cons, List.mem_cons] at hlow
    rw [hleaf va, hsource va, M.leaf o _ va hr₀, takePage_mem, leaf_blank hblank]
    by_cases hx : vpage va ∈ ((List.range 255).map fun k => (k+1)*4096).map vpage
    · rw [if_pos hx, if_pos (hlow.1 (Or.inr hx))]
    · rw [if_neg hx]
      by_cases hzero : vpage va = vpage 0
      · have hfirst : leafWord s.mem r' va = a+perm := by
          rw [leafWord_congr_page hzero, ← hw, takePage_mem]
          exact (P.leaf_kept G₀ hr' hoo 0).symm
        rw [if_pos ⟨rfl,hzero⟩, if_pos (hlow.1 (Or.inl hzero)), hfirst]
      · rw [if_neg fun h => hzero h.2, if_neg fun h => (hlow.2 h).elim hzero hx]

theorem copy_pagetable_panic (hsome : freePages s ≠ ∅) (hcount : freeCount s < 4) :
    copy_pagetable r' o s = .error (.panic "Copy pagetable failed...") := by
  have hoo : o' ≠ o := by rintro rfl; rw [hro] at hr'; cases hr'
  obtain ⟨f,hf,hnull,hrun⟩ := copy_pagetable_start r' o P.zero_used hsome
  have G₀ := plant_grows o o P hf
  have P₀ := plant_paging o P ho hro hf
  have L₀ := L.mono P hoo hr' G₀
  have hr₀ := Function.update_self o (some (f*4096)) roots
  have hr₀' : Function.update roots o (some (f*4096)) o' = some r' := by
    rw [Function.update_of_ne hoo, hr']
  have hneed := tablesMissing_blank (n := f*4096)
    (fun j => entry_memset s.mem (f*4096) j.val j.isLt) 0
  have hcount₀ := G₀.count
  have hzero : vpage 0 < 256 := by decide
  have halign : 0 % 4096 = 0 := rfl
  obtain ⟨a,perm,hw,ha,hperm,hlook⟩ := copy_source P₀ hr₀' L₀ hzero rfl
  obtain ⟨label₁,s₁,hmap,-⟩ := map_page_exhausted P₀ ho rfl hr₀ halign (by decide) ha
    hperm (index123_ne 0 (by decide)) (by rw [takePage_mem, hneed]; omega)
  have hperm0 : perm ≠ 0 := by omega
  rw [hrun, addrs_low]
  simp only [copy_pagetable_loop, hlook, if_pos hperm0, hmap, bind, Except.bind]
  rfl

end CopyPagetable

end WeensyOS.TableCopies
