import WeensyOS.TableCopies

/-!
# The copying loop of fork

One page of the loop takes a free page, copies 4096 bytes into it and maps it
for the child. The whole loop needs a page for each mapped page of the parent,
and one more for the child's second level-4 table when some page needs it. It
either gets them all, or stops when the last free page is gone.
-/

set_option autoImplicit false

namespace WeensyOS.ForkCopies
open WeensyOS.FlatMemory WeensyOS.KernelState WeensyOS.PageTables WeensyOS.PageAllocator
open WeensyOS.Exceptions WeensyOS.RadixForest WeensyOS.TableWords WeensyOS.FreePages
open WeensyOS.Boot WeensyOS.PagingInvariant WeensyOS.TableWalks WeensyOS.PageMaps WeensyOS.TableCopies

variable {K : KernelImage} {roots : ℤ → Option ℕ} {o o' : ℤ} {label label' : Labels}
  {c : ℕ} {s s' : KState} {r r' : ℕ}

section Take

variable {f : ℕ} {m : Memory} {po : ℤ}

/-- The other pages keep their bytes. -/
def OnlyPage (s : KState) (f : ℕ) (m : Memory) : Prop :=
  ∀ p, p % 4096 = 0 → p ≠ f*4096 → Agree s.mem m p 4096

theorem take_slots (P : Paging K roots label s) (hf : f ∈ freePages s) (hm : OnlyPage s f m)
    {n : ℕ} {q : Place ℤ Index} (hn : label n = some q) (i : Index) :
    slot m n i = slot s.mem n i := by
  refine entry_congr _ _ _ i.isLt (hm n (P.aligned hn) ?_)
  rintro rfl
  rw [P.label_free hf] at hn
  cases hn

theorem take_grows (P : Paging K roots label s) (hf : f ∈ freePages s) (hm : OnlyPage s f m) :
    Grows o label label 1 s (takePage s f o m po) := by
  have hnone := P.label_free hf
  refine Grows.alloc hf hnone (fun _ _ => rfl) ?_ ?_ ?_
  · intro q hq
    rw [hnone] at hq
    cases hq
  · intro pn hpn _
    exact hm _ (Nat.mul_mod_left pn 4096) (by omega)
  · intro n q i hn _ _
    exact take_slots P hf hm hn i

theorem take_paging (P : Paging K roots label s) (ho : ProcOwner o) (hf : f ∈ freePages s)
    (hm : OnlyPage s f m) : Paging K roots label (takePage s f o m po) :=
  P.take (take_grows P hf hm) ho fun _ _ i hn => take_slots P hf hm hn i

theorem take_leaf (P : Paging K roots label s) (hf : f ∈ freePages s) (hm : OnlyPage s f m)
    (hr : roots o = some r) (va : ℕ) : leafWord m r va = leafWord s.mem r va :=
  P.forest.leaf_congr (P.forest.root o r hr) (by simp) fun _ _ i hn =>
    take_slots P hf hm hn i

theorem take_user (P : Paging K roots label s) (ho : ProcOwner o) (hf : f ∈ freePages s) :
    UserFrame label (takePage s f o m po) (f*4096) := by
  have hdiv : f*4096 / 4096 = f := by omega
  exact ⟨P.label_free hf,o,ho,by simp [hdiv]⟩

theorem free_frame (hf : f ∈ freePages s) : Frame (f*4096) := by
  have hlt := ((mem_freePages s f).1 hf).1
  exact ⟨Nat.mul_mod_left f 4096,by omega⟩

/-- No user-accessible mapping leads to a page that is still free. -/
theorem leaf_used (P : Paging K roots label s) (hr : roots o = some r) (ho : o ≠ PO_KERNEL)
    {va : ℕ} (h : leafWord s.mem r va = f*4096+7) : f ∉ freePages s := by
  intro hf
  have hinfo := ((mem_freePages s f).1 hf).2
  have hl := P.leaves o r va hr ho
  rw [h] at hl
  generalize he : f*4096+7 = e at hl
  cases hl with
  | empty => omega
  | kernel a ha hlow =>
    have := ha.1
    omega
  | console hlow =>
    have hfc : f = 0xB8 := by
      simp only [console] at he
      omega
    subst hfc
    have hentry : pageinfo_init_entry K (0xB8*4096) = ⟨PO_RESERVED,1⟩ := rfl
    have hm := P.marked 0xB8 (by decide) (by rw [hentry]; decide)
    rw [hm, hentry] at hinfo
    exact absurd hinfo (by decide)
  | user a ha hu =>
    have hfa : a / 4096 = f := by
      have := ha.1
      omega
    obtain ⟨-,pid,-,hpid⟩ := hu
    rw [hfa, hinfo] at hpid
    exact info_ne_free pid hpid.symm

end Take

/-- What a lookup finds above `PROC_START_ADDR`: nothing, or a user page. -/
theorem high_lookup (P : Paging K roots label s) (hr : roots o = some r) (ho : o ≠ PO_KERNEL)
    {va : ℕ} (hva : va % 4096 = 0) (hhigh : 256 ≤ vpage va) :
    (leafWord s.mem r va = 0 ∧ virtual_memory_lookup s.mem r va = .unmapped) ∨
    ∃ a, leafWord s.mem r va = a+7 ∧ Frame a ∧ UserFrame label s a ∧
      virtual_memory_lookup s.mem r va = ⟨(a / 4096 : ℕ),a,7⟩ := by
  have hlook := virtual_memory_lookup_eq P.forest (P.forest.root o r hr) va
  have hl := P.leaves o r va hr ho
  generalize leafWord s.mem r va = e at hlook hl
  cases hl with
  | empty => exact Or.inl ⟨rfl,hlook⟩
  | kernel a ha hlow => omega
  | console hlow => omega
  | user a ha hu =>
    rw [leafMapping_frame ha (Or.inr rfl), hva, add_zero] at hlook
    exact Or.inr ⟨a,rfl,ha,hu,hlook⟩

/-- The page at `va` of the owner is now the frame `f`, a copy of the frame `a`. -/
structure PageCopied (K : KernelImage) (roots : ℤ → Option ℕ) (o : ℤ) (va a f : ℕ)
    (label label' : Labels) (c : ℕ) (s s' : KState) : Prop where
  fresh : f ∈ freePages s
  mapped : Mapped K roots o va (f*4096+7) label label' c s s'
  info : s'.pageinfo f = ⟨o,1⟩
  unlabelled : label' (f*4096) = none
  tables : ∀ pn, pn ≠ f → s'.pageinfo pn = s.pageinfo pn ∨ ∃ q, label' (pn*4096) = some q
  bytes : ∀ k < 4096, s'.mem (f*4096+k) = s.mem (a+k)

/-- The two address spaces of a fork and the slots that hold them. -/
structure Family (roots : ℤ → Option ℕ) (i : ℕ) (o' : ℤ) (r r' : ℕ) (s : KState) : Prop where
  child : ProcOwner i
  parent : o' ≠ PO_KERNEL
  distinct : o' ≠ i
  child_root : roots i = some r
  parent_root : roots o' = some r'
  child_table : (s.processes i).p_pagetable = r
  parent_table : (s.processes s.current).p_pagetable = r'

section CopyPage

variable {i va a : ℕ}

theorem Family.mono (Y : Family roots i o' r r' s) (hproc : s'.processes = s.processes)
    (hcur : s'.current = s.current) : Family roots i o' r r' s' :=
  ⟨Y.child,Y.parent,Y.distinct,Y.child_root,Y.parent_root,by rw [hproc]; exact Y.child_table,
    by rw [hproc, hcur]; exact Y.parent_table⟩

variable {f : ℕ} {m : Memory}

/-- The page `f` of `m` holds what the page at `a` held, and nothing else has changed. -/
structure CopiedBytes (s : KState) (f a : ℕ) (m : Memory) : Prop where
  only : OnlyPage s f m
  same : ∀ k < 4096, m (f*4096+k) = s.mem (a+k)

theorem memcpy_bytes (s : KState) (ha : Frame a) :
    CopiedBytes s f a (LibC.memcpy s.mem (f*4096) a 4096) := by
  rw [LibC.memcpy_copy _ _ _ _ (by have := ha.1; omega)]
  exact ⟨fun p hp hne => copy_agree _ _ _ _ _ _ (by omega),fun k hk => copy_here _ _ _ _ _ hk⟩

theorem fork_loop_none (Y : Family roots i o' r r' s) (hfree : freePages s = ∅)
    (hlook : virtual_memory_lookup s.mem r' va = ⟨(a / 4096 : ℕ),a,7⟩) (l : List ℕ) :
    fork_loop i (va::l) s = .ok (false,s) := by
  have hW : 7 &&& PTE_W ≠ 0 := by decide
  simp only [fork_loop, Y.parent_table, hlook, if_pos hW, get_free_addr_none _ s hfree, if_true]

theorem fork_loop_skip (Y : Family roots i o' r r' s)
    (hlook : virtual_memory_lookup s.mem r' va = .unmapped) (l : List ℕ) :
    fork_loop i (va::l) s = fork_loop i l s := by
  have hW : ¬(vamapping.unmapped.perm &&& PTE_W ≠ 0) := by decide
  simp only [fork_loop, Y.parent_table, hlook, if_neg hW]

/-- A mapped page of the parent: the copy is made before it is mapped. -/
theorem fork_loop_take (P : Paging K roots label s) (Y : Family roots i o' r r' s)
    (hfree : freePages s ≠ ∅) (ha : Frame a)
    (hlook : virtual_memory_lookup s.mem r' va = ⟨(a / 4096 : ℕ),a,7⟩) :
    ∃ f ∈ freePages s, ∃ m, CopiedBytes s f a m ∧ ∀ l, fork_loop i (va::l) s =
      (virtual_memory_map r va (f*4096) PAGESIZE 7 (some pagetable_alloc)
        (takePage s f i m s.pagetable_owner)).bind
      fun (res,s) => if res ≠ 0 then .ok (false,s) else fork_loop i l s := by
  obtain ⟨f,hf,-,hget⟩ := get_free_addr_some i s hfree
  have hfnull : f*4096 ≠ OUTOFMEMORY := by
    have hz : f ≠ 0 := fun hz => P.zero_used (hz ▸ hf)
    simp only [OUTOFMEMORY]
    omega
  have hW : 7 &&& PTE_W ≠ 0 := by decide
  refine ⟨f,hf,_,memcpy_bytes s ha,fun l => ?_⟩
  simp only [fork_loop, Y.parent_table, hlook, if_pos hW, hget, if_neg hfnull, setPageinfo_mem,
    setPageinfo_processes, Y.child_table]
  rfl

variable (P : Paging K roots label s) (Y : Family roots i o' r r' s)
  (hpo : s.pagetable_owner = i) (hva : va % 4096 = 0) (hwin : va < MEMSIZE_VIRTUAL)
  (hf : f ∈ freePages s) (C : CopiedBytes s f a m)
include P Y hpo hva hwin hf C

theorem copy_page_map
    (hcount : 1+tablesMissing s.mem r va ≤ freeCount s) :
    ∃ label' s', virtual_memory_map r va (f*4096) PAGESIZE 7 (some pagetable_alloc)
        (takePage s f i m s.pagetable_owner) = .ok (0,s') ∧
      PageCopied K roots i va a f label label' (1+tablesMissing s.mem r va) s s' ∧
      (tablesMissing s.mem r va = 0 → label' = label) := by
  have hframe := free_frame hf
  have hm := C.only
  have G : Grows i label label 1 s (takePage s f i m s.pagetable_owner) := take_grows P hf hm
  have P₀ := P.take G Y.child fun _ _ j hn => take_slots P hf hm hn j
  have hu₀ : UserFrame label (takePage s f i m s.pagetable_owner) (f*4096) := take_user P Y.child hf
  have hcount₀ := G.count
  have htables : tablesMissing m r va =
      tablesMissing s.mem r va :=
    P.forest.missing_congr (P.forest.root _ r Y.child_root) (by simp) fun m q j hq _ =>
      take_slots P hf hm hq j
  have hmax : va < 0x300000 := hwin
  have hidx : index123 va ≠ -1 := index123_ne va (by rw [vpage_small va (by omega)]; omega)
  have hmaps : ∃ label' s', virtual_memory_map r va (f*4096) PAGESIZE 7 (some pagetable_alloc)
        (takePage s f i m s.pagetable_owner) = .ok (0,s') ∧
      OnlyTables label' (takePage s f i m s.pagetable_owner) s' ∧
      Mapped K roots i va (f*4096+7) label label' (tablesMissing s.mem r va)
        (takePage s f i m s.pagetable_owner) s' ∧ (tablesMissing s.mem r va = 0 → label' = label) := by
    by_cases hzero : tablesMissing s.mem r va = 0
    · obtain ⟨s',hmap,M⟩ := map_page_present P₀ Y.child Y.child_root hva (by omega) hframe
        (Or.inr rfl) (.user _ hframe hu₀) hidx (htables.trans hzero) (some pagetable_alloc)
      rw [hzero]
      exact ⟨label,s',hmap,fun pn => Or.inl (M.grows.pageinfo_zero pn),M,fun _ => rfl⟩
    · obtain ⟨label',s',hmap,T,M⟩ := map_page_grow P₀ Y.child hpo Y.child_root hva (by omega)
        hframe (Or.inr rfl) (.user _ hframe hu₀) hidx (by rw [takePage_mem, htables]; omega)
      rw [takePage_mem, htables] at M
      exact ⟨label',s',hmap,T,M,fun h => absurd h hzero⟩
  obtain ⟨label',s',hmap,T,M,hsame⟩ := hmaps
  have hused : f ∉ freePages (takePage s f i m s.pagetable_owner) := by
    rw [mem_freePages, takePage_pageinfo, Function.update_self]
    exact fun h => info_ne_free _ h.2
  have hinfo : s'.pageinfo f = ⟨i,1⟩ := by
    rw [M.grows.pageinfo_used hused, takePage_pageinfo, Function.update_self]
  have hunlabelled : label' (f*4096) = none := (hu₀.mono M.grows).1
  have htabs : ∀ pn, pn ≠ f → s'.pageinfo pn = s.pageinfo pn ∨
      ∃ q, label' (pn*4096) = some q := fun pn hpn => by
    have h := T pn
    rwa [takePage_pageinfo, Function.update_of_ne hpn] at h
  refine ⟨label',s',hmap,⟨hf,⟨G.trans M.grows,M.paging,?_,M.owner⟩,hinfo,hunlabelled,htabs,?_⟩,hsame⟩
  · intro o'' x va' hx
    rw [M.leaf o'' x va' hx, takePage_mem, take_leaf P hf hm hx]
  · intro k hk
    have hkeep := M.grows.bytes f hused (fun q hq => by
      rw [P.label_free hf] at hq
      cases hq) k hk
    rw [hkeep, takePage_mem, C.same k hk]

theorem copy_page_exhausted
    (hcount : freeCount s < 1+tablesMissing s.mem r va) :
    ∃ label' s', virtual_memory_map r va (f*4096) PAGESIZE 7 (some pagetable_alloc)
        (takePage s f i m s.pagetable_owner) = .ok (-1,s') ∧
      Invisible K roots i label label' (freeCount s) s s' := by
  have hm := C.only
  have G : Grows i label label 1 s (takePage s f i m s.pagetable_owner) := take_grows P hf hm
  have P₀ := P.take G Y.child fun _ _ j hn => take_slots P hf hm hn j
  have hcount₀ := G.count
  have htables : tablesMissing m r va =
      tablesMissing s.mem r va :=
    P.forest.missing_congr (P.forest.root _ r Y.child_root) (by simp) fun m q j hq _ =>
      take_slots P hf hm hq j
  have hmax : va < 0x300000 := hwin
  have hidx : index123 va ≠ -1 := index123_ne va (by rw [vpage_small va (by omega)]; omega)
  obtain ⟨label',s',hmap,I⟩ := map_page_exhausted P₀ Y.child hpo Y.child_root hva (by omega)
    (free_frame hf) (Or.inr rfl) hidx (by rw [takePage_mem, htables]; omega)
  refine ⟨label',s',hmap,(G.trans I.grows).cast (by omega),I.paging,?_,I.owner⟩
  intro o'' x va' hx
  rw [I.leaf o'' x va' hx, takePage_mem, take_leaf P hf hm hx]

end CopyPage

/-- The loop of `fork` copies the pages it can write through the parent's table. -/
def writable (m : Memory) (r va : ℕ) : Bool := (virtual_memory_lookup m r va).perm &&& PTE_W ≠ 0

/-- Free pages the loop takes for the addresses `l`: one for each writable page and
one for the table of the second two megabytes, unless it is there already. -/
def copyNeeds (m : Memory) (r : ℕ) : Bool → List ℕ → ℕ
  | _, [] => 0
  | second, va::l =>
    if writable m r va then
      if 512 ≤ vpage va ∧ second = false then copyNeeds m r true l+2
      else copyNeeds m r second l+1
    else copyNeeds m r second l

theorem copyNeeds_eq (m : Memory) (r : ℕ) (second : Bool) (l : List ℕ) :
    copyNeeds m r second l = (l.filter (writable m r)).length +
      if second = false ∧ ∃ va ∈ l, writable m r va ∧ 512 ≤ vpage va then 1 else 0 := by
  induction l generalizing second with
  | nil => simp [copyNeeds]
  | cons va l ih =>
    by_cases hw : writable m r va
    · cases second with
      | true => simp [copyNeeds, hw, ih]
      | false =>
        by_cases hhigh : 512 ≤ vpage va <;> simp [copyNeeds, hw, hhigh, ih]
        omega
    · simp [copyNeeds, hw, ih]

theorem copyNeeds_congr {m m' : Memory} {r : ℕ} (h : ∀ va, writable m' r va = writable m r va)
    (second : Bool) (l : List ℕ) : copyNeeds m' r second l = copyNeeds m r second l := by
  induction l generalizing second with
  | nil => rfl
  | cons va l ih => simp only [copyNeeds, h, ih]

/-- Lookups are equal where the leaves are. -/
theorem lookup_kept {roots' : ℤ → Option ℕ} (P : Paging K roots label s)
    (P' : Paging K roots' label' s') (hr : roots o = some r) (hr' : roots' o' = some r') {va : ℕ}
    (h : leafWord s'.mem r' va = leafWord s.mem r va) :
    virtual_memory_lookup s'.mem r' va = virtual_memory_lookup s.mem r va := by
  rw [virtual_memory_lookup_eq P.forest (P.forest.root o r hr),
    virtual_memory_lookup_eq P'.forest (P'.forest.root o' r' hr'), h]

/-- Growth does not touch the bytes of user pages. -/
theorem user_bytes {a : ℕ} (G : Grows o label label' c s s') (ha : Frame a)
    (hu : UserFrame label s a) : Agree s.mem s'.mem a 4096 := by
  obtain ⟨hnone,pid,-,hinfo⟩ := hu
  have hpage : a / 4096*4096 = a := by have := ha.1; omega
  have hused : a / 4096 ∉ freePages s := by
    rw [mem_freePages, hinfo]
    exact fun h => info_ne_free _ h.2
  have hbytes := G.bytes (a / 4096) hused fun q hq => by
    rw [hpage, hnone] at hq
    cases hq
  rwa [hpage] at hbytes

/-- The frame `f`, free before, is the owner's private copy of what `r'` has at `va`. -/
structure FreshCopy (o : ℤ) (r r' va f : ℕ) (label' : Labels) (s s' : KState) : Prop where
  fresh : f ∈ freePages s
  leaf : leafWord s'.mem r va = f*4096+7
  info : s'.pageinfo f = ⟨o,1⟩
  unlabelled : label' (f*4096) = none
  bytes : ∃ a, Frame a ∧ leafWord s.mem r' va = a+7 ∧
    ∀ k < 4096, s'.mem (f*4096+k) = s.mem (a+k)

/-- What the loop has done to the child, however it ended. -/
structure Copying (K : KernelImage) (roots : ℤ → Option ℕ) (o : ℤ) (r r' : ℕ) (l : List ℕ)
    (label label' : Labels) (c : ℕ) (s s' : KState) : Prop where
  grows : Grows o label label' c s s'
  paging : Paging K roots label' s'
  owner : s'.pagetable_owner = s.pagetable_owner
  leaf : ∀ va, leafWord s'.mem r va = leafWord s.mem r va ∨
    (vpage va ∈ l.map vpage ∧ ∃ f, FreshCopy o r r' va f label' s s')
  inj : ∀ f ∈ freePages s, ∀ va va', leafWord s'.mem r va = f*4096+7 →
    leafWord s'.mem r va' = f*4096+7 → vpage va = vpage va'

/-- The addresses the loop visits. -/
def WindowPages (l : List ℕ) : Prop :=
  ∀ va ∈ l, va % 4096 = 0 ∧ PROC_START_ADDR ≤ va ∧ va < MEMSIZE_VIRTUAL

theorem WindowPages.vpage {l : List ℕ} (h : WindowPages l) {va : ℕ}
    (hva : vpage va ∈ l.map vpage) : 256 ≤ vpage va ∧ vpage va < 768 := by
  obtain ⟨x,hx,heq⟩ := List.mem_map.1 hva
  obtain ⟨-,hlow,hhigh⟩ := h x hx
  simp only [PROC_START_ADDR, MEMSIZE_VIRTUAL] at hlow hhigh
  rw [← heq, vpage_small x (by omega)]
  omega

section Loop

variable {i : ℕ} {l : List ℕ}

theorem Copying.refl (P : Paging K roots label s) (Y : Family roots i o' r r' s) (l : List ℕ) :
    Copying K roots i r r' l label label 0 s s where
  grows := Grows.refl i label s
  paging := P
  owner := rfl
  leaf _ := Or.inl rfl
  inj f hf va va' h _ := by
    have hk : (i : ℤ) ≠ PO_KERNEL := by simp only [PO_KERNEL]; omega
    exact absurd hf (leaf_used P Y.child_root hk h)

theorem Copying.stop {va : ℕ} (P : Paging K roots label s) (Y : Family roots i o' r r' s)
    (I : Invisible K roots i label label' c s s') :
    Copying K roots i r r' (va::l) label label' c s s' where
  grows := I.grows
  paging := I.paging
  owner := I.owner
  leaf x := Or.inl (I.leaf i r x Y.child_root)
  inj f hf x x' h _ := by
    have hk : (i : ℤ) ≠ PO_KERNEL := by simp only [PO_KERNEL]; omega
    rw [I.leaf i r x Y.child_root] at h
    exact absurd hf (leaf_used P Y.child_root hk h)

theorem Copying.skip {va : ℕ} (C : Copying K roots i r r' l label label' c s s') :
    Copying K roots i r r' (va::l) label label' c s s' :=
  { C with leaf := fun x => (C.leaf x).imp id fun h => ⟨by simp [h.1],h.2⟩ }

/-- A copy stays a copy while the loop goes on. -/
theorem FreshCopy.after {label₁ : Labels} {s₁ : KState} {va a f : ℕ}
    (C : PageCopied K roots i va a f label label₁ c s s₁) (Y : Family roots i o' r r' s)
    (ha : Frame a) (hsrc : leafWord s.mem r' va = a+7)
    {c' : ℕ} (G : Grows i label₁ label' c' s₁ s') {x : ℕ} (hx : vpage x = vpage va)
    (hleaf : leafWord s'.mem r x = leafWord s₁.mem r x) : FreshCopy i r r' x f label' s s' := by
  have hframe := free_frame C.fresh
  have hdiv : f*4096 / 4096 = f := by omega
  have hu : UserFrame label₁ s₁ (f*4096) := ⟨C.unlabelled,i,Y.child,by rw [hdiv, C.info]⟩
  have hused : f ∉ freePages s₁ := by
    rw [mem_freePages, C.info]
    exact fun h => info_ne_free _ h.2
  refine ⟨C.fresh,?_,by rw [G.pageinfo_used hused, C.info],(hu.mono G).1,a,ha,?_,?_⟩
  · rw [hleaf, C.mapped.leaf i r x Y.child_root, if_pos ⟨rfl,hx⟩]
  · rw [leafWord_congr_page hx, hsrc]
  · intro k hk
    rw [user_bytes G hframe hu k hk, C.bytes k hk]

/-- Copies made later in the loop are copies of the parent's first state. -/
theorem FreshCopy.before {label₁ : Labels} {s₁ : KState} {x f : ℕ}
    (P : Paging K roots label s) (hr' : roots o' = some r') (hk : o' ≠ PO_KERNEL) (hoo : o' ≠ i)
    (G : Grows i label label₁ c s s₁) (hhigh : 256 ≤ vpage x)
    (C : FreshCopy i r r' x f label' s₁ s') : FreshCopy i r r' x f label' s s' := by
  obtain ⟨a,ha,hsrc,hbytes⟩ := C.bytes
  have hsame : leafWord s₁.mem r' x = leafWord s.mem r' x := P.leaf_kept G hr' hoo x
  rw [hsame] at hsrc
  have hu : UserFrame label s a := by
    have hl := P.leaves o' r' x hr' hk
    rw [hsrc] at hl
    generalize he : a+7 = e at hl
    cases hl with
    | empty => omega
    | kernel b hb hlow => omega
    | console hlow => omega
    | user b hb hu => exact (show b = a by omega) ▸ hu
  refine ⟨G.free_of_free C.fresh,C.leaf,C.info,C.unlabelled,a,ha,hsrc,?_⟩
  intro k hlt
  rw [hbytes k hlt, user_bytes G ha hu k hlt]

theorem Copying.cons {label₁ : Labels} {s₁ : KState} {va a f c' : ℕ}
    (P : Paging K roots label s) (Y : Family roots i o' r r' s) (hl : WindowPages l)
    (ha : Frame a) (hsrc : leafWord s.mem r' va = a+7)
    (C : PageCopied K roots i va a f label label₁ c s s₁)
    (R : Copying K roots i r r' l label₁ label' c' s₁ s') :
    Copying K roots i r r' (va::l) label label' (c+c') s s' where
  grows := C.mapped.grows.trans R.grows
  paging := R.paging
  owner := R.owner.trans C.mapped.owner
  leaf x := by
    rcases R.leaf x with h | ⟨hx,f',hf'⟩
    · by_cases hx : vpage x = vpage va
      · exact Or.inr ⟨by simp [hx],f,FreshCopy.after C Y ha hsrc R.grows hx h⟩
      · rw [h, C.mapped.leaf i r x Y.child_root, if_neg fun h => hx h.2]
        exact Or.inl rfl
    · exact Or.inr ⟨by simp [hx],f',hf'.before P Y.parent_root Y.parent Y.distinct C.mapped.grows (hl.vpage hx).1⟩
  inj g hg x x' hx hx' := by
    have hk : (i : ℤ) ≠ PO_KERNEL := by simp only [PO_KERNEL]; omega
    by_cases hg₁ : g ∈ freePages s₁
    · exact R.inj g hg₁ x x' hx hx'
    · -- the frame was taken for `va` itself, or is a new table
      have hplace : ∀ y, leafWord s'.mem r y = g*4096+7 → vpage y = vpage va := by
        intro y hy
        rcases R.leaf y with h | ⟨-,f',hf'⟩
        · rw [hy, C.mapped.leaf i r y Y.child_root] at h
          by_contra hne
          rw [if_neg fun h => hne h.2] at h
          exact leaf_used P Y.child_root hk h.symm hg
        · have hfg : f' = g := by
            have := hf'.leaf
            omega
          exact absurd (hfg ▸ hf'.fresh) hg₁
      rw [hplace x hx, hplace x' hx']

/-- Which of the child's level-4 tables exist: the first, and perhaps the second. -/
structure ChildTables (m : Memory) (r : ℕ) (second : Bool) : Prop where
  low : tablesMissing m r 0 = 0
  high : tablesMissing m r 0x200000 = if second then 0 else 1

theorem ChildTables.missing {m : Memory} {second : Bool} (T : ChildTables m r second) {va : ℕ}
    (h : vpage va < 768) :
    tablesMissing m r va = if 512 ≤ vpage va ∧ second = false then 1 else 0 := by
  have hzero : vpage 0 = 0 := rfl
  have htwo : vpage 0x200000 = 512 := by decide
  by_cases hhigh : 512 ≤ vpage va
  · have hsame : vpage va / 512 = vpage 0x200000 / 512 := by omega
    rw [tablesMissing_congr m r hsame, T.high]
    cases second <;> simp [hhigh]
  · have hsame : vpage va / 512 = vpage 0 / 512 := by omega
    rw [tablesMissing_congr m r hsame, T.low, if_neg fun h => hhigh h.1]

theorem index_second : index 0x200000 0 = 0 ∧ index 0x200000 1 = 0 ∧ index 0x200000 2 = 1 := by
  decide

/-- A page table that took four pages has no table for the second two megabytes. -/
theorem copied_tables {roots' : ℤ → Option ℕ} (G : Grows o label label' 4 s s')
    (P : Paging K roots' label' s') (hr : roots' o = some r)
    (hnew : ∀ n q, label n = some q → q.owner ≠ o) (hleaf : leafWord s'.mem r 0 ≠ 0) :
    ChildTables s'.mem r false := by
  have hlow := tablesMissing_leaf _ _ _ hleaf
  have hpath : tableIndices 0 = [0,0,0] := rfl
  have hpath' : tableIndices 0x200000 = [0,0]++[1] := by
    obtain ⟨h0,h1,h2⟩ := index_second
    simp [tableIndices, h0, h1, h2]
  obtain ⟨l4,hw⟩ := (tablesMissing_zero _ _ _).1 hlow
  have hprefix : ∀ p q : List Index, p++q = [0,0,0] → ∃ n, walk scheme (slot s'.mem) r p = some n := by
    intro p q hpq
    rw [hpath, ← hpq, walk_append] at hw
    cases hn : walk scheme (slot s'.mem) r p with
    | none => simp [hn] at hw
    | some n => exact ⟨n,rfl⟩
  refine ⟨hlow,?_⟩
  obtain ⟨n,hn⟩ := hprefix [0,0] [0] rfl
  have hle : tablesMissing s'.mem r 0x200000 ≤ 1 := by
    rw [tablesMissing, hpath', missing_append r n _ _ hn]
    exact missing_le n [1]
  have hne : tablesMissing s'.mem r 0x200000 ≠ 0 := by
    intro hzero
    obtain ⟨x,hx⟩ := (tablesMissing_zero _ _ _).1 hzero
    rw [hpath'] at hx
    have hfive := G.tables_bound hnew {[],[0],[0,0],[0,0,0],[0,0,1]} fun p hp => by
      have hnode : ∃ n, walk scheme (slot s'.mem) r p = some n ∧ p.length ≤ 3 := by
        simp only [Finset.mem_insert, Finset.mem_singleton] at hp
        rcases hp with rfl | rfl | rfl | rfl | rfl
        · exact ⟨r,rfl,by decide⟩
        · obtain ⟨n,hn⟩ := hprefix [0] [0,0] rfl
          exact ⟨n,hn,by decide⟩
        · exact ⟨n,hn,by decide⟩
        · exact ⟨l4,hw,by decide⟩
        · exact ⟨x,hx,by decide⟩
      obtain ⟨n,hn,hlen⟩ := hnode
      exact ⟨n,(P.forest.walk_iff hr hlen).1 hn⟩
    have hcard : ({[],[0],[0,0],[0,0,0],[0,0,1]} : Finset (List Index)).card = 5 := by decide
    omega
  simp only [Bool.false_eq_true, if_false]
  omega

/-- After a page is mapped its table exists, and without new tables nothing else has
changed about tables. -/
theorem ChildTables.step {label₁ : Labels} {s₁ : KState} {va w : ℕ} {second : Bool}
    (P : Paging K roots label s) (hr : roots o = some r)
    (M : Mapped K roots o va w label label₁ c s s₁)
    (hw : w ≠ 0) (hva : vpage va < 768) (T : ChildTables s.mem r second)
    (hsame : tablesMissing s.mem r va = 0 → label₁ = label) :
    ChildTables s₁.mem r (second || decide (512 ≤ vpage va)) where
  low := by
    obtain ⟨l4,hl4⟩ := (tablesMissing_zero _ _ _).1 T.low
    exact (tablesMissing_zero _ _ _).2 ⟨l4,P.walk_kept M.grows hr (by simp) hl4⟩
  high := by
    have htwo : vpage 0x200000 = 512 := by decide
    by_cases hhigh : 512 ≤ vpage va
    · have hleaf : leafWord s₁.mem r va ≠ 0 := by
        rw [M.leaf o r va hr, if_pos ⟨rfl,rfl⟩]
        exact hw
      have hpage : vpage 0x200000 / 512 = vpage va / 512 := by omega
      rw [tablesMissing_congr s₁.mem r hpage, tablesMissing_leaf _ _ _ hleaf]
      simp [hhigh]
    · have hzero := T.missing hva
      rw [if_neg fun h => hhigh h.1] at hzero
      have heq := hsame hzero
      have hforest := M.paging.forest
      rw [heq] at hforest
      have hkeep : tablesMissing s₁.mem r 0x200000 = tablesMissing s.mem r 0x200000 :=
        P.forest.missing_congr (P.forest.root o r hr) (by simp) fun m q j hm hq =>
          P.forest.link_unique hforest hm hq j
      rw [hkeep, T.high]
      simp [hhigh]

/-- The loop succeeds when the free pages cover its needs, with a copy of each page of the
parent, and otherwise takes all of them before it gives up. -/
theorem fork_loop_spec (hl : WindowPages l) (hnd : (l.map vpage).Nodup) {second : Bool} (P : Paging K roots label s)
    (Y : Family roots i o' r r' s) (hpo : s.pagetable_owner = i)
    (T : ChildTables s.mem r second) :
    (copyNeeds s.mem r' second l ≤ freeCount s → ∃ label' s',
      fork_loop i l s = .ok (true,s') ∧
      Copying K roots i r r' l label label' (copyNeeds s.mem r' second l) s s' ∧
      (∀ va ∈ l, leafWord s.mem r' va ≠ 0 → ∃ f, FreshCopy i r r' va f label' s s') ∧
      ∀ pn, s'.pageinfo pn = s.pageinfo pn ∨ (∃ q, label' (pn*4096) = some q) ∨
        ∃ va ∈ l, leafWord s'.mem r va = pn*4096+7) ∧
    (freeCount s < copyNeeds s.mem r' second l → ∃ label' s',
      fork_loop i l s = .ok (false,s') ∧
      Copying K roots i r r' l label label' (freeCount s) s s') := by
  induction l generalizing s label second with
  | nil =>
    refine ⟨fun _ => ⟨label,s,rfl,Copying.refl P Y [],fun va hva => by simp at hva,
      fun _ => Or.inl rfl⟩,fun h => ?_⟩
    simp [copyNeeds] at h
  | cons va l ih =>
    obtain ⟨hva,hstart,hwin⟩ := hl va (by simp)
    have hhead : vpage va ∈ (va::l).map vpage := by simp
    have hrange := hl.vpage hhead
    have hl' : WindowPages l := fun x hx => hl x (by simp [hx])
    obtain ⟨hva_new,hnd'⟩ := List.nodup_cons.1 hnd
    rcases high_lookup P Y.parent_root Y.parent hva hrange.1 with
      ⟨hzero,hlook⟩ | ⟨a,hsrc,ha,hu,hlook⟩
    · -- nothing to copy
      have hw : writable s.mem r' va = false := by
        rw [writable, hlook]
        rfl
      simp only [copyNeeds, hw, Bool.false_eq_true, if_false, fork_loop_skip Y hlook]
      obtain ⟨hgood,hbad⟩ := ih hl' hnd' P Y hpo T
      refine ⟨fun h => ?_,fun h => ?_⟩
      · obtain ⟨label',s',hrun,C,hall,hused⟩ := hgood h
        refine ⟨label',s',hrun,C.skip,fun x hx hne => ?_,fun pn => ?_⟩
        · rcases List.mem_cons.1 hx with rfl | hx
          · exact absurd hzero hne
          · exact hall x hx hne
        · exact (hused pn).imp_right fun h => h.imp_right fun ⟨x,hx,hw⟩ =>
            ⟨x,List.mem_cons_of_mem _ hx,hw⟩
      · obtain ⟨label',s',hrun,C⟩ := hbad h
        exact ⟨label',s',hrun,C.skip⟩
    · have hw : writable s.mem r' va = true := by
        rw [writable, hlook]
        simp
      have hmiss := T.missing hrange.2
      have hneed : copyNeeds s.mem r' second (va::l) = 1+tablesMissing s.mem r va+
          copyNeeds s.mem r' (second || decide (512 ≤ vpage va)) l := by
        simp only [copyNeeds, hw, if_true, hmiss]
        cases second <;> by_cases hhigh : 512 ≤ vpage va <;> simp [hhigh] <;> omega
      by_cases hfree : freePages s = ∅
      · have hcount : freeCount s = 0 := (freeCount_eq_zero s).2 hfree
        refine ⟨fun h => by omega,fun _ => ⟨label,s,fork_loop_none Y hfree hlook l,?_⟩⟩
        rw [hcount]
        exact Copying.stop P Y (Invisible.refl i P)
      · obtain ⟨f,hf,m,B,hstep⟩ := fork_loop_take P Y hfree ha hlook
        by_cases hone : 1+tablesMissing s.mem r va ≤ freeCount s
        · obtain ⟨label₁,s₁,hmap,C,hsame⟩ := copy_page_map P Y hpo hva hwin hf B hone
          have M := C.mapped
          have hkeep : ∀ x, writable s₁.mem r' x = writable s.mem r' x := fun x => by
            rw [writable, writable, lookup_kept P M.paging Y.parent_root Y.parent_root
              (P.leaf_kept M.grows Y.parent_root Y.distinct x)]
          have hcount := M.grows.count
          obtain ⟨hgood,hbad⟩ := ih hl' hnd' M.paging
            (Y.mono M.grows.processes M.grows.current) (M.owner.trans hpo)
            (T.step P Y.child_root M (by omega) hrange.2 hsame)
          simp only [copyNeeds_congr hkeep] at hgood hbad
          simp only [hneed, hstep l, hmap, Except.bind, ne_eq, not_true_eq_false, if_false]
          refine ⟨fun h => ?_,fun h => ?_⟩
          · obtain ⟨label',s',hrun,R,hall,hused⟩ := hgood (by omega)
            have R' := Copying.cons P Y hl' ha hsrc C R
            have hfirst : FreshCopy i r r' va f label' s s' := by
              rcases R.leaf va with h | ⟨hmem,-⟩
              · exact FreshCopy.after C Y ha hsrc R.grows rfl h
              · exact absurd hmem hva_new
            refine ⟨label',s',hrun,R',fun x hx hne => ?_,fun pn => ?_⟩
            · rcases List.mem_cons.1 hx with rfl | hx
              · exact ⟨f,hfirst⟩
              · obtain ⟨f',hf'⟩ := hall x hx (by
                  rw [P.leaf_kept M.grows Y.parent_root Y.distinct]
                  exact hne)
                exact ⟨f',hf'.before P Y.parent_root Y.parent Y.distinct M.grows
                  (hl'.vpage (List.mem_map_of_mem hx)).1⟩
            · rcases hused pn with h | h | ⟨x,hx,hw⟩
              · by_cases hpn : pn = f
                · exact Or.inr (Or.inr ⟨va,by simp,by rw [hfirst.leaf, hpn]⟩)
                · rcases C.tables pn hpn with h' | ⟨q,hq⟩
                  · exact Or.inl (h.trans h')
                  · exact Or.inr (Or.inl ⟨q,R.grows.mono _ q hq⟩)
              · exact Or.inr (Or.inl h)
              · exact Or.inr (Or.inr ⟨x,List.mem_cons_of_mem _ hx,hw⟩)
          · obtain ⟨label',s',hrun,R⟩ := hbad (by omega)
            have R' := Copying.cons P Y hl' ha hsrc C R
            have hsum : 1+tablesMissing s.mem r va+freeCount s₁ = freeCount s := by omega
            rw [hsum] at R'
            exact ⟨label',s',hrun,R'⟩
        · obtain ⟨label',s',hmap,I⟩ := copy_page_exhausted P Y hpo hva hwin hf B (by omega)
          refine ⟨fun h => by omega,fun _ => ⟨label',s',?_,Copying.stop P Y I⟩⟩
          rw [hstep l, hmap]
          rfl

end Loop

end WeensyOS.ForkCopies
