import WeensyOS.TableWalks

/-!
# Mapping one page

`virtual_memory_map` for a single page of a process. When it succeeds exactly
one leaf of one address space has changed; when it fails no leaf has changed,
although tables may have been added on the way.
-/

set_option autoImplicit false

namespace WeensyOS.PageMaps
open WeensyOS.FlatMemory WeensyOS.KernelState WeensyOS.PageTables WeensyOS.PageAllocator
open WeensyOS.RadixForest WeensyOS.TableWords WeensyOS.FreePages WeensyOS.PagingInvariant
open WeensyOS.TableWalks

/-- Growth after which one leaf of the owner's address space holds `w`. -/
structure Mapped (K : KernelImage) (roots : ℤ → Option ℕ) (o : ℤ) (va w : ℕ)
    (label label' : Labels) (c : ℕ) (s s' : KState) : Prop where
  grows : Grows o label label' c s s'
  paging : Paging K roots label' s'
  leaf : ∀ o' r va', roots o' = some r → leafWord s'.mem r va' =
    if o' = o ∧ vpage va' = vpage va then w else leafWord s.mem r va'
  owner : s'.pagetable_owner = s.pagetable_owner

variable {K : KernelImage} {roots : ℤ → Option ℕ} {o : ℤ} {label label' label'' : Labels}
  {c c' : ℕ} {s s' s'' : KState} {va w : ℕ}

theorem Mapped.after (M : Mapped K roots o va w label' label'' c' s' s'')
    (I : Invisible K roots o label label' c s s') :
    Mapped K roots o va w label label'' (c+c') s s'' where
  grows := I.grows.trans M.grows
  paging := M.paging
  leaf o' r va' hr := by rw [M.leaf o' r va' hr, I.leaf o' r va' hr]
  owner := M.owner.trans I.owner

/-- Storing a leaf word in a level-4 table of the owner. -/
theorem write_mapped (P : Paging K roots label s) (ho : ProcOwner o) {r l4 : ℕ}
    (hr : roots o = some r) (hw : walk scheme (slot s.mem) r (tableIndices va) = some l4)
    (hlt : w < 2^64) (hleaf : Leaf label s va w) :
    Mapped K roots o va w label label 0 s
      { s with mem := setEntry s.mem l4 (L4PAGEINDEX va) w } := by
  have hl4 : label l4 = some ⟨o,tableIndices va⟩ := by
    simpa using P.forest.walk_label (P.forest.root o r hr) (by simp) hw
  have halign := P.aligned hl4
  have hidx : L4PAGEINDEX va = (index va 3).val := rfl
  have W : Written label (slot s.mem) (slot (setEntry s.mem l4 (L4PAGEINDEX va) w)) l4
      (index va 3) w := by
    refine ⟨entry_setEntry _ _ _ _ hlt,fun m q j hm hne => ?_⟩
    refine entry_setEntry_other _ _ _ _ _ _ halign (P.aligned hm) (pageindex_lt va 3) j.isLt ?_
    exact hne.imp id fun h hval => h (Fin.ext hval)
  have hword : ∀ o' r' va', roots o' = some r' →
      leafWord (setEntry s.mem l4 (L4PAGEINDEX va) w) r' va' =
        if o' = o ∧ vpage va' = vpage va then w else leafWord s.mem r' va' := by
    intro o' r' va' hr'
    have hlen : (indices va').length = scheme.depth+1 := rfl
    have hone := P.forest.write_leaf hr hw (by simp) W hr' hlen
    simp only [← indices_snoc, indices_eq_iff] at hone
    exact hone
  have G : Grows o label label 0 s { s with mem := setEntry s.mem l4 (L4PAGEINDEX va) w } := by
    refine Grows.rewrite ?_ ?_
    · intro pn hown
      refine setEntry_agree _ _ _ _ _ (pageindex_lt va 3) halign (Nat.mul_mod_left pn 4096) ?_
      rintro rfl
      exact hown _ hl4 rfl
    · intro n q i hn hq _
      refine W.others n q i hn (Or.inl ?_)
      rintro rfl
      rw [hl4, Option.some.injEq] at hn
      subst hn
      simp at hq
  refine ⟨G,P.grow G ho (P.forest.write hl4 (by simp) W) ?_,hword,rfl⟩
  intro r' va' hr'
  rw [hword o r' va' hr']
  by_cases hp : vpage va' = vpage va
  · rw [if_pos ⟨rfl,hp⟩]
    exact Or.inr ((hleaf.mono G).congr_page hp)
  · rw [if_neg fun h => hp h.2]
    exact Or.inl rfl

section OnePage

variable {σ : Type} [MachineMemory σ]

/-- One page is one lookup and one store, once the arguments are in order. -/
theorem map_one (pt va pa perm : ℕ) (alloc : Option (Allocator σ)) (t : σ)
    (hpt : pt % 4096 = 0) (hva : va % 4096 = 0) (hva64 : va < 2^64) (hpa : Frame pa)
    (hperm : perm % 2 = 1 ∧ perm < 4096) :
    virtual_memory_map pt va pa PAGESIZE perm alloc t =
      if index123 va = -1 then .ok (-1,t)
      else (lookup_l4pagetable pt va perm alloc t).bind fun (l4,t') =>
        if l4 = NULL then .ok (-1,t')
        else .ok (0,setMem t' (setEntry (mem t') l4 (L4PAGEINDEX va) (pa+perm))) := by
  obtain ⟨hpa,hmax⟩ := hpa
  have hword : pa ||| perm = pa+perm := or_flags pa perm hpa (by omega)
  have hp : perm &&& PTE_P ≠ 0 := (present_iff perm).2 (by omega)
  have hsum : (pa+4096) % 2^64 = pa+4096 := Nat.mod_eq_of_lt (by omega)
  have hwrap : (va+4096) % 2^64 ≥ va ∨ (va+4096) % 2^64 = 0 := by omega
  have hlt : perm < 0x1000 := by omega
  have hle : pa ≤ pa+4096 := by omega
  have hend : pa+4096 ≤ 0x200000 := by omega
  simp only [virtual_memory_map, PAGESIZE, hva, hwrap, hp, ne_eq, not_false_eq_true, if_true,
    hpa, hsum, hlt, hpt, MEMSIZE_PHYSICAL, hle, hend, ge_iff_le, kassert, Nat.mod_self,
    Nat.div_self (show 0 < 4096 by decide), bind, Except.bind, pure, Except.pure,
    virtual_memory_map_loop, NULL, not_true_eq_false, and_false, if_false, hword]
  by_cases hidx : index123 va = -1
  · simp [hidx]
  · simp only [hidx, not_false_eq_true, if_true, if_false]
    cases lookup_l4pagetable pt va perm alloc t with
    | error e => rfl
    | ok res =>
      obtain ⟨l4,t'⟩ := res
      by_cases hnull : l4 = 0 <;> simp [hnull]

end OnePage

theorem toInt32_neg_one (n : ℕ) : toInt32 n = -1 ↔ n % 4294967296 = 4294967295 := by
  have hdef : toInt32 n = Int.bmod n 4294967296 := rfl
  rw [hdef, Int.bmod_def]
  split <;> omega

/-- The cached index of the loop starts at `-1`, which some addresses have. -/
theorem index123_eq (va : ℕ) :
    index123 va = -1 ↔ va / 2097152 % 4294967296 = 4294967295 := by
  have hshift : va >>> (PAGEOFFBITS+PAGEINDEXBITS) = va / 2097152 := by
    simp only [Nat.shiftRight_eq_div_pow, PAGEOFFBITS, PAGEINDEXBITS, Nat.reduceAdd,
      Nat.reducePow]
  rw [index123, hshift, toInt32_neg_one]

theorem index123_ne (va : ℕ) (h : vpage va < 2^35) : index123 va ≠ -1 := by
  rw [ne_eq, index123_eq]
  rw [vpage] at h
  omega

/-- Tables still missing on the way to the leaf of `va`. -/
def tablesMissing (m : Memory) (r va : ℕ) : ℕ := missing scheme (slot m) r (tableIndices va)

theorem tablesMissing_zero (m : Memory) (r va : ℕ) :
    tablesMissing m r va = 0 ↔ ∃ l4, walk scheme (slot m) r (tableIndices va) = some l4 :=
  missing_eq_zero r _

/-- A leaf that is not empty has all its tables. -/
theorem tablesMissing_leaf (m : Memory) (r va : ℕ) (h : leafWord m r va ≠ 0) :
    tablesMissing m r va = 0 := by
  rw [tablesMissing_zero]
  rw [leafWord, indices_snoc, leaf_snoc] at h
  cases hw : walk scheme (slot m) r (tableIndices va) with
  | none => simp [hw] at h
  | some l4 => exact ⟨l4,rfl⟩

theorem tablesMissing_congr (m : Memory) (r : ℕ) {va va' : ℕ}
    (h : vpage va / 512 = vpage va' / 512) : tablesMissing m r va = tablesMissing m r va' := by
  rw [tablesMissing, tablesMissing, (tableIndices_eq_iff va va').2 h]

theorem tablesMissing_le (m : Memory) (r va : ℕ) : tablesMissing m r va ≤ 3 := by
  rw [tablesMissing]
  exact missing_le r (tableIndices va)

section MapPage

variable {r pa perm : ℕ}

/-- With its tables in place a page is mapped, whatever the allocator. -/
theorem map_page_present (P : Paging K roots label s) (ho : ProcOwner o)
    (hr : roots o = some r) (hva : va % 4096 = 0) (hva64 : va < 2^64) (hpa : Frame pa)
    (hperm : perm = 3 ∨ perm = 7) (hleaf : Leaf label s va (pa+perm))
    (hidx : index123 va ≠ -1) (htables : tablesMissing s.mem r va = 0)
    (alloc : Option (Allocator KState)) :
    ∃ s', virtual_memory_map r va pa PAGESIZE perm alloc s = .ok (0,s') ∧
      Mapped K roots o va (pa+perm) label label 0 s s' := by
  obtain ⟨l4,hw⟩ := (tablesMissing_zero _ _ _).1 htables
  have hroot := P.forest.root o r hr
  have hl4 : label l4 = some ⟨o,tableIndices va⟩ := by
    simpa using P.forest.walk_label hroot (by simp) hw
  have hnull : l4 ≠ NULL := P.label_ne_zero hl4 ho
  have hlook : lookup_l4pagetable r va perm alloc s = .ok (l4,s) :=
    lookup_present va perm alloc P.forest (fun n q h => (P.owned n q h).1) [0,1,2] hroot
      (by simp) hw
  have hpa' := hpa.2
  refine ⟨_,?_,write_mapped P ho hr hw (by omega) hleaf⟩
  rw [map_one r va pa perm alloc s (P.aligned hroot) hva hva64 hpa (by omega), if_neg hidx, hlook]
  simp only [Except.bind, if_neg hnull, mem_kstate, setMem_kstate]

/-- With enough free pages for the missing tables a page is mapped. -/
theorem map_page_grow (P : Paging K roots label s) (ho : ProcOwner o)
    (hpo : s.pagetable_owner = o) (hr : roots o = some r) (hva : va % 4096 = 0)
    (hva64 : va < 2^64) (hpa : Frame pa) (hperm : perm = 3 ∨ perm = 7)
    (hleaf : Leaf label s va (pa+perm)) (hidx : index123 va ≠ -1)
    (hneed : tablesMissing s.mem r va ≤ freeCount s) :
    ∃ label' s', virtual_memory_map r va pa PAGESIZE perm (some pagetable_alloc) s =
        .ok (0,s') ∧ OnlyTables label' s s' ∧
      Mapped K roots o va (pa+perm) label label' (tablesMissing s.mem r va) s s' := by
  have hroot := P.forest.root o r hr
  have hpresent : perm &&& PTE_P ≠ 0 := (present_iff perm).2 (by omega)
  obtain ⟨label',s',l4,hlook,I,T,hw⟩ :=
    (lookup_loop_spec ho hpresent [0,1,2] P hpo hroot (by simp)).1 hneed
  change walk scheme (slot s'.mem) r (tableIndices va) = some l4 at hw
  have hl4 : label' l4 = some ⟨o,tableIndices va⟩ := by
    simpa using I.paging.forest.walk_label (I.paging.forest.root o r hr) (by simp) hw
  have hnull : l4 ≠ NULL := I.paging.label_ne_zero hl4 ho
  have hpa' := hpa.2
  have M := write_mapped I.paging ho hr hw (by omega) (hleaf.mono I.grows)
  refine ⟨label',_,?_,T.trans M.grows fun _ => Or.inl rfl,M.after I⟩
  rw [map_one r va pa perm _ s (P.aligned hroot) hva hva64 hpa (by omega), if_neg hidx,
    lookup_l4pagetable, hlook]
  simp only [Except.bind, if_neg hnull, mem_kstate, setMem_kstate]

/-- With too few free pages the call fails and uses them all up. -/
theorem map_page_exhausted (P : Paging K roots label s) (ho : ProcOwner o)
    (hpo : s.pagetable_owner = o) (hr : roots o = some r) (hva : va % 4096 = 0)
    (hva64 : va < 2^64) (hpa : Frame pa) (hperm : perm = 3 ∨ perm = 7)
    (hidx : index123 va ≠ -1) (hneed : freeCount s < tablesMissing s.mem r va) :
    ∃ label' s', virtual_memory_map r va pa PAGESIZE perm (some pagetable_alloc) s =
        .ok (-1,s') ∧ Invisible K roots o label label' (freeCount s) s s' := by
  have hroot := P.forest.root o r hr
  have hpresent : perm &&& PTE_P ≠ 0 := (present_iff perm).2 (by omega)
  obtain ⟨label',s',hlook,I⟩ :=
    (lookup_loop_spec ho hpresent [0,1,2] P hpo hroot (by simp)).2 hneed
  refine ⟨label',s',?_,I⟩
  rw [map_one r va pa perm _ s (P.aligned hroot) hva hva64 hpa (by omega), if_neg hidx,
    lookup_l4pagetable, hlook]
  simp only [Except.bind, if_true]

end MapPage

end WeensyOS.PageMaps
