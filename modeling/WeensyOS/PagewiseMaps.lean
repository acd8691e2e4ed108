import WeensyOS.RangeMaps

/-!
# Mapping page by page

`virtual_memory_map` looks a table up only when it comes to a new block of 512
pages. It does the same as mapping the pages one by one, each with a lookup of
its own, whether the call succeeds or fails.
-/

set_option autoImplicit false

namespace WeensyOS.PagewiseMaps
open WeensyOS.FlatMemory WeensyOS.KernelState WeensyOS.PageTables WeensyOS.CheckedRuns
open WeensyOS.RadixForest WeensyOS.TableWords WeensyOS.PrivateRuns WeensyOS.TreeTables
open WeensyOS.RangeWalks WeensyOS.RangeMaps

variable {σ : Type} [MachineMemory σ] {allocator : Option (Allocator σ)}
  {Avail : σ → (ℕ → Prop) → Prop} {Z : Prop} {r : ℕ} {X : ℕ → Prop} {s s' : σ}
  {va pa perm n l4 : ℕ} {last : ℤ}

/-- One page after the other, up to the first that fails. -/
def map_pages (r perm : ℕ) (allocator : Option (Allocator σ)) : ℕ → ℕ → ℕ → σ → Checked (ℤ × σ)
  | 0, _, _, s => .ok (0,s)
  | n+1, va, pa, s => do
    let (ret,s) ← virtual_memory_map r va pa PAGESIZE perm allocator s
    if ret = 0 then map_pages r perm allocator n ((va+PAGESIZE) % 2^64) ((pa+PAGESIZE) % 2^64) s
    else .ok (ret,s)

section Lookups

theorem check_granted {pe : ℕ} (hg : Grants perm pe) (hlt : PTE_ADDR pe < MEMSIZE_PHYSICAL) :
    lookup_l4pagetable_check perm pe = .ok () := by
  obtain ⟨-,hw,hu⟩ := hg
  rw [lookup_l4pagetable_check, kassert, if_pos hlt]
  by_cases hW : perm &&& PTE_W ≠ 0
  · by_cases hU : perm &&& PTE_U ≠ 0
    · rw [if_pos hW, if_pos hU, kassert, if_pos (hw hW), kassert, if_pos (hu hU)]
      rfl
    · rw [if_pos hW, if_neg hU, kassert, if_pos (hw hW)]
      rfl
  · by_cases hU : perm &&& PTE_U ≠ 0
    · rw [if_neg hW, if_pos hU, kassert, if_pos (hu hU)]
      rfl
    · rw [if_neg hW, if_neg hU]
      rfl

/-- A walk along tables that are there changes nothing. -/
theorem walk_present {p t : List Index} (levels : List ℕ) {pt : ℕ} (T : TreeAt (mem s) r)
    (hn : node (mem s) r p = some pt) (ht : p++levels.map (index va) = t) (hlen : t.length = 3)
    (hl4 : node (mem s) r t = some l4)
    (hg : ∀ q, q <+: t → p.length < q.length → Grants perm (word (mem s) r q)) :
    lookup_l4pagetable_loop va perm allocator levels pt s = .ok (l4,s) := by
  induction levels generalizing p pt with
  | nil =>
    rw [List.map_nil, List.append_nil] at ht
    subst ht
    rw [hn, Option.some.injEq] at hl4
    rw [hl4]
    rfl
  | cons l levels ih =>
    have hpre : p++[index va l] <+: t := ⟨levels.map (index va),by simp [← ht]⟩
    have hshort := hpre.length_le
    rw [List.length_append, List.length_singleton, hlen] at hshort
    have hgrant := hg _ hpre (by simp)
    have hword : entry (mem s) pt (PAGEINDEX va l) = word (mem s) r (p++[index va l]) :=
      (word_node hn (index va l)).symm
    have hnext : node (mem s) r (p++[index va l]) =
        some (PTE_ADDR (word (mem s) r (p++[index va l]))) := by
      rw [node_snoc]
      exact if_pos hgrant.1
    have hframe := T.frame _ _ (by simpa using hshort) hnext
    have hentry : lookup_l4pagetable_entry va perm allocator l pt s =
        .ok (some (word (mem s) r (p++[index va l])),s) := by
      simp only [lookup_l4pagetable_entry, hword]
      rw [if_pos hgrant.1]
    have hrest := ih hnext (by simp [← ht]) fun q hq hlt => hg q hq (by
      rw [List.length_append, List.length_singleton] at hlt
      omega)
    simp only [lookup_l4pagetable_loop, hentry, bind, Except.bind,
      check_granted hgrant hframe.2, hrest]

/-- The table in the cache is found again. -/
theorem cached_lookup (T : TreeAt (mem s) r) (C : Cached r va perm l4 (mem s)) :
    lookup_l4pagetable r va perm allocator s = .ok (l4,s) :=
  walk_present (p := []) [0,1,2] T rfl rfl rfl C.1 fun q hq hlt =>
    C.2 q (List.length_pos_iff.1 hlt) hq

/-- A lookup depends on the block of the address. -/
theorem lookup_block {va' : ℕ} (h : va / 2097152 = va' / 2097152) (perm : ℕ)
    (allocator : Option (Allocator σ)) (s : σ) :
    lookup_l4pagetable r va perm allocator s = lookup_l4pagetable r va' perm allocator s := by
  have hpath := tables_of_block h
  simp only [tableIndices, List.map_cons, List.map_nil, List.cons.injEq, and_true] at hpath
  obtain ⟨h0,h1,h2⟩ := hpath
  have h0' : PAGEINDEX va 0 = PAGEINDEX va' 0 := congrArg Fin.val h0
  have h1' : PAGEINDEX va 1 = PAGEINDEX va' 1 := congrArg Fin.val h1
  have h2' : PAGEINDEX va 2 = PAGEINDEX va' 2 := congrArg Fin.val h2
  simp only [lookup_l4pagetable, lookup_l4pagetable_loop, lookup_l4pagetable_entry, h0', h1', h2']

end Lookups

section Pages

/-- What is done with the table of a page. -/
def page_write (perm va pa l4 : ℕ) (s : σ) : ℤ × σ :=
  if perm &&& PTE_P ≠ 0 ∧ l4 ≠ NULL then
    (0,setMem s (setEntry (mem s) l4 (L4PAGEINDEX va) (pa ||| perm)))
  else if l4 ≠ NULL then (0,setMem s (setEntry (mem s) l4 (L4PAGEINDEX va) perm))
  else if perm &&& PTE_P ≠ 0 then (-1,s)
  else (0,s)

/-- A call whose asserts hold. -/
structure Asserted (r n va pa perm : ℕ) : Prop where
  va_aligned : va % 4096 = 0
  va_end : va+n*4096 ≤ 2^64
  frames : perm &&& PTE_P ≠ 0 → pa % 4096 = 0 ∧ pa+n*4096 ≤ 0x200000
  perm_small : perm < 4096
  table_aligned : r % 4096 = 0

theorem Asserted.one (A : Asserted r (n+1) va pa perm) : Asserted r 1 va pa perm where
  va_aligned := A.va_aligned
  va_end := by
    have := A.va_end
    rw [Nat.one_mul]
    omega
  frames hp := by
    have := A.frames hp
    rw [Nat.one_mul]
    omega
  perm_small := A.perm_small
  table_aligned := A.table_aligned

theorem Asserted.next (A : Asserted r (n+1+1) va pa perm) :
    Asserted r (n+1) (va+4096) ((pa+PAGESIZE) % 2^64) perm where
  va_aligned := by
    have := A.va_aligned
    omega
  va_end := by
    have := A.va_end
    omega
  frames hp := by
    have := A.frames hp
    simp only [PAGESIZE]
    omega
  perm_small := A.perm_small
  table_aligned := A.table_aligned

/-- A cache that a lookup would give as well. -/
def Valid (r va perm : ℕ) (allocator : Option (Allocator σ)) (last : ℤ) (l4 : ℕ) (s : σ) : Prop :=
  index123 va = last → lookup_l4pagetable r va perm allocator s = .ok (l4,s)

/-- The rest of the loop behind the write. -/
theorem write_turn (n va pa perm : ℕ) (x : ℕ × σ) :
    (if perm &&& PTE_P ≠ 0 ∧ x.1 ≠ NULL then
      virtual_memory_map_loop r perm allocator n ((va+PAGESIZE) % 2^64) ((pa+PAGESIZE) % 2^64)
        (index123 va) x.1 (setMem x.2 (setEntry (mem x.2) x.1 (L4PAGEINDEX va) (pa ||| perm)))
    else if x.1 ≠ NULL then
      virtual_memory_map_loop r perm allocator n ((va+PAGESIZE) % 2^64) ((pa+PAGESIZE) % 2^64)
        (index123 va) x.1 (setMem x.2 (setEntry (mem x.2) x.1 (L4PAGEINDEX va) perm))
    else if perm &&& PTE_P ≠ 0 then .ok (-1,x.2)
    else virtual_memory_map_loop r perm allocator n ((va+PAGESIZE) % 2^64)
      ((pa+PAGESIZE) % 2^64) (index123 va) x.1 x.2) =
    if (page_write perm va pa x.1 x.2).1 = 0 then
      virtual_memory_map_loop r perm allocator n ((va+PAGESIZE) % 2^64) ((pa+PAGESIZE) % 2^64)
        (index123 va) x.1 (page_write perm va pa x.1 x.2).2
    else .ok (page_write perm va pa x.1 x.2) := by
  rw [page_write]
  by_cases hset : perm &&& PTE_P ≠ 0 ∧ x.1 ≠ NULL
  · rw [if_pos hset, if_pos hset, if_pos rfl]
  · rw [if_neg hset, if_neg hset]
    by_cases hclear : x.1 ≠ NULL
    · rw [if_pos hclear, if_pos hclear, if_pos rfl]
    · rw [if_neg hclear, if_neg hclear]
      by_cases hfail : perm &&& PTE_P ≠ 0
      · rw [if_pos hfail, if_pos hfail, if_neg (show ¬(-1 : ℤ) = 0 by decide)]
      · rw [if_neg hfail, if_neg hfail, if_pos rfl]

theorem loop_turn (V : Valid r va perm allocator last l4 s) :
    virtual_memory_map_loop r perm allocator (n+1) va pa last l4 s =
      lookup_l4pagetable r va perm allocator s >>= fun x =>
        if (page_write perm va pa x.1 x.2).1 = 0 then
          virtual_memory_map_loop r perm allocator n ((va+PAGESIZE) % 2^64) ((pa+PAGESIZE) % 2^64)
            (index123 va) x.1 (page_write perm va pa x.1 x.2).2
        else .ok (page_write perm va pa x.1 x.2) := by
  rw [virtual_memory_map_loop]
  by_cases hlast : index123 va ≠ last
  · rw [if_pos hlast]
    cases lookup_l4pagetable r va perm allocator s with
    | error e => rfl
    | ok x => exact write_turn n va pa perm x
  · rw [if_neg hlast, V (not_not.1 hlast)]
    exact write_turn n va pa perm (l4,s)

/-- The asserts of a call. -/
theorem map_asserted (A : Asserted r n va pa perm) (hpa : pa < 2^64) :
    virtual_memory_map r va pa (n*PAGESIZE) perm allocator s =
      virtual_memory_map_loop r perm allocator n va pa (-1) NULL s := by
  obtain ⟨hva,hend,hframes,hperm,hr⟩ := A
  have hsize : n*PAGESIZE % PAGESIZE = 0 := Nat.mul_mod_left _ _
  have hpages : n*PAGESIZE / PAGESIZE = n := Nat.mul_div_cancel n (by decide)
  have hwrap : (va+n*PAGESIZE) % 2^64 ≥ va ∨ (va+n*PAGESIZE) % 2^64 = 0 := by
    simp only [PAGESIZE]
    omega
  rw [virtual_memory_map, hpages]
  simp only [kassert, hva, hsize, hwrap, hperm, hr, if_true]
  by_cases hp : perm &&& PTE_P ≠ 0
  · obtain ⟨halign,hfit⟩ := hframes hp
    have h1 : (pa+n*PAGESIZE) % 2^64 ≥ pa := by
      simp only [PAGESIZE]
      omega
    have h2 : (pa+n*PAGESIZE) % 2^64 ≤ MEMSIZE_PHYSICAL := by
      simp only [PAGESIZE, MEMSIZE_PHYSICAL]
      omega
    simp only [if_pos hp, halign, h1, h2, if_true]
    rfl
  · simp only [if_neg hp]
    rfl

/-- A call for one page, away from the start value of the cache. -/
theorem map_page (A : Asserted r 1 va pa perm) (hpa : pa < 2^64) (htop : index123 va ≠ -1) :
    virtual_memory_map r va pa PAGESIZE perm allocator s =
      lookup_l4pagetable r va perm allocator s >>= fun x => .ok (page_write perm va pa x.1 x.2) := by
  have hone : virtual_memory_map r va pa (1*PAGESIZE) perm allocator s = _ := map_asserted A hpa
  rw [Nat.one_mul] at hone
  rw [hone, loop_turn fun h => absurd h htop]
  congr 1
  funext x
  split_ifs with hret
  · rw [virtual_memory_map_loop, ← hret]
  · rfl

end Pages

section Turns

/-- The pages behind the first one. -/
theorem tops_succ (htop : ∀ k < n+1, index123 (va+k*4096) ≠ -1) :
    index123 va ≠ -1 ∧ ∀ k < n, index123 (va+4096+k*4096) ≠ -1 := by
  refine ⟨?_,fun k hk => ?_⟩
  · have h0 := htop 0 (Nat.succ_pos n)
    rwa [Nat.zero_mul, Nat.add_zero] at h0
  · have hshift : va+4096+k*4096 = va+(k+1)*4096 := by omega
    rw [hshift]
    exact htop (k+1) (Nat.succ_lt_succ hk)

/-- Before the last page the address does not wrap. -/
theorem Asserted.next_va (A : Asserted r (n+2) va pa perm) :
    (va+PAGESIZE) % 2^64 = va+4096 := by
  have hend := A.va_end
  exact Nat.mod_eq_of_lt (by simp only [PAGESIZE]; omega)

/-- After a turn the cache is valid for the next page of its block. -/
theorem turn_valid (hlaw : ∀ alloc, allocator = some alloc → Lawful alloc Avail)
    (G : Walkable allocator Avail Z r X s) (hpa : pa < 2^64) (hperm : perm < 4096) {s₁ : σ}
    (h : lookup_l4pagetable r va perm allocator s = .ok (l4,s₁))
    (hret : (page_write perm va pa l4 s₁).1 = 0) :
    (∃ X', Walkable allocator Avail Z r X' (page_write perm va pa l4 s₁).2) ∧
      lookup_l4pagetable r va perm allocator (page_write perm va pa l4 s₁).2 =
        .ok (l4,(page_write perm va pa l4 s₁).2) := by
  have W := lookup_spec hlaw G h
  obtain ⟨X₁,G₁⟩ := W.good
  by_cases hz : l4 ≠ NULL
  · have C : Cached r va perm l4 (mem s₁) := by
      rcases W.found with ⟨hnode,hgrants⟩ | ⟨hnull,-⟩
      · exact ⟨hnode,fun q hq hpre => hgrants q hpre (List.length_pos_iff.2 hq)⟩
      · exact absurd hnull hz
    have hwritten : ∀ v < 2^64,
        (∃ X', Walkable allocator Avail Z r X' (setMem s₁ (setEntry (mem s₁) l4 (L4PAGEINDEX va) v))) ∧
        lookup_l4pagetable r va perm allocator (setMem s₁ (setEntry (mem s₁) l4 (L4PAGEINDEX va) v)) =
          .ok (l4,setMem s₁ (setEntry (mem s₁) l4 (L4PAGEINDEX va) v)) := by
      intro v hv
      obtain ⟨G₂,hw⟩ := write_step hlaw G₁ C.1 hv
      refine ⟨⟨X₁,G₂⟩,cached_lookup G₂.tree ⟨?_,fun q hq hpre => ?_⟩⟩
      · rw [MachineMemory.mem_setMem]
        exact (written_node G₁.tree rfl C.1 (index va 3) v (by simp)).trans C.1
      · have hlen := prefix_length hpre (tableIndices_length va)
        rw [hw q (by omega), if_neg]
        · exact C.2 q hq hpre
        · rintro rfl
          rw [indices_length] at hlen
          omega
    rw [page_write]
    by_cases hp : perm &&& PTE_P ≠ 0
    · rw [if_pos ⟨hp,hz⟩]
      exact hwritten _ (Nat.or_lt_two_pow hpa (hperm.trans (by norm_num)))
    · rw [if_neg fun h => hp h.1, if_pos hz]
      exact hwritten _ (hperm.trans (by norm_num))
  · have hnull : l4 = NULL := not_not.1 hz
    have hp : ¬perm &&& PTE_P ≠ 0 := by
      intro hp
      rw [page_write, if_neg fun h => h.2 hnull, if_neg hz, if_pos hp] at hret
      exact absurd hret (show ¬(-1 : ℤ) = 0 by decide)
    have hsame := W.same (not_not.1 hp)
    rw [page_write, if_neg fun h => hp h.1, if_neg hz, if_neg hp]
    subst hsame
    exact ⟨⟨X₁,G₁⟩,h⟩

/-- The loop with a valid cache maps page by page. -/
theorem loop_pages (hlaw : ∀ alloc, allocator = some alloc → Lawful alloc Avail) (n : ℕ)
    {va pa l4 : ℕ} {last : ℤ} {X : ℕ → Prop} {s : σ} (G : Walkable allocator Avail Z r X s)
    (A : Asserted r n va pa perm) (hpa : pa < 2^64)
    (htop : ∀ k < n, index123 (va+k*4096) ≠ -1) (V : Valid r va perm allocator last l4 s) :
    virtual_memory_map_loop r perm allocator n va pa last l4 s =
      map_pages r perm allocator n va pa s := by
  induction n generalizing va pa l4 last X s with
  | zero => rfl
  | succ n ih =>
    obtain ⟨h0,hnext⟩ := tops_succ htop
    rw [loop_turn V, map_pages, map_page A.one hpa h0]
    cases hlookup : lookup_l4pagetable r va perm allocator s with
    | error e => rfl
    | ok x =>
      obtain ⟨l4',s₁⟩ := x
      change (if (page_write perm va pa l4' s₁).1 = 0 then _ else _) =
        if (page_write perm va pa l4' s₁).1 = 0 then _ else _
      by_cases hret : (page_write perm va pa l4' s₁).1 = 0
      · rw [if_pos hret, if_pos hret]
        cases n with
        | zero => rfl
        | succ n =>
          obtain ⟨⟨X₂,G₂⟩,hagain⟩ := turn_valid hlaw G hpa A.perm_small hlookup hret
          rw [A.next_va]
          exact ih G₂ A.next (Nat.mod_lt _ (by norm_num)) hnext fun hidx => by
            rw [lookup_block (index123_next va hidx)]
            exact hagain
      · rw [if_neg hret, if_neg hret]
        rfl

end Turns

section Results

variable {sz sz' : ℕ}

theorem map_pages_good (hlaw : ∀ alloc, allocator = some alloc → Lawful alloc Avail) (n : ℕ)
    {va pa : ℕ} {X : ℕ → Prop} {s : σ} (G : Walkable allocator Avail Z r X s)
    (A : Asserted r n va pa perm) (hpa : pa < 2^64) (htop : ∀ k < n, index123 (va+k*4096) ≠ -1)
    (h : map_pages r perm allocator n va pa s = .ok (0,s')) :
    ∃ X', Walkable allocator Avail Z r X' s' := by
  induction n generalizing va pa X s with
  | zero =>
    cases h
    exact ⟨X,G⟩
  | succ n ih =>
    obtain ⟨h0,hnext⟩ := tops_succ htop
    rw [map_pages, map_page A.one hpa h0] at h
    obtain ⟨y,hy,h⟩ := (bind_ok_iff _ _ _).1 h
    obtain ⟨⟨l4,s₁⟩,hlookup,hwrite⟩ := (bind_ok_iff _ _ _).1 hy
    cases hwrite
    change (if (page_write perm va pa l4 s₁).1 = 0 then _ else _) = _ at h
    by_cases hret : (page_write perm va pa l4 s₁).1 = 0
    · obtain ⟨⟨X₂,G₂⟩,-⟩ := turn_valid hlaw G hpa A.perm_small hlookup hret
      rw [if_pos hret] at h
      cases n with
      | zero =>
        cases h
        exact ⟨X₂,G₂⟩
      | succ n =>
        rw [A.next_va] at h
        exact ih G₂ A.next (Nat.mod_lt _ (by norm_num)) hnext h
    · rw [if_neg hret, Except.ok.injEq, Prod.mk.injEq] at h
      exact absurd h.1 hret

theorem map_pages_add (n n' va pa : ℕ) (s : σ) (hva : va < 2^64) (hpa : pa < 2^64) :
    map_pages r perm allocator (n+n') va pa s =
      map_pages r perm allocator n va pa s >>= fun x =>
        if x.1 = 0 then map_pages r perm allocator n' ((va+n*PAGESIZE) % 2^64)
          ((pa+n*PAGESIZE) % 2^64) x.2
        else .ok x := by
  induction n generalizing va pa s with
  | zero =>
    rw [Nat.zero_add, Nat.zero_mul, Nat.add_zero, Nat.add_zero, Nat.mod_eq_of_lt hva,
      Nat.mod_eq_of_lt hpa]
    rfl
  | succ n ih =>
    have hcount : n+1+n' = n+n'+1 := by omega
    have hshift : ∀ a, ((a+PAGESIZE) % 2^64+n*PAGESIZE) % 2^64 = (a+(n+1)*PAGESIZE) % 2^64 := by
      intro a
      rw [Nat.mod_add_mod]
      congr 1
      ring
    rw [hcount, map_pages, map_pages, bind_assoc]
    congr 1
    funext x
    by_cases hret : x.1 = 0
    · simp only [if_pos hret]
      rw [ih _ _ _ (Nat.mod_lt _ (by norm_num)) (Nat.mod_lt _ (by norm_num)), hshift, hshift]
    · simp only [if_neg hret]
      change _ = if x.1 = 0 then _ else _
      rw [if_neg hret]

/-- The call does what its pages do. -/
theorem map_pages_eq (hlaw : ∀ alloc, allocator = some alloc → Lawful alloc Avail)
    (G : Walkable allocator Avail Z r X s) (A : Asserted r n va pa perm) (hpa : pa < 2^64)
    (htop : ∀ k < n, index123 (va+k*4096) ≠ -1) :
    virtual_memory_map r va pa (n*PAGESIZE) perm allocator s =
      map_pages r perm allocator n va pa s := by
  rw [map_asserted A hpa]
  cases n with
  | zero => rfl
  | succ n => exact loop_pages hlaw (n+1) G A hpa htop fun h => absurd h (tops_succ htop).1

theorem Asserted.rest {n' : ℕ} (A : Asserted r (n+n') va pa perm) :
    Asserted r n va pa perm ∧ Asserted r n' ((va+n*PAGESIZE) % 2^64) ((pa+n*PAGESIZE) % 2^64) perm := by
  obtain ⟨hva,hend,hframes,hperm,hr⟩ := A
  have hle : n*4096 ≤ (n+n')*4096 := Nat.mul_le_mul_right _ (Nat.le_add_right n n')
  refine ⟨⟨hva,(Nat.add_le_add_left hle va).trans hend,fun hp => ⟨(hframes hp).1,
    (Nat.add_le_add_left hle pa).trans (hframes hp).2⟩,hperm,hr⟩,?_⟩
  rw [Nat.add_mul] at hend hframes
  simp only [PAGESIZE]
  exact ⟨by omega,by omega,fun hp => by have := hframes hp; omega,hperm,hr⟩

/-- Mapping a range is mapping its pages one by one, with the same result and the same memory, and
a range may be mapped in two parts. Bits 21 to 52 of the addresses are not all ones. -/
theorem map_page_by_page (hlaw : ∀ alloc, allocator = some alloc → Lawful alloc Avail)
    (T : TreeShaped (mem s) r)
    (havail : ∀ alloc, allocator = some alloc → Avail s (Pages (mem s) r)) {n n' : ℕ}
    (A : Asserted r (n+n') va pa perm) (hva : va < 2^64) (hpa : pa < 2^64)
    (htop : ∀ k < n+n', index123 (va+k*4096) ≠ -1) :
    virtual_memory_map r va pa ((n+n')*PAGESIZE) perm allocator s =
        map_pages r perm allocator (n+n') va pa s ∧
    virtual_memory_map r va pa ((n+n')*PAGESIZE) perm allocator s =
      (virtual_memory_map r va pa (n*PAGESIZE) perm allocator s >>= fun x =>
        if x.1 = 0 then virtual_memory_map r ((va+n*PAGESIZE) % 2^64) ((pa+n*PAGESIZE) % 2^64)
          (n'*PAGESIZE) perm allocator x.2
        else .ok x) := by
  have G : Walkable allocator Avail True r (Pages (mem s) r) s :=
    ⟨T.tree,havail,fun _ ha => ha,fun _ _ _ => trivial⟩
  have hall := map_pages_eq hlaw G A hpa htop
  obtain ⟨A₁,A₂⟩ := A.rest
  have hfirst : ∀ k < n, index123 (va+k*4096) ≠ -1 := fun k hk => htop k (by omega)
  refine ⟨hall,?_⟩
  rw [hall, map_pages_eq hlaw G A₁ hpa hfirst, map_pages_add n n' va pa s hva hpa]
  cases hrun : map_pages r perm allocator n va pa s with
  | error e => rfl
  | ok x =>
    change (if x.1 = 0 then _ else _) = if x.1 = 0 then _ else _
    by_cases hret : x.1 = 0
    · have hdone : map_pages r perm allocator n va pa s = .ok (0,x.2) := by
        rw [hrun, ← hret]
      obtain ⟨X',G'⟩ := map_pages_good hlaw n G A₁ hpa hfirst hdone
      rw [if_pos hret, if_pos hret, map_pages_eq hlaw G' A₂ (Nat.mod_lt _ (by norm_num))]
      intro k hk
      have hend := A.va_end
      have hshift : (va+n*PAGESIZE) % 2^64+k*4096 = va+(n+k)*4096 := by
        simp only [PAGESIZE]
        omega
      rw [hshift]
      exact htop (n+k) (by omega)
    · rw [if_neg hret, if_neg hret]

/-- Two pages on both sides of a block, in one call and in two. -/
theorem two_pages_mapped : virtual_memory_map 0x1000 0x3FF000 0x5000 (2*PAGESIZE) 7 (some bump)
    emptyTables = (virtual_memory_map 0x1000 0x3FF000 0x5000 PAGESIZE 7 (some bump) emptyTables >>=
      fun x => if x.1 = 0 then virtual_memory_map 0x1000 0x400000 0x6000 PAGESIZE 7 (some bump) x.2
        else .ok x) := by
  have htop : ∀ k < 1+1, index123 (0x3FF000+k*4096) ≠ -1 := by decide
  have A : Asserted 0x1000 (1+1) 0x3FF000 0x5000 7 :=
    ⟨by norm_num,by norm_num,fun _ => by norm_num,by norm_num,by norm_num⟩
  exact (map_page_by_page bump_contract (blank_tree rfl (by decide))
    (fun alloc _ => emptyTables_avail) A (by norm_num) (by norm_num) htop).2

end Results

end WeensyOS.PagewiseMaps
