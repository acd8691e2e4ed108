import WeensyOS.RangeWalks
import WeensyOS.PageMaps

/-!
# Mapping a range of pages

`virtual_memory_map` with `PTE_P` over a tree of tables of any shape: when it
returns 0 every address of the range is mapped as asked, every other address is
as it was, and the tables still form a tree.
-/

set_option autoImplicit false

namespace WeensyOS.RangeMaps
open WeensyOS.FlatMemory WeensyOS.KernelState WeensyOS.PageTables WeensyOS.CheckedRuns
open WeensyOS.RadixForest WeensyOS.TableWords WeensyOS.PrivateRuns WeensyOS.TreeTables
open WeensyOS.RangeWalks

variable {σ : Type} [MachineMemory σ] {allocator : Option (Allocator σ)}
  {Avail : σ → (ℕ → Prop) → Prop} {Z : Prop} {r : ℕ} {X : ℕ → Prop} {s s' : σ}
  {va pa perm n l4 : ℕ} {last ret : ℤ}

section Indices

theorem index123_div (va : ℕ) : index123 va = Int.bmod ((va / 2097152 : ℕ) : ℤ) 4294967296 := by
  have hshift : va >>> (PAGEOFFBITS+PAGEINDEXBITS) = va / 2097152 := by
    simp only [Nat.shiftRight_eq_div_pow, PAGEOFFBITS, PAGEINDEXBITS, Nat.reduceAdd, Nat.reducePow]
  rw [index123, hshift]
  rfl

/-- Consecutive pages have the same narrowed index when they share their tables. -/
theorem index123_next (va : ℕ) (h : index123 (va+4096) = index123 va) :
    (va+4096) / 2097152 = va / 2097152 := by
  rw [index123_div, index123_div] at h
  have hmod : ∀ x : ℕ, Int.bmod (x : ℤ) 4294967296 % (4294967296 : ℕ) =
      (x : ℤ) % (4294967296 : ℕ) := fun x => Int.bmod_emod
  have hx := hmod ((va+4096) / 2097152)
  rw [h, hmod] at hx
  push_cast at hx
  omega

theorem tables_of_block {va va' : ℕ} (h : va / 2097152 = va' / 2097152) :
    tableIndices va = tableIndices va' := by
  rw [tableIndices_eq_iff, vpage, vpage]
  omega

theorem tables_start (va : ℕ) : tableIndices va <+: indices va := ⟨[index va 3],rfl⟩

end Indices

section Loop

/-- The paths of the pages of a range. -/
def OnRange (n va : ℕ) (q : List Index) : Prop := ∃ k < n, q <+: indices (va+k*4096)

/-- `n` pages from `va` on are mapped to physical pages from `pa` on. -/
structure Mapped (r n va pa perm : ℕ) (m m' : Memory) : Prop where
  inner : ∀ q, q.length ≤ 3 → word m' r q = word m r q ∨
    (OnRange n va q ∧ word m r q &&& PTE_P = 0 ∧ word m' r q % 4096 = 7)
  grants : ∀ k < n, ∀ q, q ≠ [] → q <+: tableIndices (va+k*4096) → Grants perm (word m' r q)
  page : ∀ k < n, word m' r (indices (va+k*4096)) = pa+k*4096+perm
  other : ∀ q, q.length = 4 → (∀ k < n, q ≠ indices (va+k*4096)) → word m' r q = word m r q

/-- The cached table is the one of the page. -/
def Cached (r va perm l4 : ℕ) (m : Memory) : Prop :=
  node m r (tableIndices va) = some l4 ∧
    ∀ q, q ≠ [] → q <+: tableIndices va → Grants perm (word m r q)

/-- Why a page could not be mapped. -/
def Failed (allocator : Option (Allocator σ)) (Z : Prop) (r n va : ℕ) (s s' : σ) : Prop :=
  ∃ k < n, Z ∨ (allocator = none ∧ node (mem s) r (tableIndices (va+k*4096)) = none) ∨
    Exhausted allocator r (tableIndices (va+k*4096)) s'

theorem prefix_length {q t : List Index} {k : ℕ} (h : q <+: t) (ht : t.length = k) :
    q.length ≤ k := ht ▸ h.length_le

/-- One page: a lookup where the cache does not apply, and the entry. -/
theorem page_step (hlaw : ∀ alloc, allocator = some alloc → Lawful alloc Avail)
    (hperm : perm &&& PTE_P ≠ 0) (G : Walkable allocator Avail Z r X s)
    (hcache : index123 va = last → l4 ≠ NULL → Cached r va perm l4 (mem s)) {l4' : ℕ} {s₁ : σ}
    (h : (if index123 va ≠ last then lookup_l4pagetable r va perm allocator s
      else pure (l4,s)) = .ok (l4',s₁)) :
    (∃ X', Walkable allocator Avail Z r X' s₁) ∧
      Linked (fun q => q <+: tableIndices va) r (mem s) (mem s₁) ∧
      (l4' ≠ NULL → Cached r va perm l4' (mem s₁)) ∧
      (l4' = NULL → l4 ≠ NULL ∨ index123 va ≠ last → Z ∨
        (allocator = none ∧ node (mem s₁) r (tableIndices va) = none) ∨
        Exhausted allocator r (tableIndices va) s₁) := by
  by_cases hlast : index123 va ≠ last
  · rw [if_pos hlast] at h
    have W := lookup_spec hlaw G h
    obtain ⟨X',G'⟩ := W.good
    refine ⟨W.good,W.linked,fun hne => ?_,fun hz _ => ?_⟩
    · rcases W.found with ⟨hnode,hgrants⟩ | ⟨hnull,-⟩
      · exact ⟨hnode,fun q hq hpre => hgrants q hpre (List.length_pos_iff.2 hq)⟩
      · exact absurd hnull hne
    · rcases W.found with ⟨hnode,-⟩ | ⟨-,hmiss,hwhy⟩
      · exact Or.inl (G'.null _ (by simp) (hz ▸ hnode))
      · rcases hwhy with hp | hnone | hex
        · exact absurd hp hperm
        · exact Or.inr (Or.inl ⟨hnone,hmiss⟩)
        · exact Or.inr (Or.inr hex)
  · rw [if_neg hlast] at h
    cases h
    exact ⟨⟨X,G⟩,Linked.refl _ _ _,fun hne => hcache (not_not.1 hlast) hne,
      fun hz hne => absurd hz (hne.resolve_right hlast)⟩

theorem Cached.kept {m m' : Memory} {On : List Index → Prop} (C : Cached r va perm l4 m)
    (L : Linked On r m m') : Cached r va perm l4 m' := by
  refine ⟨L.node (by simp) C.1,fun q hq hpre => ?_⟩
  have hlen := prefix_length hpre (tableIndices_length va)
  rw [L.present (by omega) (C.2 q hq hpre).1]
  exact C.2 q hq hpre

/-- The entry of one page. -/
theorem write_step (hlaw : ∀ alloc, allocator = some alloc → Lawful alloc Avail)
    (G : Walkable allocator Avail Z r X s) (hn : node (mem s) r (tableIndices va) = some l4) {v : ℕ}
    (hv : v < 2^64) : Walkable allocator Avail Z r X (setMem s (setEntry (mem s) l4 (L4PAGEINDEX va) v)) ∧
      ∀ q, q.length ≤ 4 → word (mem (setMem s (setEntry (mem s) l4 (L4PAGEINDEX va) v))) r q =
        if q = indices va then v else word (mem s) r q := by
  have hlen : (tableIndices va).length = 3 := rfl
  have hin := G.inside l4 (pages_iff.2 ⟨_,le_rfl,hn⟩)
  have hout : ∀ a, a % PAGESIZE = 0 → ¬X a →
      Agree (mem s) (setEntry (mem s) l4 (L4PAGEINDEX va) v) a PAGESIZE := fun a ha hX =>
    setEntry_agree _ l4 _ v a (pageindex_lt va 3) (G.tree.frame _ l4 le_rfl hn).1 ha
      fun h => hX (h ▸ hin)
  refine ⟨⟨?_,fun alloc hall => (hlaw alloc hall).store _ _ _ (G.avail alloc hall) hout,?_,?_⟩,?_⟩
  · rw [MachineMemory.mem_setMem]
    exact written_tree G.tree hlen hn (index va 3) v
  · intro a ha
    rw [MachineMemory.mem_setMem] at ha
    exact G.inside a ((written_pages G.tree hlen hn (index va 3) v).1 ha)
  · intro q hq hz
    rw [MachineMemory.mem_setMem] at hz
    exact G.null q hq ((written_node G.tree hlen hn (index va 3) v hq).symm.trans hz)
  · intro q hq
    rw [MachineMemory.mem_setMem]
    exact written_word G.tree hlen hn (i := index va 3) hv hq

/-- A page more at the front. -/
theorem Mapped.cons {m m₁ m₂ m' : Memory} (L : Linked (fun q => q <+: tableIndices va) r m m₁)
    (C : Cached r va perm l4 m₁)
    (hw : ∀ q, q.length ≤ 4 → word m₂ r q = if q = indices va then pa+perm else word m₁ r q)
    (M : Mapped r n (va+4096) (pa+4096) perm m₂ m') (hn : n+1 ≤ 512) :
    Mapped r (n+1) va pa perm m m' := by
  have hshift : ∀ k, va+4096+k*4096 = va+(k+1)*4096 := fun k => by omega
  have hnext : ∀ q, OnRange n (va+4096) q → OnRange (n+1) va q := by
    rintro q ⟨k,hk,hq⟩
    exact ⟨k+1,by omega,hshift k ▸ hq⟩
  have hinner₂ : ∀ q, q.length ≤ 3 → word m₂ r q = word m₁ r q := by
    intro q hq
    rw [hw q (by omega), if_neg]
    rintro rfl
    rw [indices_length] at hq
    omega
  -- the pages of the range are different
  have hne : ∀ k < n, indices va ≠ indices (va+4096+k*4096) := by
    intro k hk h
    rw [indices_eq_iff, vpage, vpage] at h
    omega
  constructor
  · intro q hq
    rcases M.inner q hq with h | ⟨hon,habsent,h⟩
    · rw [h, hinner₂ q hq]
      rcases L q (by omega) with h' | ⟨hpre,-,habsent,h'⟩
      · exact Or.inl h'
      · refine Or.inr ⟨⟨0,by omega,?_⟩,habsent,h'⟩
        rw [Nat.zero_mul, Nat.add_zero]
        exact hpre.trans (tables_start va)
    · rw [hinner₂ q hq] at habsent
      rcases L q (by omega) with h' | ⟨-,-,-,h'⟩
      · exact Or.inr ⟨hnext q hon,h' ▸ habsent,h⟩
      · exact absurd habsent (link_present h')
  · intro k hk q hq hpre
    cases k with
    | zero =>
      rw [Nat.zero_mul, Nat.add_zero] at hpre
      have hlen := prefix_length hpre (tableIndices_length va)
      have hg := C.2 q hq hpre
      rcases M.inner q hlen with h | ⟨-,habsent,-⟩
      · rw [h, hinner₂ q hlen]
        exact hg
      · rw [hinner₂ q hlen] at habsent
        exact absurd habsent hg.1
    | succ k => exact M.grants k (by omega) q hq (hshift k ▸ hpre)
  · intro k hk
    cases k with
    | zero =>
      rw [Nat.zero_mul, Nat.add_zero, Nat.add_zero, M.other _ rfl hne, hw _ (by simp), if_pos rfl]
    | succ k =>
      rw [← hshift k, M.page k (by omega)]
      omega
  · intro q hq hout
    have h0 := hout 0 (by omega)
    rw [Nat.zero_mul, Nat.add_zero] at h0
    rw [M.other q hq fun k hk => hshift k ▸ hout (k+1) (by omega), hw q (by omega), if_neg h0]
    exact L.leaf hq

theorem Mapped.nil (r va pa perm : ℕ) (m : Memory) : Mapped r 0 va pa perm m m where
  inner _ _ := Or.inl rfl
  grants _ h := absurd h (Nat.not_lt_zero _)
  page _ h := absurd h (Nat.not_lt_zero _)
  other _ _ _ := rfl

/-- One turn of the loop. -/
theorem map_loop_succ
    (h : virtual_memory_map_loop r perm allocator (n+1) va pa last l4 s = .ok (ret,s')) :
    ∃ l4' s₁, (if index123 va ≠ last then lookup_l4pagetable r va perm allocator s
      else pure (l4,s)) = .ok (l4',s₁) ∧
      (if perm &&& PTE_P ≠ 0 ∧ l4' ≠ NULL then
        virtual_memory_map_loop r perm allocator n ((va+PAGESIZE) % 2^64) ((pa+PAGESIZE) % 2^64)
          (index123 va) l4' (setMem s₁ (setEntry (mem s₁) l4' (L4PAGEINDEX va) (pa ||| perm)))
      else if l4' ≠ NULL then
        virtual_memory_map_loop r perm allocator n ((va+PAGESIZE) % 2^64) ((pa+PAGESIZE) % 2^64)
          (index123 va) l4' (setMem s₁ (setEntry (mem s₁) l4' (L4PAGEINDEX va) perm))
      else if perm &&& PTE_P ≠ 0 then .ok (-1,s₁)
      else virtual_memory_map_loop r perm allocator n ((va+PAGESIZE) % 2^64)
        ((pa+PAGESIZE) % 2^64) (index123 va) l4' s₁) = .ok (ret,s') := by
  rw [virtual_memory_map_loop] at h
  by_cases hlast : index123 va ≠ last
  · rw [if_pos hlast] at h
    cases hx : lookup_l4pagetable r va perm allocator s with
    | error e =>
      rw [hx] at h
      cases h
    | ok x =>
      rw [hx] at h
      refine ⟨x.1,x.2,?_,h⟩
      rw [if_pos hlast]
  · rw [if_neg hlast] at h
    refine ⟨l4,s,?_,h⟩
    rw [if_neg hlast]
    rfl

theorem map_present (hlaw : ∀ alloc, allocator = some alloc → Lawful alloc Avail)
    (hperm : perm &&& PTE_P ≠ 0) (hlt : perm < 4096) (n : ℕ) {va pa l4 : ℕ} {last : ℤ}
    {X : ℕ → Prop} {s : σ} (G : Walkable allocator Avail Z r X s) (hn : n ≤ 512)
    (hva : va+n*4096 ≤ 2^64) (hpa : pa % 4096 = 0) (hend : pa+n*4096 ≤ 0x200000)
    (hcache : index123 va = last → l4 ≠ NULL → Cached r va perm l4 (mem s))
    (hfirst : l4 ≠ NULL ∨ index123 va ≠ last ∨ ret = 0)
    (h : virtual_memory_map_loop r perm allocator n va pa last l4 s = .ok (ret,s')) :
    (ret = 0 ∧ (∃ X', Walkable allocator Avail Z r X' s') ∧ Mapped r n va pa perm (mem s) (mem s')) ∨
      (ret = -1 ∧ Failed allocator Z r n va s s') := by
  induction n generalizing va pa l4 last X s with
  | zero =>
    cases h
    exact Or.inl ⟨rfl,⟨X,G⟩,Mapped.nil _ _ _ _ _⟩
  | succ n ih =>
    have hv : pa+perm < 2^64 := by omega
    obtain ⟨l4',s₁,hstep,h⟩ := map_loop_succ h
    obtain ⟨⟨X₁,G₁⟩,L,hcached,hnull⟩ := page_step hlaw hperm G hcache hstep
    by_cases hz : l4' = NULL
    · rw [if_neg fun hc => hc.2 hz, if_neg (not_not.2 hz), if_pos hperm, Except.ok.injEq,
        Prod.mk.injEq] at h
      obtain ⟨rfl,rfl⟩ := h
      have hwhy : l4 ≠ NULL ∨ index123 va ≠ last := by
        rcases hfirst with h | h | h
        · exact Or.inl h
        · exact Or.inr h
        · cases h
      refine Or.inr ⟨rfl,0,by omega,?_⟩
      rw [Nat.zero_mul, Nat.add_zero]
      refine (hnull hz hwhy).imp_right fun h => h.imp_left fun ⟨hnone,hmiss⟩ => ⟨hnone,?_⟩
      cases hx : node (mem s) r (tableIndices va) with
      | none => rfl
      | some c =>
        rw [L.node (by simp) hx] at hmiss
        cases hmiss
    · rw [if_pos ⟨hperm,hz⟩] at h
      have C := hcached hz
      have hword : pa ||| perm = pa+perm := or_flags pa perm hpa hlt
      rw [hword] at h
      obtain ⟨G₂,hw⟩ := write_step hlaw G₁ C.1 hv
      generalize hs₂ : setMem s₁ (setEntry (mem s₁) l4' (L4PAGEINDEX va) (pa+perm)) = s₂ at h G₂ hw
      have hpa' : (pa+PAGESIZE) % 2^64 = pa+4096 := Nat.mod_eq_of_lt (by simp only [PAGESIZE]; omega)
      rw [hpa'] at h
      cases n with
      | zero =>
        cases h
        exact Or.inl ⟨rfl,⟨X₁,G₂⟩,Mapped.cons L C hw (Mapped.nil _ _ _ _ _) (by omega)⟩
      | succ n =>
        have hva' : (va+PAGESIZE) % 2^64 = va+4096 :=
          Nat.mod_eq_of_lt (by simp only [PAGESIZE]; omega)
        rw [hva'] at h
        have hcache₂ : index123 (va+4096) = index123 va → l4' ≠ NULL →
            Cached r (va+4096) perm l4' (mem s₂) := by
          intro hidx _
          have ht := tables_of_block (index123_next va hidx)
          have hkeep : ∀ q, q.length ≤ 3 → word (mem s₂) r q = word (mem s₁) r q := by
            intro q hq
            rw [hw q (by omega), if_neg]
            rintro rfl
            rw [indices_length] at hq
            omega
          rw [Cached, ht]
          refine ⟨?_,fun q hq hpre => ?_⟩
          · rw [← hs₂, MachineMemory.mem_setMem]
            exact (written_node G₁.tree rfl C.1 (index va 3) _ (by simp)).trans C.1
          · rw [hkeep q (prefix_length hpre (tableIndices_length va))]
            exact C.2 q hq hpre
        rcases ih G₂ (by omega) (by omega) (by omega) (by omega) hcache₂ (Or.inl hz) h with
          ⟨hret,hgood,M⟩ | ⟨hret,k,hk,hwhy⟩
        · exact Or.inl ⟨hret,hgood,Mapped.cons L C hw M (by omega)⟩
        · refine Or.inr ⟨hret,k+1,by omega,?_⟩
          have hshift : va+4096+k*4096 = va+(k+1)*4096 := by omega
          rw [hshift] at hwhy
          refine hwhy.imp_right fun h => h.imp_left fun ⟨hnone,hmiss⟩ => ⟨hnone,?_⟩
          cases hx : node (mem s) r (tableIndices (va+(k+1)*4096)) with
          | none => rfl
          | some c =>
            have hx₁ := L.node (by simp) hx
            have hx₂ : node (mem s₂) r (tableIndices (va+(k+1)*4096)) = some c := by
              rw [← hs₂, MachineMemory.mem_setMem]
              exact (written_node G₁.tree rfl C.1 (index va 3) _ (by simp)).trans hx₁
            rw [hx₂] at hmiss
            cases hmiss

end Loop

section Views

variable {w w' : List Index → ℕ} {e : ℕ}

/-- An entry that is missing on the way makes an address unmapped. -/
theorem view_unmapped (h : ∃ q, q ≠ [] ∧ q <+: indices va ∧ w q &&& PTE_P = 0) :
    view w va = .unmapped := by
  obtain ⟨q,hq,hpre,habsent⟩ := h
  rw [view]
  refine if_neg fun hall => ?_
  obtain ⟨h0,h1,h2,h3⟩ := hall
  have hlen := prefix_length hpre (indices_length va)
  have htake := List.prefix_iff_eq_take.1 hpre
  have hpos := List.length_pos_iff.2 hq
  rw [htake] at habsent
  generalize q.length = k at hlen hpos habsent
  have hk : k = 1 ∨ k = 2 ∨ k = 3 ∨ k = 4 := by omega
  rcases hk with rfl | rfl | rfl | rfl
  · exact h0 habsent
  · exact h1 habsent
  · exact h2 habsent
  · exact h3 habsent

theorem view_congr (h : ∀ q, q ≠ [] → q <+: indices va → w' q = w q) : view w' va = view w va := by
  have h0 : w' [index va 0] = w [index va 0] := h _ (List.cons_ne_nil _ _) ⟨_,rfl⟩
  have h1 : w' [index va 0,index va 1] = w [index va 0,index va 1] :=
    h _ (List.cons_ne_nil _ _) ⟨_,rfl⟩
  have h2 : w' [index va 0,index va 1,index va 2] = w [index va 0,index va 1,index va 2] :=
    h _ (List.cons_ne_nil _ _) ⟨_,rfl⟩
  have h3 : w' [index va 0,index va 1,index va 2,index va 3] =
      w [index va 0,index va 1,index va 2,index va 3] := h _ (List.cons_ne_nil _ _) ⟨[],rfl⟩
  simp only [view, h0, h1, h2, h3]

theorem flag_bit (e i : ℕ) (h : i < 3) : (PTE_FLAGS e).testBit i = e.testBit i := by
  have hmask : Nat.testBit 4095 i = true := by
    have hi : i = 0 ∨ i = 1 ∨ i = 2 := by omega
    rcases hi with rfl | rfl | rfl <;> decide
  rw [PTE_FLAGS, Nat.testBit_and, hmask, Bool.and_true]

theorem bit_ne_zero (e i : ℕ) : e &&& 2^i ≠ 0 ↔ e.testBit i = true := by
  rw [Nat.and_two_pow]
  cases e.testBit i with
  | false => simp
  | true => simp

/-- The four levels together grant what the last one says. -/
theorem perms_granted {e0 e1 e2 e3 : ℕ} (h0 : Grants perm e0) (h1 : Grants perm e1)
    (h2 : Grants perm e2) (h3 : e3 % 4096 = perm) :
    7 &&& PTE_FLAGS e0 &&& PTE_FLAGS e1 &&& PTE_FLAGS e2 &&& PTE_FLAGS e3 = perm &&& 7 := by
  -- bit by bit: an inner entry has every bit that the mapping asks for
  have hin : ∀ {e i}, Grants perm e → i < 3 → perm.testBit i = true → e.testBit i = true := by
    intro e i hg hi hbit
    have hcases : i = 0 ∨ i = 1 ∨ i = 2 := by omega
    rcases hcases with rfl | rfl | rfl
    · exact (bit_ne_zero e 0).1 hg.1
    · exact (bit_ne_zero e 1).1 (hg.2.1 ((bit_ne_zero perm 1).2 hbit))
    · exact (bit_ne_zero e 2).1 (hg.2.2 ((bit_ne_zero perm 2).2 hbit))
  apply Nat.eq_of_testBit_eq
  intro i
  by_cases hi : i < 3
  · have hlast : e3.testBit i = perm.testBit i := by
      have hdec : decide (i < 12) = true := decide_eq_true (by omega)
      rw [← h3, show 4096 = 2^12 from rfl, Nat.testBit_mod_two_pow, hdec, Bool.true_and]
    rw [Nat.testBit_and, Nat.testBit_and, Nat.testBit_and, Nat.testBit_and, Nat.testBit_and,
      flag_bit _ _ hi, flag_bit _ _ hi, flag_bit _ _ hi, flag_bit _ _ hi, hlast]
    cases hp : perm.testBit i with
    | false => rw [Bool.and_false, Bool.false_and]
    | true => rw [hin h0 hi hp, hin h1 hi hp, hin h2 hi hp, Bool.and_true, Bool.and_true,
        Bool.and_true, Bool.and_true, Bool.true_and]
  · have h7 : Nat.testBit 7 i = false :=
      Nat.testBit_eq_false_of_lt (lt_of_lt_of_le (by decide : 7 < 2^3)
        (Nat.pow_le_pow_right (by decide) (not_lt.1 hi)))
    simp only [Nat.testBit_and, h7, Bool.false_and, Bool.and_false]

theorem view_mapped (hg : ∀ q, q ≠ [] → q <+: tableIndices va → Grants perm (w q))
    (ha : pa % 4096 = 0) (hlt : pa < 0x200000) (hp : perm &&& PTE_P ≠ 0) (hperm : perm < 4096)
    (hw : w (indices va) = pa+perm) :
    view w va = ⟨(pa / 4096 : ℕ),pa+va % 4096,perm &&& 7⟩ := by
  have h0 : Grants perm (w [index va 0]) := hg _ (List.cons_ne_nil _ _) ⟨_,rfl⟩
  have h1 : Grants perm (w [index va 0,index va 1]) := hg _ (List.cons_ne_nil _ _) ⟨_,rfl⟩
  have h2 : Grants perm (w [index va 0,index va 1,index va 2]) :=
    hg _ (List.cons_ne_nil _ _) ⟨[],rfl⟩
  have h3 : w [index va 0,index va 1,index va 2,index va 3] = pa+perm := hw
  have hodd := (present_iff perm).1 hp
  have hpres : (pa+perm) &&& PTE_P ≠ 0 := (present_iff _).2 (by omega)
  have haddr : PTE_ADDR (pa+perm) = pa := by
    rw [pte_addr_eq]
    omega
  have hpn : PAGENUMBER (pa+perm) = (pa / 4096 : ℕ) := by
    rw [pagenumber_eq _ (by omega)]
    congr 1
    omega
  rw [view, h3, if_pos ⟨h0.1,h1.1,h2.1,hpres⟩, haddr, hpn, pageoffset_eq,
    perms_granted h0 h1 h2 (by omega)]

end Views

section Calls

variable {sz : ℕ}

/-- What the asserts of `virtual_memory_map` let through. -/
theorem map_asserts (h : virtual_memory_map r va pa sz perm allocator s = .ok (ret,s')) :
    va % 4096 = 0 ∧ sz % 4096 = 0 ∧ ((va+sz) % 2^64 ≥ va ∨ (va+sz) % 2^64 = 0) ∧
      (perm &&& PTE_P ≠ 0 → pa % 4096 = 0 ∧ (pa+sz) % 2^64 ≥ pa ∧
        (pa+sz) % 2^64 ≤ MEMSIZE_PHYSICAL) ∧ perm < 4096 ∧
      virtual_memory_map_loop r perm allocator (sz / PAGESIZE) va pa (-1) NULL s =
        .ok (ret,s') := by
  rw [virtual_memory_map] at h
  obtain ⟨h1,h⟩ := (seq_ok_iff _ _ _).1 h
  obtain ⟨h2,h⟩ := (seq_ok_iff _ _ _).1 h
  obtain ⟨h3,h⟩ := (seq_ok_iff _ _ _).1 h
  rw [kassert_ok_iff] at h1 h2 h3
  refine ⟨h1,h2,h3,?_⟩
  by_cases hp : perm &&& PTE_P ≠ 0
  · rw [if_pos hp] at h
    obtain ⟨h4,h⟩ := (seq_ok_iff _ _ _).1 h
    obtain ⟨h5,h⟩ := (seq_ok_iff _ _ _).1 h
    obtain ⟨h6,h⟩ := (seq_ok_iff _ _ _).1 h
    obtain ⟨h7,h⟩ := (seq_ok_iff _ _ _).1 h
    obtain ⟨-,h⟩ := (seq_ok_iff _ _ _).1 h
    rw [kassert_ok_iff] at h4 h5 h6 h7
    exact ⟨fun _ => ⟨h4,h5,h6⟩,h7,h⟩
  · rw [if_neg hp] at h
    obtain ⟨h7,h⟩ := (seq_ok_iff _ _ _).1 h
    obtain ⟨-,h⟩ := (seq_ok_iff _ _ _).1 h
    rw [kassert_ok_iff] at h7
    exact ⟨fun hp' => absurd hp' hp,h7,h⟩

/-- No range wraps. -/
theorem range_bounds {a sz : ℕ} (ha : a < 2^64) (hsz : sz < 2^64)
    (h : (a+sz) % 2^64 ≥ a ∨ (a+sz) % 2^64 = 0) : a+sz ≤ 2^64 := by
  omega

/-- Where an entry on the path of an address is. -/
theorem path_entry {p : List Index} {i : Index} {a : ℕ} (h : p++[i] <+: indices a) :
    p = (indices a).take p.length ∧ (i : ℕ) = pageindex a p.length := by
  refine ⟨List.prefix_iff_eq_take.1 ((List.prefix_append p [i]).trans h),?_⟩
  have hlen := h.length_le
  rw [List.length_append, List.length_singleton, indices_length] at hlen
  obtain ⟨rest,hrest⟩ := h
  have hi : (indices a)[p.length]? = some i := by
    rw [← hrest, List.append_assoc, List.getElem?_append_right le_rfl, Nat.sub_self]
    rfl
  have hd : (indices a)[p.length]? = some (index a p.length) := by
    generalize p.length = d at hlen
    have hcases : d = 0 ∨ d = 1 ∨ d = 2 ∨ d = 3 := by omega
    rcases hcases with rfl | rfl | rfl | rfl <;> rfl
  rw [hd, Option.some.injEq] at hi
  rw [← hi]
  rfl

/-- Entry `i` of the table `t` of level `d` is one that mapping `sz` bytes sets: the entry of a
page, or the link to a new table. -/
def SetEntry (r va pa sz perm : ℕ) (m m' : Memory) (d t i : ℕ) : Prop :=
  ∃ X < sz, node m' r ((indices (va+X)).take d) = some t ∧ i = pageindex (va+X) d ∧
    if d = 3 then entry m' t i = PTE_ADDR (pa+X) ||| perm
    else ∃ c, entry m' t i = c ||| PTE_P ||| PTE_W ||| PTE_U ∧ TablePage m' r (d+1) c ∧
      ¬Pages m r c

variable {m m' : Memory}

theorem Mapped.node (M : Mapped r n va pa perm m m') {q : List Index} {c : ℕ} (hq : q.length ≤ 3)
    (h : TreeTables.node m r q = some c) : TreeTables.node m' r q = some c := by
  rcases List.eq_nil_or_concat q with rfl | ⟨p,i,rfl⟩
  · exact h
  · rw [List.concat_eq_append] at h hq ⊢
    rcases M.inner _ hq with hw | ⟨-,habsent,-⟩
    · rw [node_snoc, hw, ← node_snoc]
      exact h
    · exact absurd habsent (node_present h)

/-- A table that was not in the tree holds nothing but what the call has set. -/
theorem Mapped.fresh (M : Mapped r n va pa perm m m') (T : TreeAt m' r) (hpa : pa % 4096 = 0)
    (hperm : perm < 4096) {d t i : ℕ} (ht : TablePage m' r d t) (hnew : ¬Pages m r t)
    (hi : i < 512) : entry m' t i = 0 ∨ SetEntry r va pa (n*4096) perm m m' d t i := by
  have hd := table_page_depth ht
  obtain ⟨p,hp,hn⟩ := (table_page_iff hd).1 ht
  have hold : TreeTables.node m r p = none := by
    cases hx : TreeTables.node m r p with
    | none => rfl
    | some x =>
      have hx' := M.node (by omega) hx
      rw [hn, Option.some.injEq] at hx'
      exact absurd (pages_iff.2 ⟨p,by omega,hx' ▸ hx⟩) hnew
  have hw : word m' r (p++[⟨i,hi⟩]) = entry m' t i := word_node hn _
  have hzero : word m r (p++[⟨i,hi⟩]) = 0 := word_missing hold _
  have hlen : (p++[(⟨i,hi⟩ : Index)]).length = d+1 := by simp [hp]
  by_cases hd3 : d = 3
  · by_cases hon : ∃ k < n, p++[⟨i,hi⟩] = indices (va+k*4096)
    · obtain ⟨k,hk,hpath⟩ := hon
      right
      obtain ⟨htake,hidx⟩ := path_entry (hpath ▸ List.prefix_rfl : p++[⟨i,hi⟩] <+: indices (va+k*4096))
      rw [hp] at htake hidx
      refine ⟨k*4096,by omega,htake ▸ hn,hidx,?_⟩
      have haddr : PTE_ADDR (pa+k*4096) = pa+k*4096 := by
        rw [pte_addr_eq]
        omega
      rw [if_pos hd3, ← hw, hpath, M.page k hk, haddr, or_flags _ _ (by omega) hperm]
    · left
      rw [← hw, M.other _ (by omega) fun k hk h => hon ⟨k,hk,h⟩, hzero]
  · rcases M.inner (p++[⟨i,hi⟩]) (by omega) with h | ⟨⟨k,hk,hpre⟩,-,h7⟩
    · left
      rw [← hw, h, hzero]
    · right
      obtain ⟨htake,hidx⟩ := path_entry hpre
      rw [hp] at htake hidx
      refine ⟨k*4096,by omega,htake ▸ hn,hidx,?_⟩
      rw [if_neg hd3]
      rw [hw] at h7
      have hpres : entry m' t i &&& PTE_P ≠ 0 := link_present h7
      have hchild : TreeTables.node m' r (p++[⟨i,hi⟩]) = some (PTE_ADDR (entry m' t i)) := by
        rw [node_snoc, hw]
        exact if_pos hpres
      have halign : PTE_ADDR (entry m' t i) % 4096 = 0 :=
        (T.frame _ _ (by omega) hchild).1
      refine ⟨PTE_ADDR (entry m' t i),?_,.child ht (by omega) hi hpres,?_⟩
      · have haddr : PTE_ADDR (PTE_ADDR (entry m' t i)) = PTE_ADDR (entry m' t i) := by
          rw [pte_addr_eq, pte_addr_eq]
          omega
        have hl := link_word _ halign
        rw [haddr] at hl
        rw [hl, pte_addr_eq]
        omega
      · intro hin
        obtain ⟨q,hq,hqn⟩ := pages_iff.1 hin
        have hqp := T.inj q _ _ hq (by omega) (M.node hq hqn) hchild
        rw [hqp, node_snoc, hzero] at hqn
        cases hqn

/-- Below an absent link every word is zero. -/
theorem word_below {q : List Index} {a : ℕ} (hq : q ≠ []) (hpre : q <+: tableIndices a)
    (habsent : word m r q &&& PTE_P = 0) : word m r (indices a) = 0 := by
  obtain ⟨p,i,rfl⟩ := (List.eq_nil_or_concat q).resolve_left hq
  rw [List.concat_eq_append] at hpre habsent
  have hnone : TreeTables.node m r (p++[i]) = none := by
    rw [node_snoc, child_eq, if_neg (not_not.2 habsent)]
  obtain ⟨rest,hrest⟩ := hpre
  rw [indices_snoc, ← hrest]
  exact word_missing (node_below hnone) _

/-- Links to tables without the page of `a` are invisible at `a`. -/
theorem links_hidden {a : ℕ} (hleaf : word m' r (indices a) = word m r (indices a))
    (hinner : ∀ q, q <+: indices a → q.length ≤ 3 → word m' r q = word m r q ∨
      word m r q &&& PTE_P = 0) :
    virtual_memory_lookup m' r a = virtual_memory_lookup m r a := by
  rw [lookup_view, lookup_view]
  by_cases hsame : ∀ q, q ≠ [] → q <+: indices a → word m' r q = word m r q
  · exact view_congr hsame
  · -- a changed entry was absent, and below it the page is as missing as before
    obtain ⟨q,hq⟩ := not_forall.1 hsame
    rw [Classical.not_imp, Classical.not_imp] at hq
    obtain ⟨hne,hpre,hdiff⟩ := hq
    have hlen := prefix_length hpre (indices_length a)
    have hlen3 : q.length ≠ 4 := by
      intro h4
      rw [hpre.eq_of_length (h4.trans (indices_length a).symm)] at hdiff
      exact hdiff hleaf
    have habsent := (hinner q hpre (by omega)).resolve_left hdiff
    have hpre3 : q <+: tableIndices a :=
      List.prefix_of_prefix_length_le hpre (tables_start a) (by rw [tableIndices_length]; omega)
    have hzero := word_below hne hpre3 habsent
    rw [view_unmapped ⟨q,hne,hpre,habsent⟩]
    refine view_unmapped ⟨indices a,by simp [indices],List.prefix_rfl,?_⟩
    rw [hleaf, hzero]
    rfl

/-- Addresses off the range are looked up as before. -/
theorem Mapped.frame (M : Mapped r n va pa perm m m') {a : ℕ}
    (h : ∀ k < n, indices a ≠ indices (va+k*4096)) :
    virtual_memory_lookup m' r a = virtual_memory_lookup m r a :=
  links_hidden (M.other _ rfl h) fun q _ hq => (M.inner q hq).imp_right fun h => h.2.1

theorem Mapped.lookup (M : Mapped r n va pa perm m m') (hva : va % 4096 = 0)
    (hpa : pa % 4096 = 0) (hend : pa+n*4096 ≤ 0x200000) (hp : perm &&& PTE_P ≠ 0)
    (hperm : perm < 4096) {X : ℕ} (hX : X < n*4096) :
    virtual_memory_lookup m' r (va+X) = ⟨((pa+X) / 4096 : ℕ),pa+X,perm &&& 7⟩ := by
  have hk : X / 4096 < n := by omega
  have hpage : vpage (va+X) = vpage (va+X / 4096*4096) := by
    rw [vpage, vpage]
    omega
  have hpath := (indices_eq_iff _ _).2 hpage
  have htables : tableIndices (va+X) = tableIndices (va+X / 4096*4096) :=
    (tableIndices_eq_iff _ _).2 (by rw [hpage])
  have hword : word m' r (indices (va+X)) = pa+X / 4096*4096+perm := by
    rw [hpath]
    exact M.page _ hk
  have hview := view_mapped (fun q hq hpre => M.grants _ hk q hq (htables ▸ hpre))
    (by omega) (by omega) hp hperm hword
  have hpn : (pa+X / 4096*4096) / 4096 = (pa+X) / 4096 := by omega
  have haddr : pa+X / 4096*4096+(va+X) % 4096 = pa+X := by omega
  rw [lookup_view, hview, hpn, haddr]

theorem map_then_lookup (hlaw : ∀ alloc, allocator = some alloc → Lawful alloc Avail)
    (T : TreeShaped (mem s) r)
    (havail : ∀ alloc, allocator = some alloc → Avail s (Pages (mem s) r))
    (hva : va < 2^64) (hpa : pa < 2^64) (hsz : sz < 2^64) (hperm : perm &&& PTE_P ≠ 0)
    (h : virtual_memory_map r va pa sz perm allocator s = .ok (0,s')) :
    (∀ X < sz, virtual_memory_lookup (mem s') r (va+X) =
        ⟨((pa+X) >>> 12 : ℕ),pa+X,perm &&& (PTE_P ||| PTE_W ||| PTE_U)⟩) ∧
      (∀ a, (∀ X < sz, vpage a ≠ vpage (va+X)) →
        virtual_memory_lookup (mem s') r a = virtual_memory_lookup (mem s) r a) ∧
      TreeShaped (mem s') r ∧
      ∀ d t i, TablePage (mem s') r d t → ¬Pages (mem s) r t → i < NPAGETABLEENTRIES →
        entry (mem s') t i = 0 ∨ SetEntry r va pa sz perm (mem s) (mem s') d t i := by
  obtain ⟨hal,hsize,hwrap,hphys,hlt,hrun⟩ := map_asserts h
  obtain ⟨hpal,hpwrap,hpend⟩ := hphys hperm
  have hend := range_bounds hva hsz hwrap
  have hpa' : pa+sz ≤ 0x200000 := by
    have := range_bounds hpa hsz (Or.inl hpwrap)
    simp only [MEMSIZE_PHYSICAL] at hpend
    omega
  obtain ⟨n,rfl⟩ : ∃ n, sz = n*4096 := ⟨sz / 4096,by omega⟩
  have hpages : n*4096 / PAGESIZE = n := Nat.mul_div_cancel n (by decide)
  rw [hpages] at hrun
  have G : Walkable allocator Avail True r (Pages (mem s) r) s :=
    ⟨T.tree,havail,fun _ ha => ha,fun _ _ _ => trivial⟩
  have hdone := map_present hlaw hperm hlt n G (by omega) hend hpal hpa'
    (fun _ hne => absurd rfl hne) (Or.inr (Or.inr rfl)) hrun
  rcases hdone with ⟨-,⟨X',G'⟩,M⟩ | ⟨hfail,-⟩
  · refine ⟨fun X hX => ?_,fun a ha => ?_,G'.tree.shaped,fun d t i ht hnew hi => ?_⟩
    · rw [Nat.shiftRight_eq_div_pow]
      exact M.lookup hal hpal hpa' hperm hlt hX
    · refine M.frame fun k hk hpath => ?_
      have hX : k*4096 < n*4096 := Nat.mul_lt_mul_of_pos_right hk (by decide)
      exact ha (k*4096) hX ((indices_eq_iff _ _).1 hpath)
    · exact M.fresh G'.tree hpal hlt ht hnew hi
  · cases hfail

/-- A memory with an allocator that hands out one page after the other. -/
structure Bump where
  memory : Memory
  next : ℕ

instance : MachineMemory Bump where
  mem s := s.memory
  setMem s m := { s with memory := m }
  mem_setMem _ _ := rfl
  setMem_mem _ := rfl
  setMem_setMem _ _ _ := rfl

def bump (s : Bump) : ℕ × Bump :=
  if s.next < MEMSIZE_PHYSICAL then (s.next,{ s with next := s.next+PAGESIZE }) else (NULL,s)

/-- The pages from `next` on are free. -/
def BumpAvail (s : Bump) (X : ℕ → Prop) : Prop :=
  s.next % PAGESIZE = 0 ∧ 0 < s.next ∧ ∀ a, X a → a < s.next

theorem bump_lawful : Lawful bump BumpAvail where
  page s X hA hne := by
    rw [bump] at hne ⊢
    by_cases hlt : s.next < MEMSIZE_PHYSICAL
    · rw [if_pos hlt]
      exact ⟨hA.1,hlt,fun hX => lt_irrefl _ (hA.2.2 _ hX)⟩
    · rw [if_neg hlt] at hne
      exact absurd rfl hne
  next s X hA := by
    obtain ⟨halign,hpos,hbelow⟩ := hA
    rw [bump]
    by_cases hlt : s.next < MEMSIZE_PHYSICAL
    · rw [if_pos hlt]
      refine ⟨?_,Nat.add_pos_left hpos _,fun a ha => ?_⟩
      · simp only [PAGESIZE] at halign ⊢
        omega
      · rcases ha with ha | rfl
        · exact (hbelow a ha).trans (Nat.lt_add_of_pos_right (by decide))
        · exact Nat.lt_add_of_pos_right (by decide)
    · rw [if_neg hlt]
      refine ⟨halign,hpos,fun a ha => ?_⟩
      rcases ha with ha | rfl
      · exact hbelow a ha
      · exact hpos
  kept s X a _ _ := by
    rw [bump]
    by_cases hlt : s.next < MEMSIZE_PHYSICAL
    · rw [if_pos hlt]
      exact Agree.refl _ _ _
    · rw [if_neg hlt]
      exact Agree.refl _ _ _
  store _ _ _ hA _ := hA

theorem bump_contract (alloc : Allocator Bump) (h : some bump = some alloc) :
    Lawful alloc BumpAvail := Option.some.inj h ▸ bump_lawful

theorem blank_entry (pt i : ℕ) : entry (fun _ => 0) pt i = 0 := by
  simp [entry, load64, loadLE]

theorem blank_table {r d a : ℕ} (T : TablePage (fun _ => 0) r d a) : a = r ∧ d = 0 := by
  cases T with
  | root => exact ⟨rfl,rfl⟩
  | child T hd hi hp =>
    rw [blank_entry] at hp
    exact absurd rfl hp

theorem blank_tree (hr : r % 4096 = 0) (hlt : r < 0x200000) : TreeShaped (fun _ => 0) r where
  frame d a T := by
    rw [(blank_table T).1]
    exact ⟨hr,hlt⟩
  root d a i _ _ _ hp := by
    rw [blank_entry] at hp
    exact absurd rfl hp
  once d a i _ _ _ _ _ _ _ _ _ hp := by
    rw [blank_entry] at hp
    exact absurd rfl hp

/-- An empty table at page 1, and free pages from page 2 on. -/
def emptyTables : Bump := ⟨fun _ => 0,0x2000⟩

theorem emptyTables_avail : BumpAvail emptyTables (Pages (mem emptyTables) 0x1000) := by
  refine ⟨rfl,by decide,fun a ⟨d,ha⟩ => ?_⟩
  rw [(blank_table ha).1]
  decide

/-- What a call has returned. -/
def returned {σ : Type} : Checked (ℤ × σ) → Option ℤ
  | .ok (r,_) => some r
  | .error _ => none

omit [MachineMemory σ] in
theorem returned_some {x : Checked (ℤ × σ)} (h : returned x = some ret) :
    ∃ s', x = .ok (ret,s') := by
  cases x with
  | error e => cases h
  | ok y =>
    cases h
    exact ⟨y.2,rfl⟩

/-- Tables for the second 2 MiB, and free pages from page 5 on. -/
def blockTables : Bump :=
  let m := setEntry (fun _ => 0) 0x1000 0 0x2007
  let m := setEntry m 0x2000 0 0x3007
  ⟨setEntry m 0x3000 1 0x4007,0x5000⟩

theorem block_chain : TableChain (mem blockTables) (fun d => (d+1)*0x1000)
    (fun d => if d = 2 then 1 else 0) where
  frame d hd := by
    simp only [PAGESIZE, MEMSIZE_PHYSICAL]
    omega
  apart d _ d' _ h := by omega
  link d hd i hi := by
    have hcases : d = 0 ∨ d = 1 ∨ d = 2 := by omega
    change entry (setEntry (setEntry (setEntry (fun _ => 0) 0x1000 0 0x2007) 0x2000 0 0x3007)
      0x3000 1 0x4007) ((d+1)*0x1000) i = _
    rw [entry_setEntry_if rfl (by omega) (by decide) hi (by decide),
      entry_setEntry_if rfl (by omega) (by decide) hi (by decide),
      entry_setEntry_if rfl (by omega) (by decide) hi (by decide), blank_entry]
    rcases hcases with rfl | rfl | rfl <;> simp

theorem block_avail : BumpAvail blockTables (Pages (mem blockTables) 0x1000) := by
  refine ⟨rfl,by decide,fun a ⟨d,T⟩ => ?_⟩
  obtain ⟨hd,rfl⟩ := block_chain.page T
  change (d+1)*0x1000 < 0x5000
  omega
/-- Two pages on both sides of a block, the second in a new table. -/
theorem pages_mapped : ∃ s', virtual_memory_map 0x1000 0x3FF000 0x8000 0x2000 7 (some bump)
    blockTables = .ok (0,s') ∧
      virtual_memory_lookup (mem s') 0x1000 0x3FF123 = ⟨8,0x8123,7⟩ ∧
      virtual_memory_lookup (mem s') 0x1000 0x400123 = ⟨9,0x9123,7⟩ := by
  have hret : returned (virtual_memory_map 0x1000 0x3FF000 0x8000 0x2000 7 (some bump)
    blockTables) = some 0 := by decide +kernel
  obtain ⟨s',hs'⟩ := returned_some hret
  have hmap := map_then_lookup bump_contract block_chain.tree (fun alloc _ => block_avail)
    (by decide) (by decide) (by decide) (by decide) hs'
  exact ⟨s',hs',hmap.1 0x123 (by decide),hmap.1 0x1123 (by decide)⟩

end Calls

end WeensyOS.RangeMaps
