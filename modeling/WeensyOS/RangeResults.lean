import WeensyOS.RangeMaps

/-!
# When mapping fails and what unmapping leaves

The loop of `virtual_memory_map` starts with the cached index `-1`, which the
top of the address space and 255 other places narrow to as well. There the first
block of pages is handled without its table: mapping fails at once, and
unmapping leaves the block alone.
-/

set_option autoImplicit false

namespace WeensyOS.RangeResults
open WeensyOS.FlatMemory WeensyOS.KernelState WeensyOS.PageTables WeensyOS.CheckedRuns
open WeensyOS.RadixForest WeensyOS.TableWords WeensyOS.PageMaps WeensyOS.PrivateRuns
open WeensyOS.TreeTables WeensyOS.RangeWalks WeensyOS.RangeMaps

section Unmapping

variable {σ : Type} [MachineMemory σ] {allocator : Option (Allocator σ)}
  {Avail : σ → (ℕ → Prop) → Prop} {r : ℕ} {X : ℕ → Prop} {s s' : σ}
  {va pa perm n l4 : ℕ} {last ret : ℤ} {m m' m₁ : Memory} {S S' : ℕ → Prop}

/-- The pages of `S` are unmapped, and nothing else has changed. -/
structure Cleared (r : ℕ) (S : ℕ → Prop) (m m' : Memory) : Prop where
  inner : ∀ q, q.length ≤ 3 → word m' r q = word m r q
  gone : ∀ a, S a → word m' r (indices a) &&& PTE_P = 0
  other : ∀ q, q.length = 4 → (∀ a, S a → q ≠ indices a) → word m' r q = word m r q

theorem Cleared.none (r : ℕ) (m : Memory) : Cleared r (fun _ => False) m m where
  inner _ _ := rfl
  gone _ h := h.elim
  other _ _ _ := rfl

theorem Cleared.mono (C : Cleared r S m m') (h : ∀ a, S a ↔ S' a) : Cleared r S' m m' where
  inner := C.inner
  gone a ha := C.gone a ((h a).2 ha)
  other q hq hout := C.other q hq fun a ha => hout a ((h a).1 ha)

/-- A page before the others. -/
theorem Cleared.cons (hinner : ∀ q, q.length ≤ 3 → word m₁ r q = word m r q)
    (hgone : word m₁ r (indices va) &&& PTE_P = 0)
    (hother : ∀ q, q.length = 4 → q ≠ indices va → word m₁ r q = word m r q)
    (C : Cleared r S m₁ m') : Cleared r (fun a => a = va ∨ S a) m m' where
  inner q hq := (C.inner q hq).trans (hinner q hq)
  gone a ha := by
    rcases ha with rfl | ha
    · by_cases hon : ∃ b, S b ∧ indices a = indices b
      · obtain ⟨b,hb,hab⟩ := hon
        rw [hab]
        exact C.gone b hb
      · rw [C.other _ (indices_length a) fun b hb hab => hon ⟨b,hb,hab⟩]
        exact hgone
    · exact C.gone a ha
  other q hq hout := (C.other q hq fun a ha => hout a (Or.inr ha)).trans
    (hother q hq (hout va (Or.inl rfl)))

/-- The pages of a range. -/
def InRange (n va a : ℕ) : Prop := ∃ k < n, a = va+k*4096

theorem inRange_succ (n va a : ℕ) : InRange (n+1) va a ↔ a = va ∨ InRange n (va+4096) a := by
  constructor
  · rintro ⟨k,hk,rfl⟩
    cases k with
    | zero => exact Or.inl (by omega)
    | succ k => exact Or.inr ⟨k,by omega,by omega⟩
  · rintro (rfl | ⟨k,hk,rfl⟩)
    · exact ⟨0,by omega,by omega⟩
    · exact ⟨k+1,by omega,by omega⟩

/-- The cached table when nothing is mapped: `NULL` where there is none. -/
def Held (r va l4 : ℕ) (m : Memory) : Prop :=
  (l4 = NULL ∧ node m r (tableIndices va) = none) ∨
    (l4 ≠ NULL ∧ node m r (tableIndices va) = some l4)

/-- One turn of the loop, unmapping a page. -/
theorem unmap_step (hlaw : ∀ alloc, allocator = some alloc → Lawful alloc Avail)
    (hperm : perm &&& PTE_P = 0) (hlt : perm < 4096) (G : Walkable allocator Avail False r X s)
    (H : Held r va l4 (mem s)) :
    ∃ s₁, (if l4 ≠ NULL then setMem s (setEntry (mem s) l4 (L4PAGEINDEX va) perm) else s) = s₁ ∧
      Walkable allocator Avail False r X s₁ ∧
      (∀ q, q.length ≤ 3 → word (mem s₁) r q = word (mem s) r q) ∧
      (∀ q, q.length ≤ 3 → node (mem s₁) r q = node (mem s) r q) ∧
      word (mem s₁) r (indices va) &&& PTE_P = 0 ∧
      ∀ q, q.length = 4 → q ≠ indices va → word (mem s₁) r q = word (mem s) r q := by
  refine ⟨_,rfl,?_⟩
  rcases H with ⟨hnull,hnone⟩ | ⟨hne,hnode⟩
  · rw [if_neg (not_not.2 hnull)]
    refine ⟨G,fun _ _ => rfl,fun _ _ => rfl,?_,fun _ _ _ => rfl⟩
    rw [indices_snoc, word_missing hnone]
    rfl
  · rw [if_pos hne]
    have hv : perm < 2^64 := by omega
    obtain ⟨G₁,hw⟩ := write_step hlaw G hnode hv
    refine ⟨G₁,fun q hq => ?_,fun q hq => ?_,?_,fun q hq hout => ?_⟩
    · rw [hw q (by omega), if_neg]
      rintro rfl
      rw [indices_length] at hq
      omega
    · rw [MachineMemory.mem_setMem]
      exact written_node G.tree rfl hnode (index va 3) perm hq
    · rw [hw _ (by simp), if_pos rfl]
      exact hperm
    · rw [hw q (by omega), if_neg hout]

theorem unmap_loop_succ (hperm : perm &&& PTE_P = 0)
    (h : virtual_memory_map_loop r perm allocator (n+1) va pa last l4 s = .ok (ret,s')) :
    ∃ l4' s₁, (if index123 va ≠ last then lookup_l4pagetable r va perm allocator s
      else pure (l4,s)) = .ok (l4',s₁) ∧
      virtual_memory_map_loop r perm allocator n ((va+PAGESIZE) % 2^64) ((pa+PAGESIZE) % 2^64)
        (index123 va) l4'
        (if l4' ≠ NULL then setMem s₁ (setEntry (mem s₁) l4' (L4PAGEINDEX va) perm) else s₁) =
        .ok (ret,s') := by
  obtain ⟨l4',s₁,hstep,h⟩ := map_loop_succ h
  refine ⟨l4',s₁,hstep,?_⟩
  rw [if_neg fun hc => hc.1 hperm] at h
  by_cases hz : l4' ≠ NULL
  · rw [if_pos hz] at h ⊢
    exact h
  · rw [if_neg hz, if_neg (not_not.2 hperm)] at h
    rw [if_neg hz]
    exact h

theorem unmap_loop (hlaw : ∀ alloc, allocator = some alloc → Lawful alloc Avail)
    (hperm : perm &&& PTE_P = 0) (hlt : perm < 4096) (n : ℕ) {va pa l4 : ℕ} {last : ℤ} {s : σ}
    (G : Walkable allocator Avail False r X s) (hva : va+n*4096 ≤ 2^64)
    (hcache : index123 va = last → Held r va l4 (mem s))
    (h : virtual_memory_map_loop r perm allocator n va pa last l4 s = .ok (ret,s')) :
    ret = 0 ∧ Cleared r (InRange n va) (mem s) (mem s') := by
  induction n generalizing va pa l4 last s with
  | zero =>
    cases h
    refine ⟨rfl,(Cleared.none r _).mono fun a => ?_⟩
    constructor
    · exact False.elim
    · rintro ⟨k,hk,-⟩
      exact absurd hk (Nat.not_lt_zero k)
  | succ n ih =>
    obtain ⟨l4',s₁,hstep,hrest⟩ := unmap_loop_succ hperm h
    have hsame : s₁ = s ∧ Held r va l4' (mem s) := by
      by_cases hlast : index123 va ≠ last
      · rw [if_pos hlast] at hstep
        have W := lookup_spec hlaw G hstep
        have hs := W.same hperm
        refine ⟨hs,?_⟩
        rcases W.found with ⟨hnode,-⟩ | ⟨hnull,hmiss,-⟩
        · rw [hs] at hnode
          exact Or.inr ⟨fun hz => G.null _ (by simp) (hz ▸ hnode),hnode⟩
        · rw [hs] at hmiss
          exact Or.inl ⟨hnull,hmiss⟩
      · rw [if_neg hlast] at hstep
        cases hstep
        exact ⟨rfl,hcache (not_not.1 hlast)⟩
    obtain ⟨rfl,H⟩ := hsame
    obtain ⟨s₂,hs₂,G₂,hinner,hnodes,hgone,hother⟩ := unmap_step hlaw hperm hlt G H
    rw [hs₂] at hrest
    cases n with
    | zero =>
      cases hrest
      refine ⟨rfl,(Cleared.cons hinner hgone hother (Cleared.none r _)).mono fun a => ?_⟩
      rw [inRange_succ]
      refine or_congr_right ?_
      constructor
      · exact False.elim
      · rintro ⟨k,hk,-⟩
        exact absurd hk (Nat.not_lt_zero k)
    | succ n =>
      have hva' : (va+PAGESIZE) % 2^64 = va+4096 :=
        Nat.mod_eq_of_lt (by simp only [PAGESIZE]; omega)
      rw [hva'] at hrest
      have hheld : index123 (va+4096) = index123 va → Held r (va+4096) l4' (mem s₂) := by
        intro hidx
        rw [Held, tables_of_block (index123_next va hidx), hnodes _ (by simp)]
        exact H
      obtain ⟨hret,C⟩ := ih G₂ (by omega) hheld hrest
      refine ⟨hret,(Cleared.cons hinner hgone hother C).mono fun a => ?_⟩
      rw [← inRange_succ]

/-- The pages that are handled with their table when the cache starts stale. -/
def PastBlock (n va a : ℕ) : Prop := InRange n va a ∧ a / 2097152 ≠ va / 2097152

/-- Unmapping from an address whose narrowed index is the one the loop starts with. -/
theorem unmap_stale (hlaw : ∀ alloc, allocator = some alloc → Lawful alloc Avail)
    (hperm : perm &&& PTE_P = 0) (hlt : perm < 4096) (n : ℕ) {va pa : ℕ}
    (G : Walkable allocator Avail False r X s) (hva : va+n*4096 ≤ 2^64) (hidx : index123 va = -1)
    (h : virtual_memory_map_loop r perm allocator n va pa (-1) NULL s = .ok (ret,s')) :
    ret = 0 ∧ Cleared r (PastBlock n va) (mem s) (mem s') := by
  induction n generalizing va pa with
  | zero =>
    cases h
    refine ⟨rfl,(Cleared.none r _).mono fun a => ?_⟩
    constructor
    · exact False.elim
    · rintro ⟨⟨k,hk,-⟩,-⟩
      exact absurd hk (Nat.not_lt_zero k)
  | succ n ih =>
    obtain ⟨l4',s₁,hstep,h⟩ := unmap_loop_succ hperm h
    rw [if_neg (not_not.2 hidx)] at hstep
    cases hstep
    rw [if_neg (not_not.2 rfl), hidx] at h
    cases n with
    | zero =>
      cases h
      refine ⟨rfl,(Cleared.none r _).mono fun a => ?_⟩
      constructor
      · exact False.elim
      · rintro ⟨⟨k,hk,rfl⟩,hne⟩
        have hk0 : k = 0 := by omega
        rw [hk0, Nat.zero_mul, Nat.add_zero] at hne
        exact hne rfl
    | succ n =>
      have hva' : (va+PAGESIZE) % 2^64 = va+4096 :=
        Nat.mod_eq_of_lt (by simp only [PAGESIZE]; omega)
      rw [hva'] at h
      by_cases hnext : index123 (va+4096) = -1
      · -- the block goes on
        have hblock := index123_next va (hnext.trans hidx.symm)
        obtain ⟨hret,C⟩ := ih (by omega) hnext h
        refine ⟨hret,C.mono fun a => ?_⟩
        rw [PastBlock, PastBlock, inRange_succ (n+1) va, hblock]
        constructor
        · rintro ⟨hin,hne⟩
          exact ⟨Or.inr hin,hne⟩
        · rintro ⟨rfl | hin,hne⟩
          · exact absurd rfl hne
          · exact ⟨hin,hne⟩
      · -- from the next block on every table is looked up
        obtain ⟨hret,C⟩ := unmap_loop hlaw hperm hlt (n+1) G (by omega)
          (fun hc => absurd hc hnext) h
        refine ⟨hret,C.mono fun a => ?_⟩
        have hblock : (va+4096) / 2097152 ≠ va / 2097152 := fun hb => by
          rw [index123_div, hb, ← index123_div] at hnext
          exact hnext hidx
        rw [PastBlock, inRange_succ (n+1) va]
        constructor
        · rintro ⟨k,hk,rfl⟩
          exact ⟨Or.inr ⟨k,hk,rfl⟩,by omega⟩
        · rintro ⟨rfl | hin,hne⟩
          · exact absurd rfl hne
          · exact hin

theorem Cleared.unmapped (C : Cleared r S m m') {a b : ℕ} (hb : S b) (h : vpage a = vpage b) :
    virtual_memory_lookup m' r a = .unmapped := by
  rw [lookup_view]
  refine view_unmapped ⟨indices a,by simp [indices],List.prefix_rfl,?_⟩
  rw [(indices_eq_iff a b).2 h]
  exact C.gone b hb

theorem Cleared.frame (C : Cleared r S m m') {a : ℕ} (h : ∀ b, S b → vpage a ≠ vpage b) :
    virtual_memory_lookup m' r a = virtual_memory_lookup m r a := by
  rw [lookup_view, lookup_view]
  refine view_congr fun q _ hpre => ?_
  have hlen := prefix_length hpre (indices_length a)
  by_cases h4 : q.length = 4
  · rw [hpre.eq_of_length (h4.trans (indices_length a).symm)]
    exact C.other _ (indices_length a) fun b hb hab => h b hb ((indices_eq_iff a b).1 hab)
  · exact C.inner q (by omega)

end Unmapping

section Log

variable {σ : Type} [MachineMemory σ] {alloc : Allocator σ} {allocator : Option (Allocator σ)}
  {Avail : σ → (ℕ → Prop) → Prop}

/-- A state with the memory and the result of every call of the allocator. -/
structure Logged (σ : Type) where
  state : σ
  log : List (Memory × ℕ)

instance : MachineMemory (Logged σ) where
  mem t := mem t.state
  setMem t m := { t with state := setMem t.state m }
  mem_setMem t m := MachineMemory.mem_setMem t.state m
  setMem_mem t := by rw [MachineMemory.setMem_mem]
  setMem_setMem t m m' := by rw [MachineMemory.setMem_setMem]

def logged (alloc : Allocator σ) : Allocator (Logged σ) := fun t =>
  ((alloc t.state).1,⟨(alloc t.state).2,(mem t.state,(alloc t.state).1)::t.log⟩)

theorem logged_lawful (L : Lawful alloc Avail) :
    Lawful (logged alloc) fun t X => Avail t.state X where
  page t X := L.page t.state X
  next t X := L.next t.state X
  kept t X := L.kept t.state X
  store t X := L.store t.state X

/-- A result without its log. -/
def erase {α : Type} : Checked (α × Logged σ) → Checked (α × σ) :=
  Except.map fun x => (x.1,x.2.state)

theorem erase_entry (va perm l pt : ℕ) (t : Logged σ) :
    erase (lookup_l4pagetable_entry va perm (allocator.map logged) l pt t) =
      lookup_l4pagetable_entry va perm allocator l pt t.state := by
  unfold lookup_l4pagetable_entry
  change erase (if entry (mem t.state) pt (PAGEINDEX va l) &&& PTE_P ≠ 0 then _ else _) = _
  by_cases hpres : entry (mem t.state) pt (PAGEINDEX va l) &&& PTE_P ≠ 0
  · rw [if_pos hpres, if_pos hpres]
    rfl
  rw [if_neg hpres, if_neg hpres]
  by_cases hperm : perm &&& PTE_P = 0
  · rw [if_pos hperm, if_pos hperm]
    rfl
  rw [if_neg hperm, if_neg hperm]
  cases allocator with
  | none => rfl
  | some alloc =>
    change erase (if (alloc t.state).1 = NULL then _ else _) =
      if (alloc t.state).1 = NULL then _ else _
    by_cases hnull : (alloc t.state).1 = NULL
    · rw [if_pos hnull, if_pos hnull]
      rfl
    · rw [if_neg hnull, if_neg hnull]
      by_cases halign : (alloc t.state).1 % PAGESIZE = 0
      · simp only [kassert, if_pos halign]
        rfl
      · simp only [kassert, if_neg halign]
        rfl

omit [MachineMemory σ] in
theorem erase_bind {α β : Type} (x : Checked (α × Logged σ))
    (f : α × Logged σ → Checked (β × Logged σ))
    (g : α × σ → Checked (β × σ)) (h : ∀ a t, erase (f (a,t)) = g (a,t.state)) :
    erase (x >>= f) = erase x >>= g := by
  cases x with
  | error e => rfl
  | ok y => exact h y.1 y.2

theorem erase_walk (va perm : ℕ) (levels : List ℕ) (pt : ℕ) (t : Logged σ) :
    erase (lookup_l4pagetable_loop va perm (allocator.map logged) levels pt t) =
      lookup_l4pagetable_loop va perm allocator levels pt t.state := by
  induction levels generalizing pt t with
  | nil => rfl
  | cons l levels ih =>
    rw [lookup_l4pagetable_loop, lookup_l4pagetable_loop, ← erase_entry]
    apply erase_bind
    intro found t
    cases found with
    | none => rfl
    | some pe =>
      change erase (lookup_l4pagetable_check perm pe >>= _) = lookup_l4pagetable_check perm pe >>= _
      cases lookup_l4pagetable_check perm pe with
      | error e => rfl
      | ok _ => exact ih _ _

theorem erase_map_loop (r perm n : ℕ) (va pa : ℕ) (last : ℤ) (l4 : ℕ) (t : Logged σ) :
    erase (virtual_memory_map_loop r perm (allocator.map logged) n va pa last l4 t) =
      virtual_memory_map_loop r perm allocator n va pa last l4 t.state := by
  induction n generalizing va pa last l4 t with
  | zero => rfl
  | succ n ih =>
    have hbody : ∀ (l4 : ℕ) (t : Logged σ), erase (
        if perm &&& PTE_P ≠ 0 ∧ l4 ≠ NULL then virtual_memory_map_loop r perm
          (allocator.map logged) n ((va+PAGESIZE) % 2^64) ((pa+PAGESIZE) % 2^64) (index123 va) l4
          (setMem t (setEntry (mem t) l4 (L4PAGEINDEX va) (pa ||| perm)))
        else if l4 ≠ NULL then virtual_memory_map_loop r perm
          (allocator.map logged) n ((va+PAGESIZE) % 2^64) ((pa+PAGESIZE) % 2^64) (index123 va) l4
          (setMem t (setEntry (mem t) l4 (L4PAGEINDEX va) perm))
        else if perm &&& PTE_P ≠ 0 then .ok (-1,t)
        else virtual_memory_map_loop r perm (allocator.map logged) n ((va+PAGESIZE) % 2^64)
          ((pa+PAGESIZE) % 2^64) (index123 va) l4 t) =
        if perm &&& PTE_P ≠ 0 ∧ l4 ≠ NULL then virtual_memory_map_loop r perm allocator n
          ((va+PAGESIZE) % 2^64) ((pa+PAGESIZE) % 2^64) (index123 va) l4
          (setMem t.state (setEntry (mem t.state) l4 (L4PAGEINDEX va) (pa ||| perm)))
        else if l4 ≠ NULL then virtual_memory_map_loop r perm allocator n
          ((va+PAGESIZE) % 2^64) ((pa+PAGESIZE) % 2^64) (index123 va) l4
          (setMem t.state (setEntry (mem t.state) l4 (L4PAGEINDEX va) perm))
        else if perm &&& PTE_P ≠ 0 then .ok (-1,t.state)
        else virtual_memory_map_loop r perm allocator n ((va+PAGESIZE) % 2^64)
          ((pa+PAGESIZE) % 2^64) (index123 va) l4 t.state := by
      intro l4 t
      split
      · exact ih _ _ _ _ _
      · split
        · exact ih _ _ _ _ _
        · split
          · rfl
          · exact ih _ _ _ _ _
    rw [virtual_memory_map_loop, virtual_memory_map_loop]
    by_cases hlast : index123 va ≠ last
    · rw [if_pos hlast, if_pos hlast, lookup_l4pagetable, lookup_l4pagetable, ← erase_walk]
      exact erase_bind _ _ _ fun l4 t => hbody l4 t
    · rw [if_neg hlast, if_neg hlast]
      exact hbody l4 t

/-- The log does not change what a call does. -/
theorem erase_map (r va pa sz perm : ℕ) (t : Logged σ) :
    erase (virtual_memory_map r va pa sz perm (allocator.map logged) t) =
      virtual_memory_map r va pa sz perm allocator t.state := by
  have hassert : ∀ (p : Prop) [Decidable p] (msg : String) (x : Checked (ℤ × Logged σ))
      (y : Checked (ℤ × σ)), erase x = y →
      erase (kassert p msg >>= fun _ => x) = kassert p msg >>= fun _ => y := by
    intro p _ msg x y h
    by_cases hp : p
    · simp only [kassert, if_pos hp]
      exact h
    · simp only [kassert, if_neg hp]
      rfl
  have hloop : erase (virtual_memory_map_loop r perm (allocator.map logged) (sz / PAGESIZE) va pa
      (-1) NULL t) = virtual_memory_map_loop r perm allocator (sz / PAGESIZE) va pa (-1) NULL
        t.state := erase_map_loop r perm _ va pa (-1) NULL t
  rw [virtual_memory_map, virtual_memory_map]
  refine hassert _ _ _ _ (hassert _ _ _ _ (hassert _ _ _ _ ?_))
  by_cases hp : perm &&& PTE_P ≠ 0
  · rw [if_pos hp, if_pos hp]
    refine hassert _ _ _ _ (hassert _ _ _ _ (hassert _ _ _ _ ?_))
    exact hassert _ _ _ _ (hassert _ _ _ _ hloop)
  · rw [if_neg hp, if_neg hp]
    exact hassert _ _ _ _ (hassert _ _ _ _ hloop)

end Log

section Results

variable {σ : Type} [MachineMemory σ] {allocator : Option (Allocator σ)}
  {Avail : σ → (ℕ → Prop) → Prop} {r va pa sz perm n : ℕ} {s : σ} {t : Logged σ} {ret : ℤ}

/-- What is said of the result: `-1` only if a table was missing and could not be allocated, and
without `PTE_P` the range is unmapped. -/
def Documented (allocator : Option (Allocator σ)) (r va sz perm : ℕ) (s : σ) (ret : ℤ)
    (t : Logged σ) : Prop :=
  (ret = -1 → perm &&& PTE_P ≠ 0 ∧
    ((allocator = none ∧ ∃ X < sz, node (mem s) r (tableIndices (va+X)) = none) ∨
      ∃ m, (m,NULL) ∈ t.log ∧ ∃ X < sz, node m r (tableIndices (va+X)) = none)) ∧
  (perm &&& PTE_P = 0 →
    ret = 0 ∧ ∀ X < sz, virtual_memory_lookup (mem t.state) r (va+X) = .unmapped)

/-- The range does not start where the cache is stale, or that makes no difference there: the
mapping could not succeed, or there is nothing to unmap in the first block. -/
def CacheHarmless (allocator : Option (Allocator σ)) (r va sz perm : ℕ) (s : σ) : Prop :=
  sz = 0 ∨ index123 va ≠ -1 ∨
    (perm &&& PTE_P ≠ 0 ∧ allocator = none ∧
      ∃ X < sz, node (mem s) r (tableIndices (va+X)) = none) ∨
    (perm &&& PTE_P = 0 ∧ ∀ X < sz, (va+X) / 2097152 = va / 2097152 →
      virtual_memory_lookup (mem s) r (va+X) = .unmapped ∨
        ∃ Y < sz, (va+Y) / 2097152 ≠ va / 2097152 ∧ vpage (va+X) = vpage (va+Y))

/-- A failure of the loop is one of the documented ones. -/
theorem failed_documented (hperm : perm &&& PTE_P ≠ 0)
    (F : Failed (allocator.map logged) False r n va ⟨s,[]⟩ t) :
    Documented allocator r va (n*4096) perm s (-1) t := by
  obtain ⟨k,hk,hwhy⟩ := F
  have hX : k*4096 < n*4096 := Nat.mul_lt_mul_of_pos_right hk (by decide)
  refine ⟨fun _ => ⟨hperm,?_⟩,fun h => absurd h hperm⟩
  rcases hwhy with hz | ⟨hnone,hmiss⟩ | ⟨alloc',t₀,hall,hnull,rfl,hmiss⟩
  · exact hz.elim
  · left
    exact ⟨Option.map_eq_none_iff.1 hnone,k*4096,hX,hmiss⟩
  · right
    obtain ⟨alloc,-,rfl⟩ := Option.map_eq_some_iff.1 hall
    change (alloc t₀.state).1 = NULL at hnull
    refine ⟨mem t₀.state,?_,k*4096,hX,hmiss⟩
    rw [← hnull]
    exact List.mem_cons_self

/-- Without its table a page cannot be mapped. -/
theorem map_stale (hperm : perm &&& PTE_P ≠ 0) (hidx : index123 va = -1)
    (h : virtual_memory_map_loop r perm (allocator.map logged) (n+1) va pa (-1) NULL ⟨s,[]⟩ =
      .ok (ret,t)) : ret = -1 ∧ t = ⟨s,[]⟩ := by
  obtain ⟨l4',s₁,hstep,hrest⟩ := map_loop_succ h
  rw [if_neg (not_not.2 hidx)] at hstep
  cases hstep
  rw [if_neg fun hc => hc.2 rfl, if_neg (not_not.2 rfl), if_pos hperm] at hrest
  cases hrest
  exact ⟨rfl,rfl⟩

/-- What is unmapped from a stale cache on. -/
theorem stale_unmapped {m m' : Memory} (hva : va % 4096 = 0)
    (C : Cleared r (PastBlock n va) m m') :
    (∀ X < n*4096, virtual_memory_lookup m' r (va+X) = .unmapped) ↔
      ∀ X < n*4096, (va+X) / 2097152 = va / 2097152 →
        virtual_memory_lookup m r (va+X) = .unmapped ∨
          ∃ Y < n*4096, (va+Y) / 2097152 ≠ va / 2097152 ∧ vpage (va+X) = vpage (va+Y) := by
  have hpast : ∀ Y, Y < n*4096 → (va+Y) / 2097152 ≠ va / 2097152 →
      PastBlock n va (va+Y / 4096*4096) := fun Y hY hne => by
    refine ⟨⟨Y / 4096,?_,rfl⟩,?_⟩
    · omega
    · omega
  have hpage : ∀ Y, vpage (va+Y) = vpage (va+Y / 4096*4096) := fun Y => by
    rw [vpage, vpage]
    omega
  constructor
  · intro hall X hX hblock
    by_cases hon : ∃ b, PastBlock n va b ∧ vpage (va+X) = vpage b
    · obtain ⟨b,⟨⟨k,hk,rfl⟩,hne⟩,hb⟩ := hon
      exact Or.inr ⟨k*4096,Nat.mul_lt_mul_of_pos_right hk (by decide),hne,hb⟩
    · left
      rw [← hall X hX]
      exact (C.frame fun b hb hpg => hon ⟨b,hb,hpg⟩).symm
  · intro hall X hX
    by_cases hblock : (va+X) / 2097152 = va / 2097152
    · rcases hall X hX hblock with hun | ⟨Y,hY,hne,hpg⟩
      · by_cases hon : ∃ b, PastBlock n va b ∧ vpage (va+X) = vpage b
        · obtain ⟨b,hb,hpg⟩ := hon
          exact C.unmapped hb hpg
        · rw [C.frame fun b hb hpg => hon ⟨b,hb,hpg⟩, hun]
      · exact C.unmapped (hpast Y hY hne) (hpg.trans (hpage Y))
    · exact C.unmapped (hpast X hX hblock) (hpage X)

theorem map_documented_iff (hlaw : ∀ alloc, allocator = some alloc → Lawful alloc Avail)
    (T : TreeShaped (mem s) r) (hnull : ∀ d a, TablePage (mem s) r d a → a ≠ NULL)
    (havail : ∀ alloc, allocator = some alloc → Avail s (Pages (mem s) r))
    (hva : va < 2^64) (hpa : pa < 2^64) (hsz : sz < 2^64)
    (h : virtual_memory_map r va pa sz perm (allocator.map logged) ⟨s,[]⟩ = .ok (ret,t)) :
    Documented allocator r va sz perm s ret t ↔ CacheHarmless allocator r va sz perm s := by
  obtain ⟨hal,hsize,hwrap,hphys,hlt,hrun⟩ := map_asserts h
  have hend := range_bounds hva hsz hwrap
  have hlaw' : ∀ alloc, allocator.map logged = some alloc →
      Lawful alloc fun (t : Logged σ) X => Avail t.state X := by
    intro alloc hall
    obtain ⟨alloc,hsome,rfl⟩ := Option.map_eq_some_iff.1 hall
    exact logged_lawful (hlaw alloc hsome)
  have G : Walkable (allocator.map logged) (fun (t : Logged σ) X => Avail t.state X) False r
      (Pages (mem s) r) ⟨s,[]⟩ := by
    refine ⟨T.tree,fun alloc hall => ?_,fun _ ha => ha,fun q hq hq0 => ?_⟩
    · obtain ⟨alloc,hsome,-⟩ := Option.map_eq_some_iff.1 hall
      exact havail alloc hsome
    · exact hnull _ _ ((table_page_iff hq).2 ⟨q,rfl,hq0⟩) rfl
  obtain ⟨n,rfl⟩ : ∃ n, sz = n*4096 := ⟨sz / 4096,by omega⟩
  have hpages : n*4096 / PAGESIZE = n := Nat.mul_div_cancel n (by decide)
  rw [hpages] at hrun
  cases n with
  | zero =>
    cases hrun
    refine ⟨fun _ => Or.inl (Nat.zero_mul _),fun _ => ⟨fun h => (by cases h),fun _ => ⟨rfl,?_⟩⟩⟩
    intro X hX
    rw [Nat.zero_mul] at hX
    exact absurd hX (Nat.not_lt_zero X)
  | succ n =>
    have hpos : (n+1)*4096 ≠ 0 := Nat.mul_ne_zero (Nat.succ_ne_zero n) (by decide)
    by_cases hperm : perm &&& PTE_P = 0
    · have hfail : ∀ {ret : ℤ} {P : Prop}, ret = 0 → ret = -1 → P := fun h0 h1 => by
        rw [h0] at h1
        cases h1
      by_cases hidx : index123 va = -1
      · -- the first block is left as it was
        obtain ⟨hret,C⟩ := unmap_stale hlaw' hperm hlt (n+1) G hend hidx hrun
        have hiff := stale_unmapped hal C
        constructor
        · intro D
          exact Or.inr (Or.inr (Or.inr ⟨hperm,hiff.1 (D.2 hperm).2⟩))
        · rintro (hz | hne | ⟨hp,-⟩ | ⟨-,hblock⟩)
          · exact absurd hz hpos
          · exact absurd hidx hne
          · exact absurd hperm hp
          · exact ⟨hfail hret,fun _ => ⟨hret,hiff.2 hblock⟩⟩
      · obtain ⟨hret,C⟩ := unmap_loop hlaw' hperm hlt (n+1) G hend
          (fun hc => absurd hc hidx) hrun
        refine ⟨fun _ => Or.inr (Or.inl hidx),fun _ => ⟨hfail hret,fun _ => ⟨hret,?_⟩⟩⟩
        intro X hX
        refine C.unmapped (b := va+X / 4096*4096) ⟨X / 4096,?_,rfl⟩ ?_
        · exact (Nat.div_lt_iff_lt_mul (by decide)).2 hX
        · rw [vpage, vpage]
          omega
    · by_cases hidx : index123 va = -1
      · -- the call fails before it has asked for any table
        obtain ⟨rfl,rfl⟩ := map_stale hperm hidx hrun
        constructor
        · intro D
          rcases (D.1 rfl).2 with hnone | ⟨m,hm,-⟩
          · exact Or.inr (Or.inr (Or.inl ⟨hperm,hnone⟩))
          · cases hm
        · rintro (hz | hne | ⟨-,hnone⟩ | ⟨hp,-⟩)
          · exact absurd hz hpos
          · exact absurd hidx hne
          · exact ⟨fun _ => ⟨hperm,Or.inl hnone⟩,fun h => absurd h hperm⟩
          · exact absurd hp hperm
      · obtain ⟨hpal,hpwrap,hpend⟩ := hphys hperm
        have hpa' : pa+(n+1)*4096 ≤ 0x200000 := by
          have := range_bounds hpa hsz (Or.inl hpwrap)
          simp only [MEMSIZE_PHYSICAL] at hpend
          omega
        have hdone := map_present hlaw' hperm hlt (n+1) G (by omega) hend hpal hpa'
          (fun hc => absurd hc hidx) (Or.inr (Or.inl hidx)) hrun
        refine ⟨fun _ => Or.inr (Or.inl hidx),fun _ => ?_⟩
        rcases hdone with ⟨rfl,-,-⟩ | ⟨rfl,F⟩
        · exact ⟨fun h => (by cases h),fun h => absurd h hperm⟩
        · exact failed_documented hperm F

/-- Tables with the last two pages of the second 2 MiB. -/
def pageTables : Bump :=
  let m := setEntry (mem blockTables) 0x4000 510 0x8007
  ⟨setEntry m 0x4000 511 0x9007,0x5000⟩

theorem page_chain : TableChain (mem pageTables) (fun d => (d+1)*0x1000)
    (fun d => if d = 2 then 1 else 0) :=
  (block_chain.write (by decide) 0x8007).write (by decide) 0x9007

theorem page_avail : BumpAvail pageTables (Pages (mem pageTables) 0x1000) := by
  refine ⟨rfl,by decide,fun a ⟨d,T⟩ => ?_⟩
  obtain ⟨hd,rfl⟩ := page_chain.page T
  change (d+1)*0x1000 < 0x5000
  omega

/-- These pages are unmapped, and the one after them, for which there is no table. -/
theorem pages_unmapped :
    virtual_memory_lookup (mem pageTables) 0x1000 0x3FE000 = ⟨8,0x8000,7⟩ ∧
    virtual_memory_lookup (mem pageTables) 0x1000 0x3FF000 = ⟨9,0x9000,7⟩ ∧ ∃ ret t,
      virtual_memory_map 0x1000 0x3FE000 0 0x3000 0 ((some bump).map logged) ⟨pageTables,[]⟩ =
        .ok (ret,t) ∧ Documented (some bump) 0x1000 0x3FE000 0x3000 0 pageTables ret t ∧
      virtual_memory_lookup (mem t.state) 0x1000 0x3FE000 = .unmapped ∧
      virtual_memory_lookup (mem t.state) 0x1000 0x3FF000 = .unmapped := by
  have hret : returned (virtual_memory_map 0x1000 0x3FE000 0 0x3000 0
    ((some bump).map logged) ⟨pageTables,[]⟩) = some 0 := by decide +kernel
  obtain ⟨t,ht⟩ := returned_some hret
  have hnull : ∀ d a, TablePage (mem pageTables) 0x1000 d a → a ≠ NULL := fun d a T hzero => by
    obtain ⟨-,rfl⟩ := page_chain.page T
    simp only [NULL] at hzero
    omega
  have D := (map_documented_iff bump_contract page_chain.tree hnull (fun alloc _ => page_avail)
    (by decide) (by decide) (by decide) ht).2 (Or.inr (Or.inl (by decide)))
  have hgone := (D.2 rfl).2
  exact ⟨by decide +kernel,by decide +kernel,0,t,ht,D,hgone 0 (by decide),hgone 0x1000 (by decide)⟩

/-- The last 2 MiB of the address space cannot be mapped, with free pages at hand. -/
theorem top_not_mapped : ∃ t, virtual_memory_map 0x1000 (2^64-2^21) 0x5000 0x1000 7
    ((some bump).map logged) ⟨emptyTables,[]⟩ = .ok (-1,t) ∧
      ¬Documented (some bump) 0x1000 (2^64-2^21) 0x1000 7 emptyTables (-1) t := by
  have hret : returned (virtual_memory_map 0x1000 (2^64-2^21) 0x5000 0x1000 7
    ((some bump).map logged) ⟨emptyTables,[]⟩) = some (-1) := by decide +kernel
  obtain ⟨t,ht⟩ := returned_some hret
  refine ⟨t,ht,fun D => ?_⟩
  have hrun := (map_asserts ht).2.2.2.2.2
  obtain ⟨-,rfl⟩ := map_stale (by decide) (by decide) hrun
  rcases (D.1 rfl).2 with ⟨hnone,-⟩ | ⟨m,hm,-⟩
  · cases hnone
  · cases hm

end Results

end WeensyOS.RangeResults
