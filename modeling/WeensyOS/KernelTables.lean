import WeensyOS.Isolation
import WeensyOS.CheckedRuns

/-!
# The kernel's own page tables

`virtual_memory_init` links five static tables and maps physical memory onto
itself, and `kernel` then narrows the low half and opens the console. The
result is the mapping `kernelWord`.
-/

set_option autoImplicit false

namespace WeensyOS.KernelTables
open WeensyOS.FlatMemory WeensyOS.KernelState WeensyOS.PageTables WeensyOS.Boot
open WeensyOS.RadixForest WeensyOS.TableWords WeensyOS.FreePages WeensyOS.PagingInvariant
open WeensyOS.TableWalks WeensyOS.PageMaps WeensyOS.TableCopies WeensyOS.KernelInvariant

section Links

variable {roots : ℤ → Option ℕ} {label : Labels} {m : Memory} {o : ℤ} {p : List Index}
  {n c : ℕ} {i : Index}

/-- Tables of `m` whose entries are all zero. -/
def Blank (m : Memory) (n : ℕ) : Prop := ∀ j, slot m n j = 0

theorem Blank.other (h : Blank m c) (hn : n % 4096 = 0) (hc : c % 4096 = 0) (hne : c ≠ n)
    (i : Index) (w : ℕ) : Blank (setEntry m n i w) c := by
  intro j
  rw [← h j]
  exact entry_setEntry_other m n i w c j hn hc i.isLt j.isLt (Or.inl hne)

/-- The store that links a blank table. -/
theorem link_attached (hforest : Forest scheme roots (slot m) label) (hn : n % 4096 = 0)
    (hc : c % 4096 = 0) (hlt : c < 0x200000) (hne : c ≠ n) (hb : Blank m c) :
    Attached scheme label (slot m) (slot (setEntry m n i (c+7))) n i c where
  linked := entry_setEntry m n i (c+7) (by omega)
  blank := hb.other hn hc hne i (c+7)
  others k q j hk hkj := by
    refine entry_setEntry_other m n i (c+7) k j hn (hforest.valid k q hk) i.isLt j.isLt ?_
    exact hkj.imp id fun h hval => h (Fin.ext hval)

end Links

section Init

variable (K : KernelImage)

/-- The five pages of `kernel_pagetables`. -/
abbrev table (i : ℕ) : ℕ := K.kernel_pagetables+i*4096

def kernelRoots : ℤ → Option ℕ := Function.update (fun _ => none) PO_KERNEL (some (table K 0))

def kernelLabels : Labels :=
  Function.update (Function.update (Function.update (Function.update (Function.update
    (fun _ => none) (table K 0) (some ⟨PO_KERNEL,[]⟩)) (table K 1) (some ⟨PO_KERNEL,[0]⟩))
    (table K 2) (some ⟨PO_KERNEL,[0,0]⟩)) (table K 3) (some ⟨PO_KERNEL,[0,0,0]⟩))
    (table K 4) (some ⟨PO_KERNEL,[0,0,1]⟩)

theorem table_frame {i : ℕ} (hi : i < 5) :
    table K i % 4096 = 0 ∧ 0x40000 ≤ table K i ∧ table K i < K.kernel_end ∧
      K.kernel_end ≤ 0x7F000 := by
  have h1 := K.text_start
  have h2 := K.tables_in_data
  have h3 := K.tables_aligned
  have h4 := K.tables_end
  have h5 := K.end_below_stack
  simp only [KERNEL_START_ADDR, KERNEL_STACK_TOP, PAGESIZE, table] at *
  omega

theorem table_ne {i j : ℕ} (h : i ≠ j) : table K i ≠ table K j := by
  simp only [table]
  omega

theorem cleared_blank (m : Memory) {i : ℕ} (hi : i < 5) :
    Blank (LibC.memset m K.kernel_pagetables 0 (5*4096)) (table K i) := by
  intro j
  have hj := j.isLt
  have h : load64 (fill m K.kernel_pagetables 0 (5*4096)) (table K i+8*j.val) = 0 :=
    load64_fill_zero _ _ _ _ (by simp only [table]; omega) (by simp only [table]; omega)
  rw [LibC.memset_fill]
  exact h

/-- The tables up to `k` are linked, the last of them and the rest are blank. -/
structure Linking (m : Memory) (label : Labels) (k : ℕ) : Prop where
  forest : Forest scheme (kernelRoots K) (slot m) label
  empty : ∀ va, leafWord m (table K 0) va = 0
  blank : ∀ i, k ≤ i → i < 5 → Blank m (table K i)
  fresh : ∀ i, k < i → i < 5 → label (table K i) = none

variable {K} {m : Memory} {label : Labels}

theorem Linking.first (m : Memory) :
    Linking K (LibC.memset m K.kernel_pagetables 0 (5*4096))
      (Function.update (fun _ => none) (table K 0) (some ⟨PO_KERNEL,[]⟩)) 0 where
  forest := by
    have hempty : Forest scheme (fun _ => none : ℤ → Option ℕ) (slot m) (fun _ => none) :=
      ⟨fun _ _ h => (by cases h),fun _ _ h => (by cases h),fun _ _ h => (by cases h),
        fun _ _ _ _ h => (by cases h),fun _ _ _ h => (by cases h)⟩
    exact hempty.plant rfl rfl (table_frame K (by decide)).1 (cleared_blank K m (by decide))
      fun _ _ _ h => (by cases h)
  empty := leaf_blank (cleared_blank K m (by decide))
  blank i _ hi := cleared_blank K m hi
  fresh i h _ := by rw [Function.update_of_ne (table_ne K (by omega))]

/-- The next table is linked below one that is linked already. -/
theorem Linking.link {k a : ℕ} {p : List Index} {j : Index} (L : Linking K m label k)
    (hk : k+1 < 5) (ha : a ≤ k) (hlabel : label (table K a) = some ⟨PO_KERNEL,p⟩)
    (hp : p.length < 3) (hzero : slot m (table K a) j = 0) :
    Linking K (setEntry m (table K a) j (table K (k+1)+7))
      (Function.update label (table K (k+1)) (some ⟨PO_KERNEL,p++[j]⟩)) (k+1) := by
  obtain ⟨halign,-,hend,hmax⟩ := table_frame K hk
  have haligna := (table_frame K (i := a) (by omega)).1
  have hlt : table K (k+1) < 0x200000 := by omega
  have hne := table_ne K (i := k+1) (j := a) (by omega)
  have A := link_attached (i := j) L.forest haligna halign hlt hne
    (L.blank (k+1) (by omega) hk)
  have hroot : label (table K 0) = some ⟨PO_KERNEL,[]⟩ :=
    L.forest.root PO_KERNEL _ (Function.update_self ..)
  refine ⟨L.forest.attach hlabel hp (L.fresh (k+1) (by omega) hk) halign A hzero,
    fun va => ?_,fun i hi hi5 => ?_,fun i hi hi5 => ?_⟩
  · have hleaf : leaf scheme (slot (setEntry m (table K a) j (table K (k+1)+7))) (table K 0)
        (indices va) = leaf scheme (slot m) (table K 0) (indices va) :=
      L.forest.attach_leaf hlabel hp halign A hzero hroot (by simp)
    exact hleaf.trans (L.empty va)
  · exact (L.blank i (by omega) hi5).other haligna (table_frame K hi5).1
      (table_ne K (by omega)) _ _
  · rw [Function.update_of_ne (table_ne K (by omega))]
    exact L.fresh i (by omega) hi5

/-- The memory with the first two links. -/
def linkedTwo (K : KernelImage) (m : Memory) : Memory :=
  setEntry (setEntry (LibC.memset m K.kernel_pagetables 0 (5*4096)) (table K 0) 0
    (table K 1+7)) (table K 1) 0 (table K 2+7)

/-- The memory in which `virtual_memory_init` maps physical memory. -/
def linkedTables (K : KernelImage) (m : Memory) : Memory :=
  setEntry (setEntry (linkedTwo K m) (table K 2) 0 (table K 3+7)) (table K 2) 1 (table K 4+7)

theorem linked (m : Memory) : Linking K (linkedTables K m) (kernelLabels K) 4 := by
  have L₀ := Linking.first (K := K) m
  have L₁ := L₀.link (a := 0) (p := []) (j := 0) (by decide) (by decide)
    (Function.update_self ..) (by decide) (L₀.blank 0 (by decide) (by decide) 0)
  have L₂ := L₁.link (a := 1) (p := [0]) (j := 0) (by decide) (by decide)
    (Function.update_self ..) (by decide) (L₁.blank 1 (by decide) (by decide) 0)
  have L₃ := L₂.link (a := 2) (p := [0,0]) (j := 0) (by decide) (by decide)
    (Function.update_self ..) (by decide) (L₂.blank 2 (by decide) (by decide) 0)
  refine L₃.link (a := 2) (p := [0,0]) (j := 1) (by decide) (by decide) ?_ (by decide) ?_
  · rw [Function.update_of_ne (table_ne K (by decide)), Function.update_self]
    rfl
  · have h2 := (table_frame K (i := 2) (by decide)).1
    have hother := entry_setEntry_other (linkedTwo K m) (table K 2) 0 (table K 3+7) (table K 2) 1
      h2 h2 (by decide) (by decide) (Or.inr (by decide))
    exact hother.trans (L₂.blank 2 (by decide) (by decide) 1)

theorem kernelLabels_root : kernelLabels K (table K 0) = some ⟨PO_KERNEL,[]⟩ :=
  (linked (K := K) fun _ => 0).forest.root PO_KERNEL _ (Function.update_self ..)

theorem kernelLabels_low : kernelLabels K (table K 3) = some ⟨PO_KERNEL,[0,0,0]⟩ := by
  rw [kernelLabels, Function.update_of_ne (table_ne K (by decide)), Function.update_self]

theorem kernelLabels_some {n : ℕ} {q : Place ℤ Index} (h : kernelLabels K n = some q) :
    q.owner = PO_KERNEL ∧ ∃ i < 5, n = table K i := by
  have hpeel : ∀ {l : Labels} {i : ℕ} {p : List Index}, i < 5 →
      Function.update l (table K i) (some ⟨PO_KERNEL,p⟩) n = some q →
      l n = some q ∨ (q.owner = PO_KERNEL ∧ ∃ i < 5, n = table K i) := by
    intro l i p hi hl
    by_cases hn : n = table K i
    · rw [hn, Function.update_self, Option.some.injEq] at hl
      rw [← hl]
      exact Or.inr ⟨rfl,i,hi,hn⟩
    · rw [Function.update_of_ne hn] at hl
      exact Or.inl hl
  rcases hpeel (by decide) h with h | h
  · rcases hpeel (by decide) h with h | h
    · rcases hpeel (by decide) h with h | h
      · rcases hpeel (by decide) h with h | h
        · rcases hpeel (by decide) h with h | h
          · cases h
          · exact h
        · exact h
      · exact h
    · exact h
  · exact h

theorem kernelLabels_small {n : ℕ} {q : Place ℤ Index} (h : kernelLabels K n = some q) :
    n < 0x200000 := by
  obtain ⟨-,i,hi,rfl⟩ := kernelLabels_some h
  have := table_frame K hi
  omega

end Init

section Identity

variable {K : KernelImage} {s : KState} {k n perm : ℕ}

theorem low_tableIndices {va : ℕ} (h : vpage va < 512) : tableIndices va = [0,0,0] := by
  have hzero : tableIndices 0 = [0,0,0] := rfl
  have hpage : vpage 0 = 0 := rfl
  rw [← hzero, tableIndices_eq_iff]
  omega

theorem index123_low {va : ℕ} (h : va < 0x200000) : index123 va = 0 := by
  have hshift : va >>> (PAGEOFFBITS+PAGEINDEXBITS) = 0 := by
    simp only [Nat.shiftRight_eq_div_pow, PAGEOFFBITS, PAGEINDEXBITS, Nat.reduceAdd,
      Nat.reducePow]
    omega
  rw [index123, hshift]
  rfl

/-- The kernel's tables with the leaves that have been written so far. -/
structure Identity (K : KernelImage) (k n perm : ℕ) (s : KState) (m : Memory) : Prop where
  forest : Forest scheme (kernelRoots K) (slot m) (kernelLabels K)
  leaf : ∀ va, leafWord m (table K 0) va = if k ≤ vpage va ∧ vpage va < k+n
    then vpage va*4096+perm else leafWord s.mem (table K 0) va

/-- One store of the loop. -/
theorem identity_step (F : Forest scheme (kernelRoots K) (slot s.mem) (kernelLabels K))
    (hk : k < 512) (hperm : perm = 3 ∨ perm = 7) :
    Identity K k 1 perm s (setEntry s.mem (table K 3) (L4PAGEINDEX (k*4096)) (k*4096+perm)) := by
  have hroot : kernelRoots K PO_KERNEL = some (table K 0) := Function.update_self ..
  have hpage : vpage (k*4096) = k := vpage_page k (by omega)
  have hw : walk scheme (slot s.mem) (table K 0) (tableIndices (k*4096)) = some (table K 3) := by
    rw [low_tableIndices (by omega)]
    exact (F.walk_iff hroot (by decide)).2 kernelLabels_low
  have halign := (table_frame K (i := 3) (by decide)).1
  have W : Written (kernelLabels K) (slot s.mem)
      (slot (setEntry s.mem (table K 3) (L4PAGEINDEX (k*4096)) (k*4096+perm))) (table K 3)
      (index (k*4096) 3) (k*4096+perm) := by
    refine ⟨entry_setEntry _ _ _ _ (by omega),fun m q j hm hne => ?_⟩
    refine entry_setEntry_other _ _ _ _ _ _ halign (F.valid m q hm) (pageindex_lt _ 3) j.isLt ?_
    exact hne.imp id fun h hval => h (Fin.ext hval)
  refine ⟨F.write kernelLabels_low rfl W,fun va => ?_⟩
  have hlen : (indices va).length = scheme.depth+1 := rfl
  have hone := F.write_leaf hroot hw (by simp) W hroot hlen
  simp only [← indices_snoc, indices_eq_iff, hpage, true_and] at hone
  change leafWord _ _ va = if vpage va = k then k*4096+perm else leafWord s.mem _ va at hone
  rw [hone]
  by_cases hv : vpage va = k
  · rw [if_pos hv, if_pos (by omega), hv]
  · rw [if_neg hv, if_neg (by omega)]

theorem Identity.trans {m m' : Memory} (A : Identity K k 1 perm s m)
    (B : Identity K (k+1) n perm { s with mem := m } m') : Identity K k (n+1) perm s m' where
  forest := B.forest
  leaf va := by
    rw [B.leaf va]
    by_cases hv : k+1 ≤ vpage va ∧ vpage va < k+1+n
    · rw [if_pos hv, if_pos (by omega)]
    · rw [if_neg hv, A.leaf va]
      by_cases hk : vpage va = k
      · rw [if_pos (by omega), if_pos (by omega)]
      · rw [if_neg (by omega), if_neg (by omega)]

theorem identity_loop (hperm : perm = 3 ∨ perm = 7) (n : ℕ) {k : ℕ} {s : KState} (hk : k+n ≤ 512)
    (F : Forest scheme (kernelRoots K) (slot s.mem) (kernelLabels K)) :
    ∃ m, virtual_memory_map_loop (table K 0) perm none n (k*4096) (k*4096) 0 (table K 3) s =
      .ok (0,{ s with mem := m }) ∧ Identity K k n perm s m := by
  induction n generalizing k s with
  | zero => exact ⟨s.mem,rfl,F,fun va => by rw [if_neg (by omega)]⟩
  | succ n ih =>
    have hstep := identity_step F (k := k) (by omega) hperm
    generalize hm₁ : setEntry s.mem (table K 3) (L4PAGEINDEX (k*4096)) (k*4096+perm) = m₁ at hstep
    obtain ⟨m,hrun,I⟩ := ih (k := k+1) (s := { s with mem := m₁ }) (by omega) hstep.forest
    have hidx : index123 (k*4096) = 0 := index123_low (by omega)
    have hnext : (k*4096+PAGESIZE) % 2^64 = (k+1)*4096 := by
      simp only [PAGESIZE]
      omega
    have hpresent : perm &&& PTE_P ≠ 0 := (present_iff perm).2 (by omega)
    have hnull : table K 3 ≠ NULL := by
      have := (table_frame K (i := 3) (by decide)).2.1
      simp only [NULL]
      omega
    have hword : k*4096 ||| perm = k*4096+perm :=
      or_flags _ _ (Nat.mul_mod_left k 4096) (by omega)
    refine ⟨m,?_,hstep.trans I⟩
    simp only [virtual_memory_map_loop, hidx, ne_eq, not_true_eq_false, if_false, pure,
      Except.pure, bind, Except.bind, if_pos (And.intro hpresent hnull), hnext, hword,
      mem_kstate, setMem_kstate, hm₁, hrun]

/-- `virtual_memory_map` of some pages of physical memory onto themselves. -/
theorem identity_map (hperm : perm = 3 ∨ perm = 7) (hn : 0 < n) (hk : k+n ≤ 512)
    (F : Forest scheme (kernelRoots K) (slot s.mem) (kernelLabels K)) :
    ∃ m, virtual_memory_map (table K 0) (k*4096) (k*4096) (n*4096) perm none s =
      .ok (0,{ s with mem := m }) ∧ Identity K k n perm s m := by
  have hmax : k*4096+n*4096 ≤ MEMSIZE_PHYSICAL := by
    simp only [MEMSIZE_PHYSICAL]
    omega
  obtain ⟨m,hrun,I⟩ := identity_loop hperm n hk F
  refine ⟨m,?_,I⟩
  have hroot : kernelRoots K PO_KERNEL = some (table K 0) := Function.update_self ..
  have hlook : lookup_l4pagetable (table K 0) (k*4096) perm none s = .ok (table K 3,s) := by
    have hw : walk scheme (slot s.mem) (table K 0) (tableIndices (k*4096)) = some (table K 3) := by
      rw [low_tableIndices (by rw [vpage_page k (by omega)]; omega)]
      exact (F.walk_iff hroot (by decide)).2 kernelLabels_low
    refine lookup_present (k*4096) perm none F (fun c q hc => ?_) [0,1,2]
      (F.root PO_KERNEL _ hroot) (by simp) hw
    exact kernelLabels_small hc
  -- the first turn looks the table up and the others keep it
  have henter : virtual_memory_map_loop (table K 0) perm none n (k*4096) (k*4096) (-1) NULL s =
      virtual_memory_map_loop (table K 0) perm none n (k*4096) (k*4096) 0 (table K 3) s := by
    obtain ⟨j,rfl⟩ : ∃ j, n = j+1 := ⟨n-1,by omega⟩
    have hidx : index123 (k*4096) = 0 := index123_low (by omega)
    have hne : (0 : ℤ) ≠ -1 := by decide
    simp only [virtual_memory_map_loop, hidx, if_pos hne, hlook, ne_eq, not_true_eq_false,
      if_false, pure, Except.pure, bind, Except.bind]
  have hva : k*4096 % PAGESIZE = 0 := Nat.mul_mod_left k 4096
  have hsz : n*4096 % PAGESIZE = 0 := Nat.mul_mod_left n 4096
  have hsum : (k*4096+n*4096) % 2^64 = k*4096+n*4096 := Nat.mod_eq_of_lt (by omega)
  have hge : k*4096+n*4096 ≥ k*4096 := Nat.le_add_right _ _
  have hp : perm &&& PTE_P ≠ 0 := (present_iff perm).2 (by omega)
  have hlt : perm < 0x1000 := by omega
  have htable : table K 0 % PAGESIZE = 0 := (table_frame K (i := 0) (by decide)).1
  have hcount : n*4096 / PAGESIZE = n := Nat.mul_div_cancel n (by decide)
  simp only [virtual_memory_map, hsum, kassert_true _ hva, kassert_true _ hsz,
    kassert_true _ hge, kassert_true _ hmax, kassert_true _ hlt, kassert_true _ htable, if_pos hp,
    kassert_true _ (Or.inl hge), hcount, henter, hrun, bind, Except.bind]

end Identity

section KernelInit

variable (K : KernelImage) (s : KState)

/-- The state before the first process is set up, up to its memory. -/
abbrev initial (m : Memory) : KState :=
  { processes_init (pageinfo_init K { s with cr3 := K.kernel_pagetable }) with mem := m }

theorem linked_words (m : Memory) : setEntry (setEntry (setEntry (setEntry
    (LibC.memset m K.kernel_pagetables 0 (5*PAGESIZE)) (table K 0) 0 (table K 1 ||| 7))
    (table K 1) 0 (table K 2 ||| 7)) (table K 2) 0 (table K 3 ||| 7)) (table K 2) 1
    (table K 4 ||| 7) = linkedTables K m := by
  have hword : ∀ i < 5, table K i ||| 7 = table K i+7 := fun i hi =>
    or_flags _ 7 (table_frame K hi).1 (by decide)
  rw [hword 1 (by decide), hword 2 (by decide), hword 3 (by decide), hword 4 (by decide)]
  rfl

theorem virtual_memory_init_map : virtual_memory_init K s =
    (virtual_memory_map (table K 0) (0*4096) (0*4096) (512*4096) 7 none
      { s with mem := linkedTables K s.mem }).bind
    fun r => .ok { r.2 with cr3 := K.kernel_pagetable } := by
  rw [← linked_words]
  rfl

theorem virtual_memory_init_ok : ∃ m, virtual_memory_init K s =
    .ok { s with mem := m, cr3 := K.kernel_pagetable } ∧
      Identity K 0 512 7 { s with mem := linkedTables K s.mem } m := by
  have L := linked (K := K) s.mem
  obtain ⟨m,hrun,I⟩ := identity_map (s := { s with mem := linkedTables K s.mem }) (k := 0) (n := 512)
    (Or.inr rfl) (by decide) (by decide) L.forest
  refine ⟨m,?_,I⟩
  rw [virtual_memory_init_map, hrun]
  rfl

/-- The three maps leave the words of `kernelWord`. -/
theorem identity_words {m₀ m₁ m₂ m : Memory} {s₀ s₁ s₂ : KState} (h₀ : s₀.mem = m₀)
    (h₁ : s₁.mem = m₁) (h₂ : s₂.mem = m₂) (hempty : ∀ va, leafWord m₀ (table K 0) va = 0)
    (A : Identity K 0 512 7 s₀ m₁) (B : Identity K 0 256 3 s₁ m₂) (C : Identity K 0xB8 1 7 s₂ m)
    (va : ℕ) : leafWord m (table K 0) va = kernelWord va := by
  rw [C.leaf va, h₂, B.leaf va, h₁, A.leaf va, h₀, hempty va, kernelWord]
  by_cases hcon : vpage va = 0xB8
  · rw [if_pos (by omega), if_pos (by omega), if_pos hcon, hcon]
  · rw [if_neg (c := 0xB8 ≤ vpage va ∧ _) (by omega)]
    by_cases hlow : vpage va < 256
    · rw [if_pos (by omega), if_pos hlow, if_neg hcon]
    · rw [if_neg (c := 0 ≤ vpage va ∧ vpage va < 0+256) (by omega), if_neg hlow]
      by_cases hmid : vpage va < 512
      · rw [if_pos (by omega), if_pos hmid]
      · rw [if_neg (by omega), if_neg hmid]

theorem kernel_init_ok : ∃ m, kernel_init K s = .ok (initial K s m) ∧
    Forest scheme (kernelRoots K) (slot m) (kernelLabels K) ∧
    ∀ va, leafWord m (table K 0) va = kernelWord va := by
  obtain ⟨m₁,hinit,A⟩ := virtual_memory_init_ok K s
  obtain ⟨m₂,hlow,B⟩ := identity_map (s := initial K s m₁) (k := 0) (n := 256) (Or.inl rfl)
    (by decide) (by decide) A.forest
  obtain ⟨m,hcon,C⟩ := identity_map (s := initial K s m₂) (k := 0xB8) (n := 1) (Or.inr rfl)
    (by decide) (by decide) B.forest
  refine ⟨m,?_,C.forest,identity_words K rfl rfl rfl (linked (K := K) s.mem).empty A B C⟩
  have hmap : kernel_init K s = ((virtual_memory_map (table K 0) (0*4096) (0*4096) (256*4096) 3
      none (initial K s m₁)).bind fun r => (virtual_memory_map (table K 0) (0xB8*4096) (0xB8*4096)
        (1*4096) 7 none r.2).bind fun r => .ok r.2) := by
    rw [kernel_init, hinit]
    rfl
  rw [hmap, hlow]
  simp only [Except.bind]
  rw [hcon]

/-- The first state: no process, and no page in use but those the kernel has marked. -/
theorem initial_paging {m : Memory} (F : Forest scheme (kernelRoots K) (slot m) (kernelLabels K))
    (hleaf : ∀ va, leafWord m (table K 0) va = kernelWord va) :
    Paging K (rootsOf K (initial K s m)) (kernelLabels K) (initial K s m) := by
  have hpages : ∀ pn < 512, (initial K s m).pageinfo pn = pageinfo_init_entry K (pn*4096) :=
    fun pn hpn => if_pos hpn
  have hzero : K.kernel_pagetable = table K 0 := by simp
  have hroots : rootsOf K (initial K s m) = kernelRoots K := by
    funext o
    by_cases ho : o = PO_KERNEL
    · rw [ho, rootsOf_kernel, kernelRoots, Function.update_self, hzero]
    · have hno : ¬(0 < o ∧ o < 16 ∧ live (initial K s m) o.toNat) := by
        rintro ⟨hpos,hlt,hlive,-⟩
        have hn : o.toNat < NPROC := by
          simp only [NPROC]
          omega
        exact hlive (by simp only [processes_init, if_pos hn])
      rw [rootsOf, if_neg ho, if_neg hno, kernelRoots, Function.update_of_ne ho]
  rw [hroots]
  refine ⟨F,fun n q hn => ?_,fun n q hn => Or.inl (kernelLabels_some hn).1,?_,?_,?_,
    fun pn hpn _ => hpages pn hpn,fun pn hpn h => Or.inl ?_⟩
  · obtain ⟨ho,i,hi,rfl⟩ := kernelLabels_some hn
    obtain ⟨halign,hlow,hend,hmax⟩ := table_frame K hi
    refine ⟨by omega,?_⟩
    have hpn : table K i / 4096*4096 = table K i := by omega
    have hreserved : physical_memory_isreserved (table K i) = false := by
      simp only [physical_memory_isreserved, decide_eq_false_iff_not, IOPHYSMEM, EXTPHYSMEM]
      omega
    have hkernel : (KERNEL_START_ADDR ≤ table K i ∧ table K i < K.kernel_end) ∨
        table K i = KERNEL_STACK_TOP-PAGESIZE := Or.inl ⟨hlow,hend⟩
    rw [hpages _ (by omega), hpn, pageinfo_init_entry, hreserved, ho]
    simp only [Bool.false_eq_true, if_false, if_pos hkernel]
    rfl
  · rw [kernelRoots, Function.update_self, hzero]
  · rw [hzero]
    exact hleaf
  · intro o r va hr ho
    rw [kernelRoots, Function.update_of_ne ho] at hr
    cases hr
  · rw [hpages pn hpn]
    simp only [pageinfo_init_entry] at h ⊢
    simp only [h, ne_eq, not_true_eq_false, if_false]

end KernelInit

end WeensyOS.KernelTables
