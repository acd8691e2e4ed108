import WeensyOS.ProgramLoading

/-!
# The state the kernel boots into

Each `process_setup` gives one process a private address space. The pages it
takes from the allocator lie below `PROC_START_ADDR` and there are more than
enough of them, so the copies of the kernel's table and the stack pages never
run out; only the embedded programs decide whether booting succeeds.
-/

set_option autoImplicit false

namespace WeensyOS.BootResult
open WeensyOS.FlatMemory WeensyOS.KernelState WeensyOS.PageTables WeensyOS.PageAllocator
open WeensyOS.Exceptions WeensyOS.Boot WeensyOS.CheckedRuns WeensyOS.RadixForest
open WeensyOS.TableWords WeensyOS.FreePages WeensyOS.PagingInvariant WeensyOS.TableWalks
open WeensyOS.PageMaps WeensyOS.TableCopies WeensyOS.ForkCopies WeensyOS.KernelInvariant
open WeensyOS.KernelChecks WeensyOS.KernelSteps WeensyOS.Isolation WeensyOS.KernelTables
open WeensyOS.ProgramLoading

variable {K : KernelImage} {label label' : Labels} {s s' : KState} {pid r : ℕ}

section LowPages

/-- Free pages below the addresses at which programs are loaded. -/
def lowFree (s : KState) : ℕ := ((freePages s).filter (· < 256)).card

theorem lowFree_le (s : KState) : lowFree s ≤ freeCount s :=
  Finset.card_le_card (Finset.filter_subset _ _)

theorem lowFree_congr (h : ∀ pn < 256, s'.pageinfo pn = s.pageinfo pn) :
    lowFree s' = lowFree s := by
  have hsame : (freePages s').filter (· < 256) = (freePages s).filter (· < 256) := by
    ext pn
    simp only [Finset.mem_filter, mem_freePages]
    exact and_congr_left fun hpn => by rw [h pn hpn]
  rw [lowFree, lowFree, hsame]

theorem lowFree_grows {o : ℤ} {c : ℕ} (G : Grows o label label' c s s') :
    lowFree s ≤ lowFree s'+c := by
  have hsub : (freePages s).filter (· < 256) ⊆
      (freePages s').filter (· < 256) ∪ (freePages s \ freePages s') := by
    intro pn hpn
    simp only [Finset.mem_filter, Finset.mem_union, Finset.mem_sdiff] at hpn ⊢
    by_cases h : pn ∈ freePages s'
    · exact Or.inl ⟨h,hpn.2⟩
    · exact Or.inr ⟨hpn.1,h⟩
  have hcard := Finset.card_le_card hsub
  have hunion := Finset.card_union_le ((freePages s').filter (· < 256))
    (freePages s \ freePages s')
  rw [G.card] at hunion
  exact hcard.trans hunion

end LowPages

section Lowest

/-- Free pages have been taken from the bottom. -/
structure Lowest (s s' : KState) : Prop where
  sub : freePages s' ⊆ freePages s
  below : ∀ f ∈ freePages s, f ∉ freePages s' → ∀ g ∈ freePages s', f < g

theorem Lowest.same (h : s'.pageinfo = s.pageinfo) : Lowest s s' := by
  have hsame := freePages_congr h
  refine ⟨hsame.le,fun f hf hf' => ?_⟩
  rw [hsame] at hf'
  exact absurd hf hf'

theorem Lowest.trans {s'' : KState} (A : Lowest s s') (B : Lowest s' s'') : Lowest s s'' where
  sub := B.sub.trans A.sub
  below f hf hf' g hg := by
    by_cases h : f ∈ freePages s'
    · exact B.below f h hf' g hg
    · exact A.below f hf h g (B.sub hg)

theorem get_free_addr_lowest (o : ℤ) (s : KState) : Lowest s (get_free_addr o s).2 := by
  by_cases hfree : freePages s = ∅
  · rw [get_free_addr_none o s hfree]
    exact Lowest.same rfl
  · obtain ⟨f,hf,hleast,hget⟩ := get_free_addr_some o s hfree
    rw [hget]
    have herase := freePages_setPageinfo s f ⟨o,1⟩ (info_ne_free o)
    refine ⟨fun g hg => ?_,fun g hg hg' k hk => ?_⟩
    · rw [herase] at hg
      exact Finset.mem_of_mem_erase hg
    rw [herase, Finset.mem_erase] at hg' hk
    have hgf : g = f := by
      by_contra hne
      exact hg' ⟨hne,hg⟩
    have := hleast k hk.2
    omega

theorem pagetable_alloc_lowest (s : KState) : Lowest s (pagetable_alloc s).2 := by
  have h := get_free_addr_lowest s.pagetable_owner s
  rcases hget : get_free_addr s.pagetable_owner s with ⟨pt,s₁⟩
  rw [hget] at h
  simp only [pagetable_alloc, hget]
  split
  · exact h
  · exact h.trans (Lowest.same rfl)

theorem setMem_lowest (s : KState) (m : Memory) : Lowest s (setMem s m) := Lowest.same rfl

theorem lookup_entry_lowest {va perm i pt : ℕ} {x : Option ℕ}
    (h : lookup_l4pagetable_entry va perm (some pagetable_alloc) i pt s = .ok (x,s')) :
    Lowest s s' := by
  have halloc := pagetable_alloc_lowest s
  simp only [lookup_l4pagetable_entry] at h
  split at h
  · cases h
    exact Lowest.same rfl
  · split at h
    · cases h
      exact Lowest.same rfl
    · split at h
      · cases h
        exact halloc
      · obtain ⟨-,h⟩ := (seq_ok_iff _ _ _).1 h
        cases h
        exact halloc.trans (setMem_lowest _ _)

theorem lookup_loop_lowest {va perm : ℕ} (levels : List ℕ) {pt l4 : ℕ} {s : KState}
    (h : lookup_l4pagetable_loop va perm (some pagetable_alloc) levels pt s = .ok (l4,s')) :
    Lowest s s' := by
  induction levels generalizing pt s with
  | nil =>
    cases h
    exact Lowest.same rfl
  | cons l levels ih =>
    obtain ⟨⟨found,s₁⟩,hentry,hrest⟩ := (bind_ok_iff _ _ _).1 h
    have hfirst := lookup_entry_lowest hentry
    cases found with
    | none =>
      cases hrest
      exact hfirst
    | some pe =>
      obtain ⟨-,hrest⟩ := (seq_ok_iff _ _ _).1 hrest
      exact hfirst.trans (ih hrest)

theorem map_loop_lowest {perm pt : ℕ} (n : ℕ) {va pa l4 : ℕ} {last res : ℤ} {s : KState}
    (h : virtual_memory_map_loop pt perm (some pagetable_alloc) n va pa last l4 s = .ok (res,s')) :
    Lowest s s' := by
  induction n generalizing va pa l4 last s with
  | zero =>
    cases h
    exact Lowest.same rfl
  | succ n ih =>
    -- what is left of the turn once the level-4 table is known
    have hrest : ∀ l4' (s₁ : KState),
        (if perm &&& PTE_P ≠ 0 ∧ l4' ≠ NULL then
          virtual_memory_map_loop pt perm (some pagetable_alloc) n ((va+PAGESIZE) % 2^64)
            ((pa+PAGESIZE) % 2^64) (index123 va) l4'
            (setMem s₁ (setEntry (mem s₁) l4' (L4PAGEINDEX va) (pa ||| perm)))
        else if l4' ≠ NULL then
          virtual_memory_map_loop pt perm (some pagetable_alloc) n ((va+PAGESIZE) % 2^64)
            ((pa+PAGESIZE) % 2^64) (index123 va) l4'
            (setMem s₁ (setEntry (mem s₁) l4' (L4PAGEINDEX va) perm))
        else if perm &&& PTE_P ≠ 0 then Except.ok (-1,s₁)
        else virtual_memory_map_loop pt perm (some pagetable_alloc) n ((va+PAGESIZE) % 2^64)
          ((pa+PAGESIZE) % 2^64) (index123 va) l4' s₁) = .ok (res,s') → Lowest s₁ s' := by
      intro l4' s₁ hrun
      split at hrun
      · exact (setMem_lowest _ _).trans (ih hrun)
      · split at hrun
        · exact (setMem_lowest _ _).trans (ih hrun)
        · split at hrun
          · cases hrun
            exact Lowest.same rfl
          · exact ih hrun
    simp only [virtual_memory_map_loop] at h
    split at h
    · obtain ⟨⟨l4',s₁⟩,hlook,hrun⟩ := (bind_ok_iff _ _ _).1 h
      exact (lookup_loop_lowest [0,1,2] hlook).trans (hrest l4' s₁ hrun)
    · exact hrest l4 s h

theorem map_lowest {va pa pt sz perm : ℕ} {res : ℤ}
    (h : virtual_memory_map pt va pa sz perm (some pagetable_alloc) s = .ok (res,s')) :
    Lowest s s' := by
  simp only [virtual_memory_map, seq_ok_iff] at h
  split at h
  · simp only [seq_ok_iff] at h
    exact map_loop_lowest _ h.2.2.2.2.2.2.2.2
  · simp only [seq_ok_iff] at h
    exact map_loop_lowest _ h.2.2.2.2.2

theorem copy_pagetable_lowest {pt r : ℕ} {o : ℤ}
    (h : copy_pagetable pt o s = .ok (r,s')) : Lowest s s' := by
  have hloop : ∀ (l : List ℕ) {r : ℕ} {s s' : KState},
      copy_pagetable_loop pt r l s = .ok s' → Lowest s s' := by
    intro l r
    induction l with
    | nil =>
      intro s s' h
      cases h
      exact Lowest.same rfl
    | cons va l ih =>
      intro s s' h
      rw [copy_pagetable_loop] at h
      simp only at h
      split at h
      · obtain ⟨⟨res,s₁⟩,hmap,hrest⟩ := (bind_ok_iff _ _ _).1 h
        simp only at hrest
        split at hrest
        · cases hrest
        · exact (map_lowest hmap).trans (ih hrest)
      · exact ih h
  have hsame : Lowest s { s with pagetable_owner := o } := Lowest.same rfl
  have halloc := hsame.trans (pagetable_alloc_lowest { s with pagetable_owner := o })
  rcases hget : pagetable_alloc { s with pagetable_owner := o } with ⟨r₁,s₁⟩
  rw [hget] at halloc
  simp only [copy_pagetable, hget] at h
  split at h
  · cases h
    exact halloc
  · obtain ⟨s₂,hrun,hrest⟩ := (bind_ok_iff _ _ _).1 h
    cases hrest
    exact halloc.trans (hloop _ hrun)

end Lowest

/-- Between two calls of `process_setup`. -/
structure Booting (K : KernelImage) (label : Labels) (s : KState) : Prop where
  paging : Paging K (rootsOf K s) label s
  isolated : Isolated (rootsOf K s) label s
  reached : Reached (rootsOf K s) label s
  stack : StackMapped (rootsOf K s) s
  slot0 : (s.processes 0).p_state = .P_FREE
  pids : ∀ pid < NPROC, (s.processes pid).p_pid = pid
  used : ∀ pn < 512, ∀ pid, Slot pid → s.pageinfo pn = ⟨pid,1⟩ →
    (s.processes pid).p_state ≠ .P_FREE
  runnable : ∀ pid, Slot pid → (s.processes pid).p_state ≠ .P_FREE →
    (s.processes pid).p_state = .P_RUNNABLE ∧ (s.processes pid).p_pagetable ≠ NULL

section Setup

/-- `process_setup` once the program is loaded. -/
def setup_finish (pid : ℕ) (s : KState) : Checked KState := do
  let s := s.setRegisters pid
    { (s.processes pid).p_registers with reg_rsp := UInt64.ofNat MEMSIZE_VIRTUAL }
  let (stack_p_addr,s) := get_free_addr pid s
  let (_,s) ← virtual_memory_map (s.processes pid).p_pagetable (MEMSIZE_VIRTUAL-PAGESIZE)
    stack_p_addr PAGESIZE 7 (some pagetable_alloc) s
  .ok (s.setState pid .P_RUNNABLE)

theorem process_setup_eq (K : KernelImage) (pid program : ℕ) (s : KState) :
    process_setup K pid program s =
      (copy_pagetable K.kernel_pagetable pid (s.setRegisters pid process_init_registers)).bind
      fun x => (program_load K pid program none (x.2.setPagetable pid x.1)).bind
      fun y => (kassert (y.1 ≥ 0) "r >= 0").bind fun _ => setup_finish pid y.2 := by
  have hflags : PTE_P ||| PTE_W ||| PTE_U = 7 := rfl
  simp only [process_setup, setup_finish, hflags]
  rfl

/-- The address space a process starts with, before its program is loaded. -/
structure Rooted (K : KernelImage) (pid r : ℕ) (label' : Labels) (s s' : KState) : Prop where
  loader : Loader (Function.update (rootsOf K s) pid (some r)) pid r s'
  loading : Loading K (Function.update (rootsOf K s) pid (some r)) label' pid r s' s'
  empty : ∀ va, 256 ≤ vpage va → leafWord s'.mem r va = 0
  others : ∀ (o : ℤ) x va, o ≠ pid → rootsOf K s o = some x →
    leafWord s'.mem x va = leafWord s.mem x va
  processes : s'.processes = Function.update s.processes pid
    ⟨pid,process_init_registers,(s.processes pid).p_state,r⟩
  owner : s'.pagetable_owner = pid
  pageinfo : ∀ pn, s'.pageinfo pn = s.pageinfo pn ∨ s'.pageinfo pn = ⟨pid,1⟩
  low : lowFree s ≤ lowFree s'+4
  lowest : Lowest s s'
  null : r ≠ NULL

/-- The copy of the kernel's table becomes the table of the process. -/
theorem setup_copied (B : Booting K label s) (hp : Slot pid)
    (hstate : (s.processes pid).p_state = .P_FREE) (hlow : 4 ≤ lowFree s) :
    ∃ r label' s₁, Rooted K pid r label' s (s₁.setPagetable pid r) ∧
      copy_pagetable K.kernel_pagetable pid (s.setRegisters pid process_init_registers) =
        .ok (r,s₁) := by
  have ho := hp.owner
  have hro : rootsOf K s pid = none := by
    rw [rootsOf_slot hp, if_neg fun h => h.1 hstate]
  have P : Paging K (rootsOf K s) label (s.setRegisters pid process_init_registers) :=
    Paging.congr B.paging rfl rfl
  have hk : rootsOf K s PO_KERNEL = some K.kernel_pagetable := rootsOf_kernel
  have L : LowLeaves label (s.setRegisters pid process_init_registers) K.kernel_pagetable := by
    refine ⟨fun va hva => low_leaf P hk hva,fun va hva => ?_⟩
    rw [P.kernel_leaf, kernelWord, if_pos hva]
    split <;> simp
  have hcount₀ : freeCount (s.setRegisters pid process_init_registers) = freeCount s :=
    freeCount_congr rfl
  have hle := lowFree_le s
  obtain ⟨f,label',s₂,hcopy,hnull,G,P₂,hpo,T,hleaf⟩ := copy_pagetable_ok P ho hro hk L (by omega)
  have hsame : Lowest s (s.setRegisters pid process_init_registers) := Lowest.same rfl
  have hlowest : Lowest s s₂ := hsame.trans (copy_pagetable_lowest hcopy)
  have hother : ∀ (o : ℤ) x va, o ≠ pid → rootsOf K s o = some x →
      leafWord s₂.mem x va = leafWord s.mem x va := fun o x va hne hx => P.leaf_kept G hx hne va
  have hframes : ∀ o a, ProcOwner o → OwnFrame label s o a → OwnFrame label' s₂ o a :=
    fun o a ho h => OwnFrame.mono (s := s.setRegisters pid process_init_registers) h ho G
  have hempty : ∀ va, 256 ≤ vpage va → leafWord s₂.mem (f*4096) va = 0 := fun va hva => by
    rw [hleaf va, if_neg (by omega)]
  have hkernel : ∀ va, vpage va < 256 → leafWord s₂.mem (f*4096) va = kernelWord va :=
    fun va hva => by
      rw [hleaf va, if_pos hva]
      exact P.kernel_leaf va
  have hinfo : ∀ pn, s₂.pageinfo pn = s.pageinfo pn ∨ s₂.pageinfo pn = ⟨pid,1⟩ := fun pn =>
    (G.pageinfo pn).imp id fun h => h.2
  have hcount := lowFree_grows G
  have hlow₂ : lowFree (s.setRegisters pid process_init_registers) = lowFree s :=
    lowFree_congr fun _ _ => rfl
  refine ⟨f*4096,label',s₂,⟨⟨hp,Function.update_self ..,?_,?_⟩,
    ⟨?_,?_,?_,?_,fun _ _ _ _ _ => rfl,rfl,rfl,fun _ _ => rfl,fun _ => Or.inl rfl⟩,hempty,hother,?_,
    hpo,hinfo,?_,?_,hnull⟩,hcopy⟩
  · simp [KState.setPagetable, KState.setProc]
  · simp [KState.setPagetable, KState.setProc, G.processes, KState.setRegisters, B.pids pid hp.2]
  · exact Paging.congr P₂ rfl rfl
  · exact B.isolated.root hother hframes hkernel (fun va hva hne => absurd (hempty va hva) hne)
      fun va va' hva _ hne => absurd (hempty va hva) hne
  · exact B.reached.root hro hother G.mono fun pn => (T pn).imp id Or.inl
  · exact fun va hva => Or.inl (hempty va hva)
  · funext i
    by_cases hi : i = pid
    · subst hi
      simp [KState.setPagetable, KState.setProc, G.processes, KState.setRegisters, B.pids i hp.2]
    · simp [KState.setPagetable, KState.setProc, G.processes, KState.setRegisters, hi]
  · have hset : lowFree (s₂.setPagetable pid (f*4096)) = lowFree s₂ := lowFree_congr fun _ _ => rfl
    omega
  · exact hlowest.trans (Lowest.same rfl)

theorem setup_root (B : Booting K label s) (hp : Slot pid)
    (hstate : (s.processes pid).p_state = .P_FREE) (hlow : 4 ≤ lowFree s) (program : ℕ) :
    ∃ r label' s', Rooted K pid r label' s s' ∧ process_setup K pid program s =
      (program_load K pid program none s').bind
        fun y => (kassert (y.1 ≥ 0) "r >= 0").bind fun _ => setup_finish pid y.2 := by
  obtain ⟨r,label',s₁,R,hcopy⟩ := setup_copied B hp hstate hlow
  refine ⟨r,label',_,R,?_⟩
  rw [process_setup_eq, hcopy]
  rfl

/-- The stack page completes the process. -/
theorem setup_stack {label₁ : Labels} {s₁ s₂ : KState} (B : Booting K label s) (hp : Slot pid)
    (R : Rooted K pid r label₁ s s₁)
    (W : Loading K (Function.update (rootsOf K s) pid (some r)) label₁ pid r s₁ s₂)
    (hlow : 8 ≤ lowFree s) (reg : x86_64_registers) :
    ∃ label' s', setup_finish pid (s₂.setRegisters pid reg) = .ok s' ∧ Booting K label' s' ∧
      lowFree s ≤ lowFree s'+8 ∧ (∀ i, i ≠ pid → s'.processes i = s.processes i) ∧
      (s'.processes pid).p_state = .P_RUNNABLE ∧ (s'.processes pid).p_pagetable = r ∧
      (∀ pn, s'.pageinfo pn = s₂.pageinfo pn ∨ s'.pageinfo pn = ⟨pid,1⟩) ∧
      rootsOf K s' = Function.update (rootsOf K s) pid (some r) ∧
      (∃ f, OneLeaf (Function.update (rootsOf K s) pid (some r)) pid (MEMSIZE_VIRTUAL-PAGESIZE) f
        s₂ s') ∧
      ∀ va, 256 ≤ vpage va → leafWord s'.mem r va ≠ 0 →
        leafWord s₂.mem r va ≠ 0 ∨ vpage va = 767 := by
  have ho := hp.owner
  have hr := R.loader.root
  generalize hreg : { reg with reg_rsp := UInt64.ofNat MEMSIZE_VIRTUAL } = reg'
  generalize ht₀ : (s₂.setRegisters pid reg).setRegisters pid reg' = t₀
  have hmem : t₀.mem = s₂.mem := by rw [← ht₀]; rfl
  have hinfo : t₀.pageinfo = s₂.pageinfo := by rw [← ht₀]; rfl
  have hpo : t₀.pagetable_owner = pid := by
    rw [← ht₀]
    exact W.owner.trans R.owner
  have hprocs : t₀.processes = Function.update s.processes pid
      ⟨pid,reg',(s.processes pid).p_state,r⟩ := by
    rw [← ht₀]
    funext i
    by_cases hi : i = pid
    · subst hi
      simp [KState.setRegisters, KState.setProc, W.processes, R.processes]
    · simp [KState.setRegisters, KState.setProc, W.processes, R.processes, hi]
  have P₀ : Paging K (Function.update (rootsOf K s) pid (some r)) label₁ t₀ :=
    Paging.congr W.paging hmem hinfo
  have hlow₀ : lowFree t₀ = lowFree s₁ := lowFree_congr fun pn hpn => by rw [hinfo, W.low pn hpn]
  have hle := lowFree_le t₀
  have hlow₁ := R.low
  have hfree : freePages t₀ ≠ ∅ := fun h => by
    rw [freeCount, h, Finset.card_empty] at hle
    omega
  obtain ⟨f,hf,-,hget⟩ := get_free_addr_some pid t₀ hfree
  have hm : OnlyPage t₀ f t₀.mem := fun _ _ _ => Agree.refl _ _ _
  have G₁ : Grows pid label₁ label₁ 1 t₀ (takePage t₀ f pid t₀.mem t₀.pagetable_owner) :=
    take_grows P₀ hf hm
  have P₁ := P₀.take G₁ ho fun _ _ i hn => take_slots P₀ hf hm hn i
  have hu : UserFrame label₁ (takePage t₀ f pid t₀.mem t₀.pagetable_owner) (f*4096) :=
    take_user P₀ ho hf
  have hframe := free_frame hf
  have hcount₁ := G₁.count
  have htables := tablesMissing_le t₀.mem r (MEMSIZE_VIRTUAL-PAGESIZE)
  have hpage : vpage (MEMSIZE_VIRTUAL-PAGESIZE) = 767 := by decide
  have hva : (MEMSIZE_VIRTUAL-PAGESIZE) % 4096 = 0 := rfl
  obtain ⟨label',s₃,hmap,T,M⟩ := map_page_grow P₁ ho hpo hr
    hva (by decide) hframe (Or.inr rfl) (.user _ hframe hu)
    (index123_ne _ (by rw [hpage]; decide)) (by rw [takePage_mem]; omega)
  have G := G₁.trans M.grows
  have hprocs₃ : s₃.processes = t₀.processes := G.processes
  have hone : OneLeaf (Function.update (rootsOf K s) pid (some r)) pid (MEMSIZE_VIRTUAL-PAGESIZE) f
      s₂ s₃ := by
    intro o x va hx
    rw [M.leaf o x va hx, takePage_mem, hmem]
  have hframes : ∀ o a, ProcOwner o → OwnFrame label₁ s₂ o a → OwnFrame label' s₃ o a :=
    fun o a ho h => OwnFrame.mono (s := t₀) ⟨h.1,h.2.1,by rw [hinfo]; exact h.2.2⟩ ho G
  have hf₂ : f ∈ freePages s₂ := by
    rw [← freePages_congr hinfo]
    exact hf
  have hused : f ∉ freePages (takePage t₀ f pid t₀.mem t₀.pagetable_owner) := by
    rw [mem_freePages, takePage_pageinfo, Function.update_self]
    exact fun h => info_ne_free _ h.2
  have hinfof : s₃.pageinfo f = ⟨pid,1⟩ := by
    rw [M.grows.pageinfo_used hused, takePage_pageinfo, Function.update_self]
  have hnew : OwnFrame label' s₃ pid (f*4096) := by
    refine ⟨hframe,(hu.mono M.grows).1,?_⟩
    rw [Nat.mul_div_cancel f (by decide), hinfof]
  have hempty : leafWord s₂.mem r (MEMSIZE_VIRTUAL-PAGESIZE) = 0 := by
    rcases W.physical _ (by rw [hpage]; decide) with h | ⟨h,-⟩
    · exact h
    · omega
  have hstate : ∀ i, (s₃.setState pid .P_RUNNABLE).processes i = if i = pid
      then ⟨pid,reg',.P_RUNNABLE,r⟩ else s.processes i := by
    intro i
    by_cases hi : i = pid
    · subst hi
      simp [KState.setState, KState.setProc, hprocs₃, hprocs]
    · simp [KState.setState, KState.setProc, hprocs₃, hprocs, hi]
  have hself := hstate pid
  rw [if_pos rfl] at hself
  have hother : ∀ i, i ≠ pid → (s₃.setState pid .P_RUNNABLE).processes i = s.processes i :=
    fun i hi => by rw [hstate, if_neg hi]
  have hlive : live (s₃.setState pid .P_RUNNABLE) pid := by
    rw [live, hself]
    exact ⟨by simp,R.null⟩
  have hroots : rootsOf K (s₃.setState pid .P_RUNNABLE) =
      Function.update (rootsOf K s) pid (some r) := by
    rw [rootsOf_root hp hother hlive, hself]
  have hchange : ∀ pn, s₃.pageinfo pn = s₂.pageinfo pn ∨ s₃.pageinfo pn = ⟨pid,1⟩ := fun pn => by
    rw [← hinfo]
    exact (G.pageinfo pn).imp id fun h => h.2
  refine ⟨label',s₃.setState pid .P_RUNNABLE,?_,⟨?_,?_,?_,?_,?_,?_,?_,?_⟩,?_,hother,?_,?_,hchange,
    hroots,⟨f,hone⟩,fun va hva hne => ?_⟩
  · have htable : (s₂.setRegisters pid reg).processes pid =
        { s₂.processes pid with p_registers := reg } := by
      simp [KState.setRegisters, KState.setProc]
    have hroot : (t₀.processes pid).p_pagetable = r := by rw [hprocs, Function.update_self]
    simp only [setup_finish, htable, hreg, ht₀, hget, setPageinfo_processes, hroot]
    change (virtual_memory_map r (MEMSIZE_VIRTUAL-PAGESIZE) (f*4096) PAGESIZE 7
      (some pagetable_alloc) (takePage t₀ f pid t₀.mem t₀.pagetable_owner)).bind _ = _
    rw [hmap]
    rfl
  · rw [hroots]
    exact Paging.congr M.paging rfl rfl
  · rw [hroots]
    exact W.isolated.map W.paging hone (by rw [hpage]; decide) hf₂ hframes hnew
  · rw [hroots]
    refine W.reached.map hone hr (by rw [hpage]; decide) hempty G.mono hinfof fun pn hpn => ?_
    have h := T pn
    rwa [takePage_pageinfo, Function.update_of_ne hpn, hinfo] at h
  · rw [hroots]
    intro o x ho hx
    change leafWord s₃.mem x _ ≠ 0
    rw [hone o x _ hx]
    by_cases hop : o = pid
    · rw [if_pos ⟨hop,rfl⟩]
      omega
    · rw [if_neg fun h => hop h.1, W.others o x _ hop hx]
      rw [Function.update_of_ne hop] at hx
      rw [R.others o x _ hop hx]
      exact B.stack o x ho hx
  · rw [hother 0 hp.1.ne]
    exact B.slot0
  · intro i hi
    by_cases hip : i = pid
    · rw [hip, hself]
    · rw [hother i hip]
      exact B.pids i hi
  · intro pn hpn i hi hpi
    by_cases hip : i = pid
    · rw [hip, hself]
      simp
    · have hne : (⟨pid,1⟩ : physical_pageinfo) ≠ ⟨i,1⟩ := fun h =>
        hip (Int.ofNat.inj (congrArg physical_pageinfo.owner h)).symm
      rw [hother i hip]
      refine B.used pn hpn i hi ?_
      rcases hchange pn with h | h
      · rcases W.taken pn with h' | h'
        · rcases R.pageinfo pn with h'' | h''
          · rw [← h'', ← h', ← h]
            exact hpi
          · exact absurd ((h''.symm.trans h'.symm).trans (h.symm.trans hpi)) hne
        · exact absurd (h'.symm.trans (h.symm.trans hpi)) hne
      · exact absurd (h.symm.trans hpi) hne
  · intro i hi hrun
    by_cases hip : i = pid
    · rw [hip, hself]
      exact ⟨rfl,R.null⟩
    · rw [hother i hip] at hrun ⊢
      exact B.runnable i hi hrun
  · have hcount := lowFree_grows G
    rw [takePage_mem] at hcount
    have hset : lowFree (s₃.setState pid .P_RUNNABLE) = lowFree s₃ := lowFree_congr fun _ _ => rfl
    omega
  · rw [hself]
  · rw [hself]
  · change leafWord s₃.mem r va ≠ 0 at hne
    rw [hone pid r va hr] at hne
    by_cases hp : vpage va = 767
    · exact Or.inr hp
    · rw [if_neg fun h => hp (h.2.trans hpage)] at hne
      exact Or.inl hne

/-- Embedded programs are loaded into user memory, page by page. -/
def Loadable (K : KernelImage) : Prop :=
  ∀ image ∈ K.ramimages, ∀ ph ∈ image.e_program, ph.p_type = ELF_PTYPE_LOAD → Placed ph

theorem program_load_ok {roots : ℤ → Option ℕ} {s₁ : KState} (hK : Loadable K)
    (L : Loader roots pid r s₁) (W : Loading K roots label pid r s₁ s₁) {program : ℕ} {res : ℤ}
    (h : program_load K pid program none s₁ = .ok (res,s')) (hres : res ≥ 0) :
    ∃ s₂ reg, s' = s₂.setRegisters pid reg ∧ Loading K roots label pid r s₁ s₂ := by
  rw [program_load] at h
  cases himage : K.ramimages[program]? with
  | none => simp [himage] at h
  | some image =>
    simp only [himage] at h
    obtain ⟨-,h⟩ := (seq_ok_iff _ _ _).1 h
    obtain ⟨⟨res₁,s₂⟩,hloop,hrest⟩ := (bind_ok_iff _ _ _).1 h
    by_cases hbad : res₁ < 0
    · simp only [if_pos hbad, Except.ok.injEq, Prod.mk.injEq] at hrest
      omega
    · simp only [if_neg hbad, Except.ok.injEq, Prod.mk.injEq] at hrest
      exact ⟨s₂,_,hrest.2.symm,load_loop_ok L image _
        (hK image (List.mem_of_getElem? himage)) W hloop hbad⟩

/-- One process more. -/
theorem process_setup_ok (hK : Loadable K) (B : Booting K label s) (hp : Slot pid)
    (hstate : (s.processes pid).p_state = .P_FREE) (hlow : 8 ≤ lowFree s) {program : ℕ}
    (h : process_setup K pid program s = .ok s') : ∃ label', Booting K label' s' ∧
      lowFree s ≤ lowFree s'+8 ∧ (∀ i, i ≠ pid → s'.processes i = s.processes i) := by
  obtain ⟨r,label₁,s₁,R,heq⟩ := setup_root B hp hstate (by omega) program
  rw [heq] at h
  obtain ⟨⟨res,s₂⟩,hload,h⟩ := (bind_ok_iff _ _ _).1 h
  obtain ⟨hres,hfinish⟩ := (seq_ok_iff _ _ _).1 h
  rw [kassert_ok_iff] at hres
  obtain ⟨s₃,reg,hs₂,W⟩ := program_load_ok hK R.loader R.loading hload hres
  obtain ⟨label',s₄,hrun,B',hlow',hother,-⟩ := setup_stack B hp R W hlow reg
  simp only [hs₂, hrun, Except.ok.injEq] at hfinish
  rw [← hfinish]
  exact ⟨label',B',hlow',hother⟩

theorem foldlM_ok (hK : Loadable K) (l : List (ℕ × ℕ)) (hslots : ∀ p ∈ l, Slot p.1)
    (hnd : (l.map Prod.fst).Nodup) {s : KState} {label : Labels} (B : Booting K label s)
    (hstate : ∀ p ∈ l, (s.processes p.1).p_state = .P_FREE) (hlow : 8*l.length ≤ lowFree s)
    (h : l.foldlM (fun s p => process_setup K p.1 p.2 s) s = .ok s') :
    ∃ label', Booting K label' s' := by
  induction l generalizing s label with
  | nil =>
    cases h
    exact ⟨label,B⟩
  | cons p l ih =>
    rw [List.foldlM_cons, bind_ok_iff] at h
    obtain ⟨s₁,hone,hrest⟩ := h
    simp only [List.length_cons] at hlow
    obtain ⟨hp,hnd'⟩ := List.nodup_cons.1 hnd
    obtain ⟨label₁,B₁,hlow₁,hother⟩ := process_setup_ok hK B (hslots p (by simp))
      (hstate p (by simp)) (by omega) hone
    refine ih (fun q hq => hslots q (by simp [hq])) hnd' B₁ (fun q hq => ?_) (by omega) hrest
    have hne : q.1 ≠ p.1 := fun h => hp (List.mem_map.2 ⟨q,hq,h⟩)
    rw [hother q.1 hne]
    exact hstate q (by simp [hq])

end Setup

section Kernel

/-- No process has been set up yet. -/
theorem initial_booting (K : KernelImage) (s : KState) : ∃ m,
    kernel_init K s = .ok (initial K s m) ∧ Booting K (kernelLabels K) (initial K s m) ∧
      (∀ pid < NPROC, (initial K s m).processes pid = ⟨pid,.zero,.P_FREE,NULL⟩) ∧
      ∀ pn < 512, (initial K s m).pageinfo pn = pageinfo_init_entry K (pn*4096) := by
  obtain ⟨m,hrun,F,hleaf⟩ := kernel_init_ok K s
  have hprocs : ∀ pid < NPROC, (initial K s m).processes pid = ⟨pid,.zero,.P_FREE,NULL⟩ :=
    fun pid hp => if_pos hp
  have hpages : ∀ pn < 512, (initial K s m).pageinfo pn = pageinfo_init_entry K (pn*4096) :=
    fun pn hpn => if_pos hpn
  have P := initial_paging K s F hleaf
  have hnone : ∀ o r, ProcOwner o → rootsOf K (initial K s m) o ≠ some r := by
    intro o r ho hr
    have hk : o ≠ PO_KERNEL := by
      have := ho.1
      simp only [PO_KERNEL]
      omega
    obtain ⟨pid,-,hp,hl,-⟩ := rootsOf_some hr hk
    rw [live, hprocs pid hp.2] at hl
    exact hl.1 rfl
  have hunowned : ∀ pn < 512, ∀ o, ProcOwner o → (initial K s m).pageinfo pn ≠ ⟨o,1⟩ := by
    intro pn hpn o ho h
    rw [hpages pn hpn, pageinfo_init_entry] at h
    have howner := congrArg physical_pageinfo.owner h
    have := ho.1
    simp only at howner
    split at howner
    · simp only [PO_RESERVED] at howner
      omega
    · split at howner
      · simp only [PO_KERNEL] at howner
        omega
      · simp only [PO_FREE] at howner
        omega
  refine ⟨m,hrun,⟨P,⟨?_,?_,?_⟩,?_,?_,?_,?_,?_,?_⟩,hprocs,hpages⟩
  · exact fun o r ho hr => absurd hr (hnone o r ho)
  · exact fun o r ho hr => absurd hr (hnone o r ho)
  · exact fun o r ho hr => absurd hr (hnone o r ho)
  · exact fun pn hpn o ho h => absurd h (hunowned pn hpn o ho)
  · exact fun o r ho hr => absurd hr (hnone o r ho)
  · rw [hprocs 0 (by decide)]
  · intro pid hp
    rw [hprocs pid hp]
  · exact fun pn hpn pid hp h => absurd h (hunowned pn hpn pid hp.owner)
  · intro pid hp h
    rw [hprocs pid hp.2] at h
    exact absurd rfl h

/-- The pages below the kernel image are free at first. -/
theorem initial_low {s : KState}
    (hpages : ∀ pn < 512, s.pageinfo pn = pageinfo_init_entry K (pn*4096)) : 63 ≤ lowFree s := by
  have hsub : Finset.Ico 1 64 ⊆ (freePages s).filter (· < 256) := by
    intro pn hpn
    obtain ⟨hlo,hhi⟩ := Finset.mem_Ico.1 hpn
    rw [Finset.mem_filter, mem_freePages, hpages pn (by omega)]
    have h1 := K.text_start
    refine ⟨⟨by omega,?_⟩,by omega⟩
    have hreserved : physical_memory_isreserved (pn*4096) = false := by
      simp only [physical_memory_isreserved, decide_eq_false_iff_not, IOPHYSMEM, EXTPHYSMEM]
      omega
    have hkernel : ¬((KERNEL_START_ADDR ≤ pn*4096 ∧ pn*4096 < K.kernel_end) ∨
        pn*4096 = KERNEL_STACK_TOP-PAGESIZE) := by
      simp only [KERNEL_START_ADDR, KERNEL_STACK_TOP, PAGESIZE]
      omega
    simp only [pageinfo_init_entry, hreserved, Bool.false_eq_true, if_false, if_neg hkernel]
    rfl
  have hcard := Finset.card_le_card hsub
  rwa [Nat.card_Ico] at hcard

theorem boot_programs_slots (command : Option String) :
    (∀ p ∈ boot_programs command, Slot p.1) ∧ ((boot_programs command).map Prod.fst).Nodup ∧
      8*(boot_programs command).length ≤ 63 := by
  have hslot : ∀ i, 0 < i → i < 16 → Slot i := fun i h h' => ⟨h,h'⟩
  rw [boot_programs]
  split
  · simpa using hslot 1 (by decide) (by decide)
  · split
    · simpa using hslot 1 (by decide) (by decide)
    · simp only [List.mem_cons, List.not_mem_nil, or_false, forall_eq_or_imp, forall_eq,
        List.map_cons, List.map_nil, List.length_cons, List.length_nil]
      exact ⟨⟨hslot 1 (by decide) (by decide),hslot 2 (by decide) (by decide),
        hslot 3 (by decide) (by decide),hslot 4 (by decide) (by decide)⟩,by decide,by decide⟩

/-- What `kernel` leaves behind when it starts the first process. -/
structure Booted (K : KernelImage) (label : Labels) (s : KState) : Prop where
  inv : KInv K label s
  isolated : Isolated (rootsOf K s) label s
  reached : Reached (rootsOf K s) label s
  stack : StackMapped (rootsOf K s) s
  runnable : ∀ pid, Slot pid → (s.processes pid).p_state ≠ .P_FREE →
    (s.processes pid).p_state = .P_RUNNABLE ∧ (s.processes pid).p_pagetable ≠ NULL
  current : s.current = 1

theorem booting_run (B : Booting K label s) {out : Outcome} (h : run K 1 s = .ok out) :
    ∃ s', out = .user s' ∧ Booted K label s' ∧ s'.cr3 = (s'.processes s'.current).p_pagetable ∧
      s'.processes = s.processes ∧ s'.pageinfo = s.pageinfo ∧ s'.mem = s.mem := by
  rw [run] at h
  obtain ⟨hrun,h⟩ := (seq_ok_iff _ _ _).1 h
  rw [kassert_ok_iff] at hrun
  obtain ⟨s',hset,hout⟩ := (bind_ok_iff _ _ _).1 h
  cases hout
  rw [set_pagetable_ok hset]
  have hp : Slot 1 := ⟨by decide,by decide⟩
  have hlive : live s 1 := by
    exact ⟨by rw [hrun]; simp,(B.runnable 1 hp (by rw [hrun]; simp)).2⟩
  have Q : Quiet s { s with current := 1, cr3 := (s.processes 1).p_pagetable } :=
    ⟨rfl,rfl,fun _ => ⟨Iff.rfl,rfl,rfl⟩⟩
  have hlow : ∀ pid, Slot pid → live s pid → ∀ va, vpage va < 256 →
      leafWord s.mem (s.processes pid).p_pagetable va ≠ 0 := by
    intro pid hp hl va hva
    rw [B.isolated.low pid _ hp.owner (rootsOf_live hp hl) va hva, kernelWord, if_pos hva]
    split <;> omega
  refine ⟨_,rfl,⟨⟨?_,hlow,B.slot0,B.pids,B.used,hp,hlive⟩,?_,?_,?_,
    B.runnable,rfl⟩,rfl,rfl,rfl,rfl⟩
  · exact Paging.congr B.paging rfl rfl
  · exact ⟨B.isolated.low,B.isolated.high,B.isolated.inj⟩
  · exact B.reached
  · exact B.stack

/-- Whatever the memory held before, and whatever the command. -/
theorem kernel_ok (hK : Loadable K) {command : Option String} {out : Outcome}
    (h : kernel K command s = .ok out) : ∃ label s', out = .user s' ∧ Booted K label s' ∧
      s'.cr3 = (s'.processes s'.current).p_pagetable := by
  obtain ⟨m,hinit,B,hprocs,hpages⟩ := initial_booting K s
  obtain ⟨hslots,hnd,hlen⟩ := boot_programs_slots command
  rw [kernel, hinit] at h
  obtain ⟨_,⟨⟩,h⟩ := (bind_ok_iff _ _ _).1 h
  obtain ⟨s₁,hsetup,hrun⟩ := (bind_ok_iff _ _ _).1 h
  have hlow := initial_low hpages
  obtain ⟨label,B'⟩ := foldlM_ok hK _ hslots hnd B
    (fun p hp => by rw [hprocs p.1 (hslots p hp).2]) (by omega) hsetup
  obtain ⟨s',rfl,hbooted,hcr3,-⟩ := booting_run B' hrun
  exact ⟨label,s',rfl,hbooted,hcr3⟩

end Kernel

end WeensyOS.BootResult
