import WeensyOS.PrivateRuns

/-!
# The accounts of physical pages

Every page is free, marked by `pageinfo_init`, or has one process as its owner
and one reference. A page that is in use keeps its entry for the rest of a run,
and the allocator hands out the lowest page that is free.
-/

set_option autoImplicit false

namespace WeensyOS.PageAccounts
open WeensyOS.FlatMemory WeensyOS.KernelState WeensyOS.PageTables WeensyOS.PageAllocator
open WeensyOS.Exceptions WeensyOS.Boot WeensyOS.RadixForest
open WeensyOS.TableWords WeensyOS.FreePages WeensyOS.PagingInvariant WeensyOS.PageMaps
open WeensyOS.TableCopies WeensyOS.ForkCopies WeensyOS.KernelInvariant WeensyOS.KernelSteps
open WeensyOS.ForkResult WeensyOS.AllocResult WeensyOS.Isolation
open WeensyOS.BootResult WeensyOS.BootRun WeensyOS.Effects WeensyOS.Runs WeensyOS.PrivateRuns

variable {K : KernelImage} {allow : KState → x86_64_registers → Prop} {label label' : Labels}
  {s s' t : KState} {reg : x86_64_registers} {out : Outcome} {i r f c pid pn : ℕ} {res : ℤ}

/-- Pages in use keep their entry. -/
def EntriesKept (s s' : KState) : Prop :=
  ∀ pn < NPAGES, s.pageinfo pn ≠ freeInfo → s'.pageinfo pn = s.pageinfo pn

section Entries

theorem EntriesKept.refl (s : KState) : EntriesKept s s := fun _ _ _ => rfl

theorem EntriesKept.trans {s'' : KState} (h : EntriesKept s s') (h' : EntriesKept s' s'') :
    EntriesKept s s'' := by
  intro pn hpn hused
  have hfirst := h pn hpn hused
  rw [h' pn hpn (hfirst ▸ hused), hfirst]

theorem EntriesKept.quiet (Q : Quiet s s') : EntriesKept s s' := fun pn _ _ => by rw [Q.pageinfo]

theorem EntriesKept.grows {o : ℤ} (G : Grows o label label' c s s') : EntriesKept s s' :=
  fun pn _ hused => G.pageinfo_used fun h => hused ((mem_freePages s pn).1 h).2

theorem change_entries (H : Change K reg label s label' t) : EntriesKept s t := by
  cases H with
  | none => exact .refl s
  | page hno A => exact .grows A.grows
  | null hslot => exact fun _ _ _ => rfl
  | child hslot F => exact fun pn hpn hused => EntriesKept.grows F.grows pn hpn hused

theorem handling_entries (H : Handling K reg label label' s t s' out) :
    EntriesKept s out.state := by
  obtain ⟨u,C,Q,-⟩ := H.effect.change H.inv.current_live
  exact ((EntriesKept.quiet H.entered.quiet).trans (change_entries C)).trans
    ((EntriesKept.quiet Q).trans (.quiet (Leaves.quiet H.leaves).1))

theorem continues_entries (X : Executing K label s) (C : Continues K allow s out) :
    EntriesKept s out.state := by
  obtain ⟨-,-,h,-⟩ := continues_keeps (P := fun _ t => EntriesKept s t) X (.refl s)
    (fun _ _ _ _ _ _ _ _ _ H h => h.trans (handling_entries H))
    (fun _ _ _ _ _ _ _ _ h => h) C
  exact h

end Entries

section Accounts

/-- What every entry of `pageinfo` says. -/
structure Accounted (K : KernelImage) (s : KState) : Prop where
  entries : ∀ pn < NPAGES, s.pageinfo pn = ⟨PO_FREE,0⟩ ∨ s.pageinfo pn = ⟨PO_RESERVED,1⟩ ∨
    s.pageinfo pn = ⟨PO_KERNEL,1⟩ ∨ ∃ pid, 1 ≤ pid ∧ pid < NPROC ∧
      s.pageinfo pn = ⟨pid,1⟩ ∧ (s.processes pid).p_state ≠ .P_FREE
  marked : ∀ pn < NPAGES, ∀ o, o = PO_RESERVED ∨ o = PO_KERNEL →
    ((s.pageinfo pn).owner = o ↔ (pageinfo_init_entry K (pn*PAGESIZE)).owner = o)

/-- The marks that `pageinfo_init` makes. -/
theorem init_entry_cases (K : KernelImage) (a : ℕ) :
    pageinfo_init_entry K a = ⟨PO_FREE,0⟩ ∨ pageinfo_init_entry K a = ⟨PO_RESERVED,1⟩ ∨
      pageinfo_init_entry K a = ⟨PO_KERNEL,1⟩ := by
  rw [pageinfo_init_entry]
  by_cases h : physical_memory_isreserved a
  · rw [if_pos h]
    exact Or.inr (Or.inl rfl)
  · rw [if_neg h]
    by_cases h' : (KERNEL_START_ADDR ≤ a ∧ a < K.kernel_end) ∨ a = KERNEL_STACK_TOP-PAGESIZE
    · rw [if_pos h']
      exact Or.inr (Or.inr rfl)
    · rw [if_neg h']
      exact Or.inl rfl

theorem accounted (I : KInv K label s) : Accounted K s where
  entries pn hpn := by
    by_cases hinit : (pageinfo_init_entry K (pn*4096)).owner = PO_FREE
    · rcases I.paging.pages pn hpn hinit with h | ⟨o,ho,h⟩
      · exact Or.inl h
      · obtain ⟨hpos,hlt⟩ := ho
        have hn : NPROC = 16 := rfl
        have ho' : ((o.toNat : ℕ) : ℤ) = o := Int.toNat_of_nonneg (by omega)
        have hinfo : s.pageinfo pn = ⟨(o.toNat : ℕ),1⟩ := by rw [ho', h]
        exact Or.inr (Or.inr (Or.inr ⟨o.toNat,by omega,by omega,hinfo,
          I.used pn hpn o.toNat ⟨by omega,by omega⟩ hinfo⟩))
    · rw [I.paging.marked pn hpn hinit]
      rcases init_entry_cases K (pn*4096) with h | h | h
      · rw [h] at hinit
        exact absurd rfl hinit
      · exact Or.inr (Or.inl h)
      · exact Or.inr (Or.inr (Or.inl h))
  marked pn hpn o ho := by
    by_cases hinit : (pageinfo_init_entry K (pn*4096)).owner = PO_FREE
    · have hfree : PO_FREE ≠ o := by rcases ho with rfl | rfl <;> decide
      have hproc : ∀ pid, ProcOwner pid → pid ≠ o := by
        rintro pid ⟨hpos,-⟩ rfl
        rcases ho with h | h <;> simp only [PO_RESERVED, PO_KERNEL] at h <;> omega
      refine ⟨fun h => absurd h ?_,fun h => absurd (hinit.symm.trans h) hfree⟩
      rcases I.paging.pages pn hpn hinit with h' | ⟨pid,hpid,h'⟩
      · rw [h']
        exact hfree
      · rw [h']
        exact hproc pid hpid
    · rw [I.paging.marked pn hpn hinit]

/-- The allocator's contract: the lowest free page, or `OUTOFMEMORY` and no change. -/
structure AllocatesLowest (s : KState) : Prop where
  none : ∀ owner, (∀ pn < NPAGES, s.pageinfo pn ≠ ⟨PO_FREE,0⟩) →
    get_free_addr owner s = (OUTOFMEMORY,s)
  some : ∀ owner, ∀ pn < NPAGES, s.pageinfo pn = ⟨PO_FREE,0⟩ →
    ∃ low ≤ pn, s.pageinfo low = ⟨PO_FREE,0⟩ ∧ (∀ j < low, s.pageinfo j ≠ ⟨PO_FREE,0⟩) ∧
      low*PAGESIZE ≠ OUTOFMEMORY ∧
      get_free_addr owner s = (low*PAGESIZE,s.setPageinfo low ⟨owner,1⟩)

theorem allocates_lowest (h : s.pageinfo 0 ≠ freeInfo) : AllocatesLowest s where
  none owner hnone := get_free_addr_none owner s (Finset.eq_empty_of_forall_notMem fun pn hpn => by
    obtain ⟨hlt,hfree⟩ := (mem_freePages s pn).1 hpn
    exact hnone pn hlt hfree)
  some owner pn hpn hfree := by
    have hmem : pn ∈ freePages s := (mem_freePages s pn).2 ⟨hpn,hfree⟩
    obtain ⟨low,hlow,hleast,hget⟩ := get_free_addr_some owner s fun he => by
      rw [he] at hmem
      exact Finset.notMem_empty pn hmem
    obtain ⟨hlt,hinfo⟩ := (mem_freePages s low).1 hlow
    refine ⟨low,hleast pn hmem,hinfo,fun j hj hfree' => ?_,fun hz => ?_,hget⟩
    · have := hleast j ((mem_freePages s j).2 ⟨by omega,hfree'⟩)
      omega
    · simp only [OUTOFMEMORY, PAGESIZE] at hz
      have hzero : low = 0 := by omega
      exact h (hzero ▸ hinfo)

theorem zero_reserved (I : KInv K label s) : s.pageinfo 0 ≠ freeInfo := by
  rw [I.paging.zero_info]
  decide

end Accounts

/-- The accounts are in order in every state of a run, pages in use keep their entries, and
the allocator takes the lowest free page there and in every state an operation reaches. -/
theorem page_accounts (hK : Loadable K) (R : Run K InWindow (.user s))
    (C : Continues K InWindow s out) : Accounted K out.state ∧ EntriesKept s out.state ∧
      ∀ t, EntriesKept out.state t → AllocatesLowest t := by
  obtain ⟨label,X⟩ := run_executing hK R
  obtain ⟨label',I,-⟩ := run_inv hK (R.continue C)
  refine ⟨accounted I,continues_entries X C,fun t ht => allocates_lowest ?_⟩
  have hzero := zero_reserved I
  rw [ht 0 (by decide) hzero]
  exact hzero

theorem page_accounts_after_boot : ∃ s,
    kernel sampleKernel (some "fork") powerOn = .ok (.user s) ∧ Accounted sampleKernel s ∧
      AllocatesLowest s := by
  obtain ⟨-,s,hboot,-⟩ := sample_boot powerOn
  obtain ⟨haccounts,-,hlowest⟩ := page_accounts sample_loadable (.boot hboot) .refl
  exact ⟨s,hboot,haccounts,hlowest s (.refl s)⟩

end WeensyOS.PageAccounts
