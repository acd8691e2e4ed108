import WeensyOS.Runs

/-!
# Isolation along runs

When processes ask only for pages of the user window, every state of a run
keeps the address spaces apart: `Isolated` is carried through boot, page
allocation, forks of every outcome and the stores of user code.
-/

set_option autoImplicit false

namespace WeensyOS.PrivateRuns
open WeensyOS.FlatMemory WeensyOS.KernelState WeensyOS.PageTables WeensyOS.PageAllocator
open WeensyOS.Exceptions WeensyOS.Boot WeensyOS.RadixForest
open WeensyOS.TableWords WeensyOS.FreePages WeensyOS.PagingInvariant WeensyOS.PageMaps
open WeensyOS.TableCopies WeensyOS.ForkCopies WeensyOS.KernelInvariant WeensyOS.KernelSteps
open WeensyOS.ForkResult WeensyOS.AllocResult WeensyOS.Isolation
open WeensyOS.BootResult WeensyOS.BootRun WeensyOS.Effects WeensyOS.Runs

/-- Page requests name pages of the user window. -/
def InWindow : KState → x86_64_registers → Prop := fun _ reg =>
  reg.reg_intno = INT_SYS_PAGE_ALLOC → reg.reg_rdi.toNat % PAGESIZE = 0 ∧
    PROC_START_ADDR ≤ reg.reg_rdi.toNat ∧ reg.reg_rdi.toNat < MEMSIZE_VIRTUAL

variable {K : KernelImage} {label label' : Labels} {s s' s₁ s₂ t : KState}
  {reg : x86_64_registers} {out : Outcome} {i r f c pid : ℕ} {res : ℤ}

section Steps

theorem window_request (hreg : InWindow s reg) (E : Entered reg s s₁)
    (hno : reg.reg_intno = INT_SYS_PAGE_ALLOC) :
    256 ≤ vpage (request s₁) ∧ vpage (request s₁) < 768 := by
  obtain ⟨-,hlow,hhigh⟩ := hreg hno
  rw [entered_request E]
  simp only [PROC_START_ADDR, MEMSIZE_VIRTUAL] at hlow hhigh
  rw [vpage_small _ (by omega)]
  omega

theorem allocated_roots (A : Allocated K f res label label' c s t) : rootsOf K t = rootsOf K s :=
  rootsOf_congr fun pid _ => by
    rw [live, live, A.processes]
    exact ⟨Iff.rfl,fun _ => rfl⟩

theorem nullChild_roots (hslot : free_slot s = some i) :
    rootsOf K (nullChild i s) = rootsOf K s := by
  obtain ⟨-,hfree,-⟩ := free_slot_some hslot
  refine rootsOf_congr fun pid _ => ?_
  by_cases hpi : pid = i
  · rw [hpi, live, live, nullChild_child]
    exact ⟨⟨fun h => absurd rfl h.2,fun h => absurd hfree h.1⟩,fun h => absurd hfree h.1⟩
  · rw [live, live, nullChild_other hpi]
    exact ⟨Iff.rfl,fun _ => rfl⟩

theorem allocated_isolated (A : Allocated K f res label label' c s t) (I : KInv K label s)
    (S : Isolated (rootsOf K s) label s)
    (hwin : 256 ≤ vpage (request s) ∧ vpage (request s) < 768) :
    Isolated (rootsOf K t) label' t := by
  rw [allocated_roots A]
  have hframes : ∀ o a, ProcOwner o → OwnFrame label s o a → OwnFrame label' t o a :=
    fun o a ho h => h.mono ho A.grows
  by_cases hres : res = 0
  · have hone : OneLeaf (rootsOf K s) s.current (request s) f s t := fun o x va hx => by
      rw [A.leaf o x va hx]
      simp only [hres, true_and]
    have hlt := (free_frame A.fresh)
    have hdiv : f*4096 / 4096 = f := by omega
    exact S.map I.paging hone hwin A.fresh hframes ⟨hlt,A.unlabelled,by rw [hdiv]; exact A.info⟩
  · refine S.same (fun o x va hx => ?_) hframes
    rw [A.leaf o x va hx, if_neg fun h => hres h.1]

theorem forked_isolated (F : Forked K i r label label' c s t) (I : KInv K label s)
    (hslot : free_slot s = some i) (S : Isolated (rootsOf K s) label s) :
    Isolated (rootsOf K t) label' t := by
  obtain ⟨hi,-,-⟩ := free_slot_some hslot
  have hcur := rootsOf_live (K := K) I.current_slot I.current_live
  rw [F.roots hi]
  refine S.root (fun o' x va hne hx => I.paging.leaf_kept F.grows hx hne va)
    (fun o a ho h => ?_) (fun va hva => ?_) (fun va hva hne => ?_) (fun va va' hva hva' hne heq => ?_)
  · obtain ⟨ha,hnone,hinfo⟩ := h.mono ho F.grows
    exact ⟨ha,hnone,hinfo⟩
  · rw [F.low va hva]
    exact S.low _ _ I.current_slot.owner hcur va hva
  · obtain ⟨hlt,g,C⟩ := (F.high va hva).resolve_left hne
    have hdiv : g*4096 / 4096 = g := by omega
    exact ⟨hlt,g*4096,C.leaf,free_frame C.fresh,C.unlabelled,by rw [hdiv]; exact C.info⟩
  · obtain ⟨-,g,C⟩ := (F.high va hva).resolve_left hne
    exact F.inj g C.fresh va va' C.leaf (heq ▸ C.leaf)

theorem change_isolated (H : Change K reg label s label' t) (I : KInv K label s)
    (S : Isolated (rootsOf K s) label s) (hwin : reg.reg_intno = INT_SYS_PAGE_ALLOC →
      256 ≤ vpage (request s) ∧ vpage (request s) < 768) : Isolated (rootsOf K t) label' t := by
  cases H with
  | none => exact S
  | page hno A => exact allocated_isolated A I S (hwin hno)
  | null hslot =>
    rw [nullChild_roots hslot]
    exact S.same (fun _ _ _ _ => rfl) fun _ _ _ h => h
  | child hslot F => exact forked_isolated F I hslot S

theorem isolated_quiet (S : Isolated (rootsOf K s) label s) (Q : Quiet s s') :
    Isolated (rootsOf K s') label s' := by
  rw [Q.rootsOf]
  refine S.same (fun o r va _ => by rw [Q.mem]) fun o a _ h => ?_
  rw [OwnFrame, Q.pageinfo]
  exact h

theorem isolated_stored {m : Memory} (S : Isolated (rootsOf K s) label s) (I : KInv K label s)
    (T : TablesKept label s m) :
    Isolated (rootsOf K { s with mem := m }) label { s with mem := m } :=
  S.same (T.leaves I.paging) fun _ _ _ h => h

end Steps

theorem run_isolated (hK : Loadable K) (R : Run K InWindow out) :
    ∃ label, KInv K label out.state ∧ Isolated (rootsOf K out.state) label out.state ∧
      ∀ s, out = .user s → Executing K label s :=
  run_keeps (P := fun label s => Isolated (rootsOf K s) label s) hK (fun _ _ B => B.isolated)
    (fun _ _ _ Q S => isolated_quiet S Q)
    (fun _ _ _ _ _ _ _ hwin H S => by
      obtain ⟨t,C,Q,-⟩ := H.effect.change H.inv.current_live
      exact isolated_quiet (change_isolated C H.inv S (window_request hwin H.entered)) Q)
    (fun _ _ _ I T S => isolated_stored S I T) R

section Tables

/-- The pages that a walk from the root `r` reaches in `d` steps. -/
inductive TablePage (m : Memory) (r : ℕ) : ℕ → ℕ → Prop where
  | root : TablePage m r 0 r
  | child {d pt i : ℕ} (T : TablePage m r d pt) (hd : d < 3) (hi : i < NPAGETABLEENTRIES)
    (hp : entry m pt i &&& PTE_P ≠ 0) : TablePage m r (d+1) (PTE_ADDR (entry m pt i))

theorem table_page_label {roots : ℤ → Option ℕ} {o : ℤ} {r d a : ℕ} (P : Paging K roots label s)
    (hr : roots o = some r) (T : TablePage s.mem r d a) :
    ∃ p, label a = some ⟨o,p⟩ ∧ p.length = d := by
  induction T with
  | root => exact ⟨[],P.forest.root o r hr,rfl⟩
  | @child d pt i T hd hi hp ih =>
    obtain ⟨p,hpt,hlen⟩ := ih
    have hchild : scheme.child (slot s.mem pt ⟨i,hi⟩) = some (PTE_ADDR (entry s.mem pt i)) :=
      if_pos hp
    obtain ⟨-,hl⟩ := P.forest.step hpt (by rw [hlen]; exact hd) hchild
    exact ⟨_,hl,by simp [hlen]⟩

/-- A walk along existing links passes table pages only. -/
theorem table_page_walk {m : Memory} {r n c d : ℕ} (T : TablePage m r d n) (p : List Index)
    (hlen : d+p.length ≤ 3) (hw : walk scheme (slot m) n p = some c) :
    TablePage m r (d+p.length) c := by
  induction p generalizing n d with
  | nil =>
    cases hw
    exact T
  | cons i p ih =>
    simp only [List.length_cons] at hlen ⊢
    by_cases hp : entry m n i &&& PTE_P ≠ 0
    · have hc : scheme.child (slot m n i) = some (PTE_ADDR (entry m n i)) := if_pos hp
      rw [walk, hc, Option.bind_some] at hw
      have h := ih (.child T (by omega) i.isLt hp) (by omega) hw
      rwa [show d+1+p.length = d+(p.length+1) by omega] at h
    · have hc : scheme.child (slot m n i) = none := if_neg hp
      rw [walk, hc] at hw
      cases hw

/-- The labelled pages are the table pages of the roots. -/
theorem label_table_page {roots : ℤ → Option ℕ} {o : ℤ} {a : ℕ} {p : List Index}
    (P : Paging K roots label s) (h : label a = some ⟨o,p⟩) :
    ∃ r, roots o = some r ∧ TablePage s.mem r p.length a := by
  obtain ⟨r,hr,hw⟩ := P.forest.rooted a o p h
  have hlen := P.forest.bounded a _ h
  simp only [scheme_depth] at hlen
  have T := table_page_walk .root p (by omega) hw
  rw [zero_add] at T
  exact ⟨r,hr,T⟩

end Tables

section Spaces

/-- What a process's page table says about an address. -/
abbrev translation (s : KState) (pid va : ℕ) : vamapping :=
  virtual_memory_lookup s.mem (s.processes pid).p_pagetable va

/-- The process itself can access the address. -/
abbrev UserPage (s : KState) (pid va : ℕ) : Prop := (translation s pid va).perm &&& PTE_U ≠ 0

/-- The address space of a process: the console, and private pages in the user window. The
tables decode the low 48 bits of an address. -/
structure PrivateSpace (K : KernelImage) (s : KState) (pid : ℕ) : Prop where
  low : ∀ va, va % 2^48 < PROC_START_ADDR →
    (UserPage s pid va ↔ va % 2^48 / PAGESIZE = console / PAGESIZE)
  console_page : ∀ va, va % 2^48 / PAGESIZE = console / PAGESIZE →
    translation s pid va = ⟨console / PAGESIZE,va % 2^48,PTE_P ||| PTE_W ||| PTE_U⟩
  owned : ∀ va, PROC_START_ADDR ≤ va % 2^48 → UserPage s pid va → ∃ pn < NPAGES,
    (translation s pid va).pn = (pn : ℕ) ∧ s.pageinfo pn = ⟨pid,1⟩ ∧
    (∀ d, ¬TablePage s.mem K.kernel_pagetable d (pn*PAGESIZE)) ∧
    ∀ j < NPROC, live s j → ∀ d, ¬TablePage s.mem (s.processes j).p_pagetable d (pn*PAGESIZE)
  unshared : ∀ va, PROC_START_ADDR ≤ va % 2^48 → UserPage s pid va →
    ∀ j < NPROC, live s j → ∀ va', UserPage s j va' →
      (translation s j va').pn = (translation s pid va).pn →
      j = pid ∧ va' % 2^48 / PAGESIZE = va % 2^48 / PAGESIZE

theorem live_slot (I : KInv K label s) (hp : pid < NPROC) (hl : live s pid) : Slot pid :=
  ⟨Nat.pos_of_ne_zero fun h => hl.1 (h ▸ I.slot0),hp⟩

variable (I : KInv K label s) (S : Isolated (rootsOf K s) label s)
include I S

theorem low_translation (hp : Slot pid) (hl : live s pid) {va : ℕ} (hva : vpage va < 256) :
    translation s pid va = leafMapping (kernelWord va) va := by
  rw [translation, I.lookup hp hl, S.low pid _ hp.owner (rootsOf_live hp hl) va hva]

theorem console_translation (hp : Slot pid) (hl : live s pid) {va : ℕ} (hva : vpage va = 0xB8) :
    translation s pid va = ⟨0xB8,va % 2^48,7⟩ := by
  rw [low_translation I S hp hl (by omega), kernelWord, if_pos (by omega), if_pos hva,
    leafMapping_frame ⟨by decide,by decide⟩ (Or.inr rfl)]
  simp only [vpage] at hva
  have hpa : console+va % 4096 = va % 2^48 := by
    simp only [console]
    omega
  rw [hpa]
  rfl

/-- Below the window only the console is accessible. -/
theorem low_user (hp : Slot pid) (hl : live s pid) {va : ℕ} (hva : vpage va < 256) :
    UserPage s pid va ↔ vpage va = 0xB8 := by
  constructor
  · intro hu
    by_contra hne
    rw [UserPage, low_translation I S hp hl hva, kernelWord, if_pos hva, if_neg hne,
      leafMapping_frame ⟨Nat.mul_mod_left _ _,by omega⟩ (Or.inl rfl)] at hu
    exact hu (show 3 &&& PTE_U = 0 from rfl)
  · intro hcon
    rw [UserPage, console_translation I S hp hl hcon]
    exact show 7 &&& PTE_U ≠ 0 by decide

/-- In the window each accessible page is a frame of the process. -/
theorem high_user (hp : Slot pid) (hl : live s pid) {va : ℕ} (hva : 256 ≤ vpage va)
    (hu : UserPage s pid va) : ∃ a, leafWord s.mem (s.processes pid).p_pagetable va = a+7 ∧
      OwnFrame label s pid a ∧ translation s pid va = ⟨(a / 4096 : ℕ),a+va % 4096,7⟩ := by
  have hlook := I.lookup hp hl va
  by_cases hz : leafWord s.mem (s.processes pid).p_pagetable va = 0
  · rw [UserPage, translation, hlook, hz, leafMapping_zero] at hu
    exact absurd rfl hu
  · obtain ⟨-,a,ha,hown⟩ := S.high pid _ hp.owner (rootsOf_live hp hl) va hva hz
    refine ⟨a,ha,hown,?_⟩
    rw [translation, hlook, ha, leafMapping_frame hown.1 (Or.inr rfl)]

theorem private_space (hp : Slot pid) (hl : live s pid) : PrivateSpace K s pid where
  low va hva := low_user I S hp hl (by simp only [PROC_START_ADDR] at hva; simp only [vpage]; omega)
  console_page va hva := console_translation I S hp hl hva
  owned va hva hu := by
    simp only [PROC_START_ADDR] at hva
    obtain ⟨a,-,⟨ha,hnone,hinfo⟩,hmap⟩ := high_user I S hp hl (by simp only [vpage]; omega) hu
    have hlt : a / 4096 < NPAGES := by
      have := ha.2
      simp only [NPAGES, MEMSIZE_PHYSICAL, PAGESIZE]
      omega
    have haddr : a / 4096*PAGESIZE = a := by
      have := ha.1
      simp only [PAGESIZE]
      omega
    refine ⟨a / 4096,hlt,by rw [hmap],hinfo,fun d T => ?_,fun j hj hlj d T => ?_⟩
    · rw [haddr] at T
      obtain ⟨p,hp,-⟩ := table_page_label I.paging rootsOf_kernel T
      rw [hnone] at hp
      cases hp
    · rw [haddr] at T
      obtain ⟨p,hp,-⟩ := table_page_label I.paging (rootsOf_live (live_slot I hj hlj) hlj) T
      rw [hnone] at hp
      cases hp
  unshared va hva hu j hj hlj va' hu' hpn := by
    simp only [PROC_START_ADDR] at hva
    obtain ⟨a,hw,⟨ha,hnone,hinfo⟩,hmap⟩ := high_user I S hp hl (by simp only [vpage]; omega) hu
    have hjs := live_slot I hj hlj
    rw [hmap] at hpn
    by_cases hlow : vpage va' < 256
    · -- the console page is reserved
      exfalso
      rw [console_translation I S hjs hlj ((low_user I S hjs hlj hlow).1 hu')] at hpn
      simp only at hpn
      have hcon : a / 4096 = 0xB8 := by omega
      have hentry : pageinfo_init_entry K (0xB8*4096) = ⟨PO_RESERVED,1⟩ := rfl
      rw [hcon, I.paging.marked 0xB8 (by decide) (by rw [hentry]; decide), hentry] at hinfo
      have ho : PO_RESERVED = (pid : ℤ) := congrArg physical_pageinfo.owner hinfo
      simp only [PO_RESERVED] at ho
      omega
    · obtain ⟨a',hw',⟨ha',-,hinfo'⟩,hmap'⟩ := high_user I S hjs hlj (by omega) hu'
      rw [hmap'] at hpn
      have haa : a' = a := by
        have h1 := ha.1
        have h2 := ha'.1
        simp only [Nat.cast_inj] at hpn
        omega
      have howner : (j : ℤ) = pid := by
        rw [haa, hinfo] at hinfo'
        exact (congrArg physical_pageinfo.owner hinfo').symm
      have hjp : j = pid := Int.ofNat.inj howner
      subst hjp
      refine ⟨rfl,?_⟩
      exact S.inj _ _ hp.owner (rootsOf_live hp hl) va' va (by omega)
        (by simp only [vpage]; omega) (by omega) (by rw [hw, hw', haa])

end Spaces

/-- Every live process has its address space to itself in every state of a run. -/
theorem isolation_along_runs (hK : Loadable K) (R : Run K InWindow out) (hp : pid < NPROC)
    (hl : live out.state pid) : PrivateSpace K out.state pid := by
  obtain ⟨label,I,S,-⟩ := run_isolated hK R
  exact private_space I S (live_slot I hp hl) hl

theorem isolation_after_boot : ∃ s, kernel sampleKernel (some "fork") powerOn = .ok (.user s) ∧
    live s 1 ∧ PrivateSpace sampleKernel s 1 := by
  obtain ⟨label,s,hboot,B,-⟩ := sample_boot powerOn
  have hl : live s 1 := B.current ▸ B.inv.current_live
  exact ⟨s,hboot,hl,isolation_along_runs sample_loadable (.boot hboot) (by decide) hl⟩

end WeensyOS.PrivateRuns
