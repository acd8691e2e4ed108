import WeensyOS.KeptPages

/-!
# The forest of page tables

In every state of a run the tables of the kernel and of the live processes are
disjoint trees whose inner entries link table pages only, and the kernel's own
tables are as boot left them.
-/

set_option autoImplicit false

namespace WeensyOS.TableForests
open WeensyOS.FlatMemory WeensyOS.KernelState WeensyOS.PageTables WeensyOS.PageAllocator
open WeensyOS.Exceptions WeensyOS.Boot WeensyOS.RadixForest
open WeensyOS.TableWords WeensyOS.FreePages WeensyOS.PagingInvariant WeensyOS.PageMaps
open WeensyOS.TableCopies WeensyOS.ForkCopies WeensyOS.KernelInvariant WeensyOS.KernelSteps
open WeensyOS.ForkResult WeensyOS.AllocResult WeensyOS.Isolation WeensyOS.KernelTables
open WeensyOS.BootResult WeensyOS.BootRun WeensyOS.Effects WeensyOS.Runs WeensyOS.PrivateRuns
open WeensyOS.PageAccounts WeensyOS.KeptPages

variable {K : KernelImage} {label : Labels} {s : KState} {out : Outcome} {o o' : ℤ}
  {r r' d d' a pt i pid : ℕ}

/-- The page tables of the kernel and of the live processes. -/
inductive Space (K : KernelImage) (s : KState) : ℤ → ℕ → Prop where
  | kernel : Space K s PO_KERNEL K.kernel_pagetable
  | process {pid : ℕ} (hp : pid < NPROC) (hl : live s pid) :
    Space K s pid (s.processes pid).p_pagetable

/-- Entry `i` of the table `pt` is present and points to the page `a`; `pt` is fewer than
`levels` steps below a root. -/
def Target (K : KernelImage) (s : KState) (levels pt i a : ℕ) : Prop :=
  ∃ o r d, Space K s o r ∧ d < levels ∧ TablePage s.mem r d pt ∧ i < NPAGETABLEENTRIES ∧
    entry s.mem pt i &&& PTE_P ≠ 0 ∧ PTE_ADDR (entry s.mem pt i) = a

/-- The page is one root and no entry's target, or no root and the target of one entry. -/
def ReferencedOnce (K : KernelImage) (s : KState) (levels a : ℕ) : Prop :=
  ((∃! o, Space K s o a) ∧ ∀ pt i, ¬Target K s levels pt i a) ∨
    ((∀ o, ¬Space K s o a) ∧ ∃! e : ℕ × ℕ, Target K s levels e.1 e.2 a)

/-- The page tables are disjoint trees. -/
structure TableForest (K : KernelImage) (s : KState) : Prop where
  disjoint : ∀ o r d o' r' d' a, Space K s o r → TablePage s.mem r d a → Space K s o' r' →
    TablePage s.mem r' d' a → o = o' ∧ d = d'
  once : ∀ o r d a, Space K s o r → TablePage s.mem r d a → ReferencedOnce K s 3 a
  inner : ∀ o r d pt i, Space K s o r → TablePage s.mem r d pt → d < 3 →
    i < NPAGETABLEENTRIES → entry s.mem pt i ≠ 0 → entry s.mem pt i &&& PTE_P ≠ 0 ∧
      PTE_ADDR (entry s.mem pt i) < MEMSIZE_PHYSICAL ∧
      s.pageinfo (PTE_ADDR (entry s.mem pt i) / PAGESIZE) = ⟨o,1⟩
  user : ∀ pid < NPROC, live s pid → ∀ pt i, TablePage s.mem (s.processes pid).p_pagetable 3 pt →
    i < NPAGETABLEENTRIES → entry s.mem pt i &&& PTE_P ≠ 0 → entry s.mem pt i &&& PTE_U ≠ 0 →
    ∀ o r d, Space K s o r → ¬TablePage s.mem r d (PTE_ADDR (entry s.mem pt i))

section Labels

variable (I : KInv K label s)
include I

theorem space_root (h : Space K s o r) : rootsOf K s o = some r := by
  cases h with
  | kernel => exact rootsOf_kernel
  | process hp hl => exact rootsOf_live (live_slot I hp hl) hl

omit I in
theorem space_of_root (h : rootsOf K s o = some r) : Space K s o r := by
  by_cases ho : o = PO_KERNEL
  · subst ho
    rw [rootsOf_kernel, Option.some.injEq] at h
    rw [← h]
    exact .kernel
  · obtain ⟨pid,rfl,hp,hl,rfl⟩ := rootsOf_some h ho
    exact .process hp.2 hl

theorem space_label (h : Space K s o a) : label a = some ⟨o,[]⟩ :=
  I.paging.forest.root o a (space_root I h)

theorem page_label (h : Space K s o r) (T : TablePage s.mem r d a) :
    ∃ p, label a = some ⟨o,p⟩ ∧ p.length = d :=
  table_page_label I.paging (space_root I h) T

/-- An entry of an inner table extends the place of its table. -/
theorem target_label (h : Target K s 3 pt i a) : ∃ o p j, label pt = some ⟨o,p⟩ ∧
    p.length < 3 ∧ i = j.val ∧ label a = some ⟨o,p++[j]⟩ := by
  obtain ⟨o,r,d,S,hd,T,hi,hp,ha⟩ := h
  obtain ⟨p,hpt,hlen⟩ := page_label I S T
  have hlt : p.length < scheme.depth := by
    rw [hlen]
    exact hd
  have hchild : scheme.child (slot s.mem pt ⟨i,hi⟩) = some a := by
    rw [← ha]
    exact if_pos hp
  exact ⟨o,p,⟨i,hi⟩,hpt,hlt,rfl,(I.paging.forest.step hpt hlt hchild).2⟩

/-- A page has one place, and a place one page. -/
theorem label_unique {n n' : ℕ} {q : Place ℤ Index} (h : label n = some q)
    (h' : label n' = some q) : n = n' := by
  obtain ⟨o,p⟩ := q
  obtain ⟨r,hr,hw⟩ := I.paging.forest.rooted n o p h
  have hlen := I.paging.forest.bounded n _ h
  have hw' := (I.paging.forest.walk_iff hr hlen).2 h'
  rw [hw] at hw'
  exact Option.some.inj hw'

theorem root_once (h : label a = some ⟨o,[]⟩) : ReferencedOnce K s 3 a := by
  left
  obtain ⟨r,hr,hw⟩ := I.paging.forest.rooted a o [] h
  have hra : r = a := Option.some.inj hw
  have S : Space K s o a := hra ▸ space_of_root hr
  refine ⟨⟨o,S,fun o' S' => ?_⟩,fun pt i ht => ?_⟩
  · have h' := space_label I S'
    rw [h, Option.some.injEq, Place.mk.injEq] at h'
    exact h'.1.symm
  · obtain ⟨o',p,j,-,-,-,ha⟩ := target_label I ht
    rw [h, Option.some.injEq, Place.mk.injEq] at ha
    exact absurd ha.2.symm (List.append_ne_nil_of_right_ne_nil _ (List.cons_ne_nil _ _))

theorem inner_once {p : List Index} {j : Index} (h : label a = some ⟨o,p++[j]⟩) :
    ReferencedOnce K s 3 a := by
  right
  have hlen : p.length < 3 := by
    have hb := I.paging.forest.bounded a _ h
    simp only [List.length_append, List.length_singleton, scheme_depth] at hb
    omega
  obtain ⟨r,hr,hw⟩ := I.paging.forest.rooted a o _ h
  rw [walk_append] at hw
  obtain ⟨n,hn,hstep⟩ := Option.bind_eq_some_iff.1 hw
  obtain ⟨c,hc,hca⟩ := Option.bind_eq_some_iff.1 hstep
  cases hca
  have hlabel : label n = some ⟨o,p⟩ := (I.paging.forest.walk_iff hr (by simpa using hlen.le)).1 hn
  have T := table_page_walk .root p (by omega) hn
  rw [zero_add] at T
  have hp : entry s.mem n j &&& PTE_P ≠ 0 := by
    intro hz
    have hnone : scheme.child (slot s.mem n j) = none := if_neg (not_not.2 hz)
    rw [hnone] at hc
    cases hc
  have haddr : PTE_ADDR (entry s.mem n j) = a := by
    have hsome : scheme.child (slot s.mem n j) = some (PTE_ADDR (entry s.mem n j)) := if_pos hp
    rw [hsome] at hc
    exact Option.some.inj hc
  refine ⟨fun o' S' => ?_,⟨(n,j.val),?_,?_⟩⟩
  · have h' := space_label I S'
    rw [h, Option.some.injEq, Place.mk.injEq] at h'
    exact List.append_ne_nil_of_right_ne_nil _ (List.cons_ne_nil _ _) h'.2
  · exact ⟨o,r,p.length,space_of_root hr,hlen,T,j.isLt,hp,haddr⟩
  · rintro ⟨pt,i⟩ ht
    obtain ⟨o',p',j',hpt,-,hi,ha⟩ := target_label I ht
    rw [h, Option.some.injEq, Place.mk.injEq] at ha
    obtain ⟨hoo,hpp⟩ := ha
    obtain ⟨hpre,hlast⟩ := List.append_inj' hpp rfl
    rw [← hoo, ← hpre] at hpt
    simp only [List.cons.injEq, and_true] at hlast
    exact Prod.ext (label_unique I hpt hlabel) (by rw [hi, hlast])

theorem table_once (S : Space K s o r) (T : TablePage s.mem r d a) : ReferencedOnce K s 3 a := by
  obtain ⟨p,hp,-⟩ := page_label I S T
  rcases List.eq_nil_or_concat p with rfl | ⟨q,j,rfl⟩
  · exact root_once I hp
  · rw [List.concat_eq_append] at hp
    exact inner_once I hp

/-- Inner entries link table pages of the same tree. -/
theorem inner_entry (S : Space K s o r) (T : TablePage s.mem r d pt) (hd : d < 3)
    (hi : i < NPAGETABLEENTRIES) (hne : entry s.mem pt i ≠ 0) :
    entry s.mem pt i &&& PTE_P ≠ 0 ∧ PTE_ADDR (entry s.mem pt i) < MEMSIZE_PHYSICAL ∧
      s.pageinfo (PTE_ADDR (entry s.mem pt i) / PAGESIZE) = ⟨o,1⟩ := by
  obtain ⟨p,hpt,hlen⟩ := page_label I S T
  rcases I.paging.forest.child pt o p ⟨i,hi⟩ hpt (by rw [hlen]; exact hd) with h | ⟨c,hc,hl⟩
  · exact absurd h hne
  · have hword : entry s.mem pt i = c+7 := hc
    have halign : c % 4096 = 0 := I.paging.aligned hl
    have haddr : PTE_ADDR (c+7) = c := by
      rw [pte_addr_eq]
      omega
    obtain ⟨hlt,hinfo⟩ := I.paging.owned c _ hl
    rw [hword, haddr]
    exact ⟨(present_iff _).2 (by omega),hlt,hinfo⟩

/-- The words of the lowest tables are the leaves of the address space. -/
theorem leaf_of_entry (hp : Slot pid) (hl : live s pid)
    (T : TablePage s.mem (s.processes pid).p_pagetable 3 pt) (hi : i < NPAGETABLEENTRIES) :
    ∃ va p, label pt = some ⟨pid,p⟩ ∧ indices va = p++[⟨i,hi⟩] ∧
      leafWord s.mem (s.processes pid).p_pagetable va = entry s.mem pt i := by
  have hr := rootsOf_live (K := K) hp hl
  obtain ⟨p,hpt,hlen⟩ := table_page_label I.paging hr T
  obtain ⟨va,-,-,hva⟩ := exists_indices (p++[⟨i,hi⟩]) (by simp [hlen])
  have hlen' : p.length ≤ scheme.depth := hlen.le
  refine ⟨va,p,hpt,hva,?_⟩
  rw [leafWord, hva, leaf_snoc, (I.paging.forest.walk_iff hr hlen').2 hpt]
  rfl

/-- What user code can reach is no page table. -/
theorem user_entry (hp : Slot pid) (hl : live s pid)
    (T : TablePage s.mem (s.processes pid).p_pagetable 3 pt) (hi : i < NPAGETABLEENTRIES)
    (hpres : entry s.mem pt i &&& PTE_P ≠ 0) (hu : entry s.mem pt i &&& PTE_U ≠ 0) :
    label (PTE_ADDR (entry s.mem pt i)) = none := by
  have haddr : ∀ a f, a % 4096 = 0 → f < 4096 → PTE_ADDR (a+f) = a := by
    intro a f ha hf
    rw [pte_addr_eq]
    omega
  obtain ⟨va,-,-,-,hva⟩ := leaf_of_entry I hp hl T hi
  have hleaf := I.leaf hp hl va
  rw [hva] at hleaf
  generalize entry s.mem pt i = e at hleaf hpres hu
  cases hleaf with
  | empty => exact absurd (Nat.zero_and _) hpres
  | kernel a hf hlow =>
    have hbit := (user_iff (a+3)).1 hu
    have ha := hf.1
    omega
  | console hlow =>
    rw [haddr console 7 (by decide) (by decide)]
    exact console_unlabelled I
  | user a hf hframe =>
    rw [haddr a 7 hf.1 (by decide)]
    exact hframe.1

theorem table_forest : TableForest K s where
  disjoint o r d o' r' d' a S T S' T' := by
    obtain ⟨p,hp,hlen⟩ := page_label I S T
    obtain ⟨p',hp',hlen'⟩ := page_label I S' T'
    rw [hp, Option.some.injEq, Place.mk.injEq] at hp'
    exact ⟨hp'.1,by rw [← hlen, ← hlen', hp'.2]⟩
  once o r d a S T := table_once I S T
  inner o r d pt i S T hd hi hne := inner_entry I S T hd hi hne
  user pid hpid hl pt i T hi hpres hu o r d S T' := by
    obtain ⟨p,hp,-⟩ := page_label I S T'
    rw [user_entry I (live_slot I hpid hl) hl T hi hpres hu] at hp
    cases hp

end Labels

/-- The kernel's tables lie in its data. -/
theorem kernel_table_marked (K : KernelImage) {k : ℕ} (hk : k < 5) :
    K.kernel_pagetables / 4096+k < 512 ∧
      (pageinfo_init_entry K ((K.kernel_pagetables / 4096+k)*4096)).owner ≠ PO_FREE ∧
      (K.kernel_pagetables / 4096+k)*4096 = table K k ∧ table K k ≠ console := by
  obtain ⟨halign,hlow,hend,hmax⟩ := table_frame K hk
  have h0 := (table_frame K (i := 0) (by decide)).1
  have haddr : (K.kernel_pagetables / 4096+k)*4096 = table K k := by
    simp only [table] at h0 ⊢
    omega
  refine ⟨by omega,?_,haddr,by simp only [console]; omega⟩
  rw [haddr, pageinfo_init_entry]
  by_cases hres : physical_memory_isreserved (table K k)
  · rw [if_pos hres]
    decide
  · rw [if_neg hres, if_pos (Or.inl ⟨hlow,hend⟩)]
    decide

/-- The tables form a forest in every state of a run, and the five tables of
`kernel_pagetables` never change. -/
theorem tables_form_forest (hK : Loadable K) (R : Run K InWindow (.user s))
    (C : Continues K InWindow s out) : TableForest K out.state ∧
      Agree s.mem out.state.mem K.kernel_pagetables (5*PAGESIZE) := by
  obtain ⟨label',I,-⟩ := run_inv hK (R.continue C)
  obtain ⟨label,-,S,hx⟩ := run_isolated hK R
  refine ⟨table_forest I,fun j hj => ?_⟩
  have hk : j / 4096 < 5 := by
    simp only [PAGESIZE] at hj
    omega
  obtain ⟨hpn,hmark,haddr,hcon⟩ := kernel_table_marked K hk
  have h := marked_kept (hx s rfl) S C hpn hmark (haddr ▸ hcon) (j % 4096)
    (Nat.mod_lt j (by decide))
  rw [haddr] at h
  have hj' : table K (j / 4096)+j % 4096 = K.kernel_pagetables+j := by
    simp only [table]
    omega
  rwa [hj'] at h

theorem forest_after_boot : ∃ s, kernel sampleKernel (some "fork") powerOn = .ok (.user s) ∧
    TableForest sampleKernel s := by
  obtain ⟨-,s,hboot,-⟩ := sample_boot powerOn
  exact ⟨s,hboot,(tables_form_forest sample_loadable (.boot hboot) .refl).1⟩

section Identity

/-- A mapped address has its word in a lowest table. -/
theorem leaf_entry {m : Memory} {va : ℕ} (h : leafWord m r va ≠ 0) :
    ∃ pt, TablePage m r 3 pt ∧ entry m pt (pageindex va 3) = leafWord m r va := by
  rw [leafWord, indices_snoc, leaf_snoc] at h ⊢
  cases hw : walk scheme (slot m) r (tableIndices va) with
  | none => rw [hw] at h; exact absurd rfl h
  | some c => exact ⟨c,table_page_walk .root (tableIndices va) (by simp) hw,rfl⟩

/-- The kernel maps every page of physical memory onto itself. -/
theorem identity_target (I : KInv K label s) (ha : Frame a) : ∃ pt,
    TablePage s.mem K.kernel_pagetable 3 pt ∧ Target K s 4 pt (pageindex a 3) a := by
  obtain ⟨halign,hlt⟩ := ha
  have hpage : vpage a = a / 4096 := by
    simp only [vpage]
    omega
  have hself : kernelWord a = a+7 ∨ kernelWord a = a+3 := by
    rw [kernelWord, hpage]
    by_cases hlow : a / 4096 < 256
    · rw [if_pos hlow]
      by_cases hcon : a / 4096 = 0xB8
      · rw [if_pos hcon]
        simp only [console]
        omega
      · rw [if_neg hcon]
        omega
    · rw [if_neg hlow, if_pos (by omega)]
      omega
  have hword : leafWord s.mem K.kernel_pagetable a ≠ 0 := by
    rw [I.paging.kernel_leaf]
    omega
  obtain ⟨pt,T,hentry⟩ := leaf_entry hword
  rw [I.paging.kernel_leaf] at hentry
  refine ⟨pt,T,PO_KERNEL,_,3,.kernel,by decide,T,pageindex_lt a 3,?_,?_⟩
  · rw [present_iff, hentry]
    omega
  · rw [hentry, pte_addr_eq]
    omega

/-- So a table below a root is the target of an entry of the lowest level as well. -/
theorem linked_twice (I : KInv K label s) :
    ∃ a, TablePage s.mem K.kernel_pagetable 1 a ∧ ¬ReferencedOnce K s 4 a := by
  have hzero : leafWord s.mem K.kernel_pagetable 0 ≠ 0 := by
    rw [I.paging.kernel_leaf]
    decide
  obtain ⟨pt₃,T₃,-⟩ := leaf_entry hzero
  obtain ⟨i,T₁,hi,hp⟩ : ∃ i : ℕ, TablePage s.mem K.kernel_pagetable 1
      (PTE_ADDR (entry s.mem K.kernel_pagetable i)) ∧ i < NPAGETABLEENTRIES ∧
      entry s.mem K.kernel_pagetable i &&& PTE_P ≠ 0 := by
    cases T₃ with
    | child T₂ _ _ _ => cases T₂ with
      | child T₁ _ _ _ => cases T₁ with
        | child T₀ hd hi hp => cases T₀ with
          | root => exact ⟨_,.child .root hd hi hp,hi,hp⟩
  refine ⟨_,T₁,fun honce => ?_⟩
  generalize ha : PTE_ADDR (entry s.mem K.kernel_pagetable i) = a at T₁ honce
  have hlink : Target K s 4 K.kernel_pagetable i a :=
    ⟨PO_KERNEL,_,0,.kernel,by decide,.root,hi,hp,ha⟩
  obtain ⟨p,hlabel,hlen⟩ := page_label I .kernel T₁
  obtain ⟨pt,T,hmap⟩ := identity_target I
    ⟨I.paging.aligned hlabel,(I.paging.owned a _ hlabel).1⟩
  rcases honce with ⟨-,hno⟩ | ⟨-,e,-,huniq⟩
  · exact hno _ _ hlink
  · have h1 := huniq (K.kernel_pagetable,i) hlink
    have h2 := huniq (pt,pageindex a 3) hmap
    rw [← h2, Prod.mk.injEq] at h1
    -- the root is no lowest table
    obtain ⟨p',hl',hlen'⟩ := page_label I .kernel T
    rw [← h1.1, space_label I .kernel, Option.some.injEq, Place.mk.injEq] at hl'
    rw [← hl'.2] at hlen'
    cases hlen'

theorem sample_linked_twice : ¬∀ out, Run sampleKernel InWindow out →
    ∀ o r d a, Space sampleKernel out.state o r → TablePage out.state.mem r d a →
      ReferencedOnce sampleKernel out.state 4 a := by
  intro h
  obtain ⟨label,s,hboot,B,-⟩ := sample_boot powerOn
  obtain ⟨a,T,ha⟩ := linked_twice B.inv
  exact ha (h _ (.boot hboot) _ _ _ a .kernel T)

end Identity

end WeensyOS.TableForests
