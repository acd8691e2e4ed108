import WeensyOS.LifeCycle
import WeensyOS.AllocRuns

/-!
# Reference counts

As long as forks succeed and no page is requested where one is mapped already,
the reference count of each page of a process is the number of its references:
from a slot, from an inner table, or from a user mapping.
-/

set_option autoImplicit false

namespace WeensyOS.ReferenceCounts
open WeensyOS.FlatMemory WeensyOS.KernelState WeensyOS.PageTables WeensyOS.PageAllocator
open WeensyOS.Exceptions WeensyOS.Boot WeensyOS.RadixForest
open WeensyOS.TableWords WeensyOS.FreePages WeensyOS.PagingInvariant WeensyOS.PageMaps
open WeensyOS.TableCopies WeensyOS.ForkCopies WeensyOS.KernelInvariant WeensyOS.KernelSteps
open WeensyOS.ForkResult WeensyOS.AllocResult WeensyOS.Isolation WeensyOS.BootResult
open WeensyOS.BootRun WeensyOS.Effects WeensyOS.Runs WeensyOS.PrivateRuns WeensyOS.PageAccounts
open WeensyOS.TableForests WeensyOS.Exhaustion

variable {K : KernelImage} {label label' : Labels} {s s' s₁ s₂ t : KState}
  {reg : x86_64_registers} {out : Outcome} {i r f c pid pn a : ℕ} {res : ℤ}

/-- The exceptions of a run that loses no page. -/
structure Orderly (K : KernelImage) (s : KState) (reg : x86_64_registers) : Prop where
  window : InWindow s reg
  unmapped : reg.reg_intno = INT_SYS_PAGE_ALLOC →
    (translation s s.current reg.reg_rdi.toNat).perm &&& PTE_P = 0
  succeeds : reg.reg_intno = INT_SYS_FORK → ∃ s₁ s₂, exception_enter K reg s = .ok s₁ ∧
    fork s₁ = .ok s₂ ∧ result s₂ ≠ toRegister FAILED

/-- A place that holds the address of a page: `p_pagetable` of a slot, or an entry of a table. -/
inductive Reference where
  | root (pid : ℕ)
  | entry (pt i : ℕ)

/-- The references to a page. An entry of the lowest level counts when user code can use it. -/
def Refers (s : KState) (a : ℕ) : Reference → Prop
  | .root pid => pid < NPROC ∧ live s pid ∧ (s.processes pid).p_pagetable = a
  | .entry pt i => ∃ pid < NPROC, live s pid ∧ ∃ d,
      TablePage s.mem (s.processes pid).p_pagetable d pt ∧ i < NPAGETABLEENTRIES ∧
      entry s.mem pt i &&& PTE_P ≠ 0 ∧ (d < 3 ∨ entry s.mem pt i &&& PTE_U ≠ 0) ∧
      PTE_ADDR (entry s.mem pt i) = a

/-- Every page of a process is a table or mapped, and the stack page is mapped. -/
structure Kept (K : KernelImage) (label : Labels) (s : KState) : Prop where
  isolated : Isolated (rootsOf K s) label s
  reached : Reached (rootsOf K s) label s
  stack : StackMapped (rootsOf K s) s

section Steps

theorem Kept.quiet (H : Kept K label s) (Q : Quiet s s') : Kept K label s' where
  isolated := isolated_quiet H.isolated Q
  reached := by
    rw [Q.rootsOf]
    refine H.reached.same (fun o r va _ => by rw [Q.mem]) (fun _ _ h => h) fun pn => Or.inl ?_
    rw [Q.pageinfo]
  stack o r ho hr := by
    rw [Q.rootsOf] at hr
    rw [Q.mem]
    exact H.stack o r ho hr

theorem Kept.stored {m : Memory} (H : Kept K label s) (I : KInv K label s)
    (T : TablesKept label s m) : Kept K label { s with mem := m } where
  isolated := isolated_stored H.isolated I T
  reached := H.reached.same (T.leaves I.paging) (fun _ _ h => h) fun _ => Or.inl rfl
  stack o r ho hr := by
    change leafWord m r _ ≠ 0
    rw [T.leaves I.paging o r _ hr]
    exact H.stack o r ho hr

/-- In the window the tables of a process exist from the start. -/
theorem Kept.tables (H : Kept K label s) (I : KInv K label s) {va : ℕ}
    (hva : 256 ≤ vpage va ∧ vpage va < 768) : tablesMissing s.mem (currentTable s) va = 0 := by
  have hroot := rootsOf_live (K := K) I.current_slot I.current_live
  have hsame : ∀ x, leafWord s.mem (currentTable s) x ≠ 0 → vpage x / 512 = vpage va / 512 →
      tablesMissing s.mem (currentTable s) va = 0 := by
    intro x hx hpage
    rw [tablesMissing, ← (tableIndices_eq_iff x va).2 hpage]
    exact tablesMissing_leaf _ _ _ hx
  by_cases hlow : vpage va < 512
  · have hzero : vpage 0 = 0 := rfl
    exact hsame 0 (I.low _ I.current_slot I.current_live 0 (by decide)) (by omega)
  · have hstack : vpage (MEMSIZE_VIRTUAL-PAGESIZE) = 767 := by decide
    exact hsame _ (H.stack _ _ I.current_slot.owner hroot) (by omega)

/-- A page that is not mapped has no word. -/
theorem unmapped_word (I : KInv K label s) (hp : Slot pid) (hl : live s pid) {va : ℕ}
    (h : (translation s pid va).perm &&& PTE_P = 0) :
    leafWord s.mem (s.processes pid).p_pagetable va = 0 := by
  have hlook := I.lookup hp hl va
  have hleaf := I.leaf hp hl va
  rw [translation, hlook] at h
  generalize leafWord s.mem (s.processes pid).p_pagetable va = e at h hleaf
  cases hleaf with
  | empty => rfl
  | kernel a hf hlow =>
    rw [leafMapping_frame hf (Or.inl rfl)] at h
    exact absurd h (show 3 &&& PTE_P ≠ 0 by decide)
  | console hlow =>
    rw [leafMapping_frame ⟨by decide,by decide⟩ (Or.inr rfl)] at h
    exact absurd h (show 7 &&& PTE_P ≠ 0 by decide)
  | user a hf hu =>
    rw [leafMapping_frame hf (Or.inr rfl)] at h
    exact absurd h (show 7 &&& PTE_P ≠ 0 by decide)

theorem Kept.allocated (H : Kept K label s) (I : KInv K label s)
    (hwin : 256 ≤ vpage (request s) ∧ vpage (request s) < 768)
    (hempty : leafWord s.mem (currentTable s) (request s) = 0)
    (A : Allocated K f 0 label label' c s t) : Kept K label' t := by
  have hroot := rootsOf_live (K := K) I.current_slot I.current_live
  have hone : OneLeaf (rootsOf K s) s.current (request s) f s t := fun o x va hx => by
    rw [A.leaf o x va hx]
    simp only [true_and]
  refine ⟨allocated_isolated A I H.isolated hwin,?_,?_⟩
  · rw [allocated_roots A]
    exact H.reached.map hone hroot hwin.1 hempty A.grows.mono A.info (A.tables rfl)
  · rw [allocated_roots A]
    intro o x ho hx
    rw [hone o x _ hx]
    split
    · exact Nat.succ_ne_zero _
    · exact H.stack o x ho hx

theorem Kept.forked (H : Kept K label s) (I : KInv K label s) (hslot : free_slot s = some i)
    (F : Forked K i r label label' c s t) (C : Complete i r label' s t) : Kept K label' t := by
  obtain ⟨hi,-,-⟩ := free_slot_some hslot
  have hroot := rootsOf_live (K := K) I.current_slot I.current_live
  have hold : ∀ o' x va, o' ≠ (i : ℤ) → rootsOf K s o' = some x →
      leafWord t.mem x va = leafWord s.mem x va :=
    fun o' x va hne hx => I.paging.leaf_kept F.grows hx hne va
  refine ⟨forked_isolated F I hslot H.isolated,?_,?_⟩
  · rw [F.roots hi]
    refine H.reached.root (slot_rootless hslot) hold F.grows.mono fun pn => ?_
    rcases C.pages pn with h | h | ⟨va,hva,hw⟩
    · exact Or.inl h
    · exact Or.inr (Or.inl h)
    · have hlow := (window_pages.vpage (List.mem_map_of_mem hva)).1
      have hne : leafWord t.mem r va ≠ 0 := by
        rw [hw]
        exact Nat.succ_ne_zero _
      obtain ⟨-,g,hcopy⟩ := (F.high va hlow).resolve_left hne
      have hg : g = pn := by
        have hleaf := hcopy.leaf
        omega
      exact Or.inr (Or.inr ⟨hg ▸ hcopy.info,va,hlow,hw⟩)
  · rw [F.roots hi]
    intro o x ho hx
    by_cases hoo : o = i
    · rw [hoo, Function.update_self, Option.some.injEq] at hx
      have hstack : MEMSIZE_VIRTUAL-PAGESIZE ∈ window := mem_window (by decide) (by decide) (by decide)
      obtain ⟨g,hcopy⟩ := C.copies _ hstack (H.stack _ _ I.current_slot.owner hroot)
      rw [← hx, hcopy.leaf]
      exact Nat.succ_ne_zero _
    · rw [Function.update_of_ne hoo] at hx
      rw [hold o x _ hoo hx]
      exact H.stack o x ho hx

/-- Exceptions of an orderly run lose no page. -/
theorem handling_keeps (X : Executing K label s) (H : Handling K reg label label' s s₁ s₂ out)
    (O : Orderly K s reg) (P : Kept K label s) : Kept K label' out.state := by
  have I := H.inv
  have P₁ := P.quiet H.entered.quiet
  have hwin := window_request O.window H.entered
  refine Kept.quiet ?_ (Leaves.quiet H.leaves).1
  -- a fork that fails is out of order
  have hfork : ∀ u : KState, fork s₁ = .ok (u.setRax s₁.current FAILED) → u.current = s₁.current →
      reg.reg_intno = INT_SYS_FORK → False := by
    intro u hu hcur hno
    obtain ⟨v,w,henter,hw,hres⟩ := O.succeeds hno
    have hv : v = s₁ := Except.ok.inj (henter.symm.trans H.enter)
    rw [hv, hu, Except.ok.injEq] at hw
    rw [← hw, ← hcur, result_setRax rfl] at hres
    exact hres rfl
  have E := H.effect
  cases E with
  | getpid hno => exact P₁.quiet (Quiet.setRax _ _ _)
  | yield hno => exact P₁
  | timer hno => exact P₁.quiet ⟨rfl,rfl,fun _ => ⟨Iff.rfl,rfl,rfl⟩⟩
  | fault hno huser => exact P₁.quiet (broken_quiet I.current_live)
  | refused hno hfree => exact P₁.quiet (AllocRuns.refused_quiet s₁)
  | @alloc f c res label' t hno hva hres hmap A =>
    have htables := P₁.tables I (hwin hno)
    have hcount : freeCount s₁ ≠ 0 := fun hz => by
      rw [freeCount_eq_zero] at hz
      exact Finset.notMem_empty f (hz ▸ A.fresh)
    have hzero : res = 0 := hmap (index123_ne _ (by have := (hwin hno).2; omega)) (by omega)
    have hlive := X.inv.current_live
    have hempty := unmapped_word X.inv X.inv.current_slot hlive (O.unmapped hno)
    rw [hzero] at A
    refine (P₁.allocated I (hwin hno) ?_ A).quiet (Quiet.setRax _ _ _)
    rw [entered_request H.entered, H.entered.quiet.mem, currentTable, H.entered.current,
      (H.entered.quiet.procs s.current).2.1]
    exact hempty
  | noSlot hno hslot => exact (hfork s₁ (by rw [fork, hslot]) rfl hno).elim
  | rootless hno hslot hfree => exact (hfork _ (fork_none I hslot hfree) rfl hno).elim
  | unfinished hno hslot hroot hshort F =>
    obtain ⟨r',label'',u,hu,F'⟩ := fork_short I hslot hroot hshort
    exact (hfork u hu F'.current hno).elim
  | forked hno hslot hcount F C =>
    exact (P₁.forked I hslot F C).quiet ((Quiet.setRax _ _ _).trans (Quiet.setRax _ _ _))

theorem run_kept (hK : Loadable K) (R : Run K (Orderly K) out) :
    ∃ label, KInv K label out.state ∧ Kept K label out.state := by
  obtain ⟨label,s,B,X,-,C⟩ := R.split hK
  suffices h : ∃ label', KInv K label' out.state ∧ Kept K label' out.state ∧
      ∀ t, out = .user t → Executing K label' t by
    obtain ⟨label',I,P,-⟩ := h
    exact ⟨label',I,P⟩
  exact continues_keeps X ⟨B.isolated,B.reached,B.stack⟩
    (fun _ _ _ _ _ _ _ O X H P => handling_keeps X H O P)
    (fun _ _ _ _ _ X _ T P => P.stored X.inv T) C

end Steps

section Counts

variable (I : KInv K label s)
include I

/-- The places that refer to a table page. -/
theorem refers_table {o : ℤ} {p : List Index} (h : label a = some ⟨o,p⟩) {x : Reference}
    (hx : Refers s a x) : (∃ pid : ℕ, x = .root pid ∧ o = pid ∧ p = []) ∨
      ∃ pt q, ∃ j : Index, x = .entry pt j ∧ p = q++[j] ∧ label pt = some ⟨o,q⟩ := by
  cases x with
  | root pid =>
    obtain ⟨hp,hl,ha⟩ := hx
    have hroot := I.root (live_slot I hp hl) hl
    rw [ha, h, Option.some.injEq, Place.mk.injEq] at hroot
    exact Or.inl ⟨pid,rfl,hroot⟩
  | entry pt i =>
    obtain ⟨pid,hp,hl,d,T,hi,hpres,hd,ha⟩ := hx
    by_cases hd3 : d < 3
    · have ht : Target K s 3 pt i a := ⟨pid,_,d,.process hp hl,hd3,T,hi,hpres,ha⟩
      obtain ⟨o',q,j,hpt,-,hij,hlabel⟩ := target_label I ht
      rw [h, Option.some.injEq, Place.mk.injEq] at hlabel
      exact Or.inr ⟨pt,q,j,by rw [hij],hlabel.2,by rw [hpt, hlabel.1]⟩
    · -- user mappings never name a table
      obtain ⟨q,hq,hlen⟩ := page_label I (.process hp hl) T
      have hbound := I.paging.forest.bounded pt _ hq
      simp only [scheme_depth] at hbound
      have hd' : d = 3 := by omega
      rw [hd'] at T
      have hnone := user_entry I (live_slot I hp hl) hl T hi hpres (hd.resolve_left hd3)
      rw [ha, h] at hnone
      cases hnone

theorem table_unique {o : ℤ} {p : List Index} (h : label a = some ⟨o,p⟩) {x y : Reference}
    (hx : Refers s a x) (hy : Refers s a y) : x = y := by
  rcases refers_table I h hx with ⟨pid,rfl,hpid,hnil⟩ | ⟨pt,q,j,rfl,hq,hpt⟩
  · rcases refers_table I h hy with ⟨pid',rfl,hpid',-⟩ | ⟨pt',q',j',rfl,hq',-⟩
    · rw [Int.ofNat.inj (hpid.symm.trans hpid')]
    · rw [hnil] at hq'
      exact absurd hq'.symm (List.append_ne_nil_of_right_ne_nil _ (List.cons_ne_nil _ _))
  · rcases refers_table I h hy with ⟨pid',rfl,-,hnil⟩ | ⟨pt',q',j',rfl,hq',hpt'⟩
    · rw [hnil] at hq
      exact absurd hq.symm (List.append_ne_nil_of_right_ne_nil _ (List.cons_ne_nil _ _))
    · obtain ⟨hpre,hlast⟩ := List.append_inj' (hq.symm.trans hq') rfl
      simp only [List.cons.injEq, and_true] at hlast
      rw [← hpre] at hpt'
      rw [label_unique I hpt hpt', hlast]

/-- A table page of a process is referred to from its slot or from the table above. -/
theorem table_referred {p : List Index} (hpid : 0 < pid) (h : label a = some ⟨pid,p⟩) :
    ∃ x, Refers s a x := by
  have hk : (pid : ℤ) ≠ PO_KERNEL := by
    simp only [PO_KERNEL]
    omega
  obtain ⟨r,hr,T⟩ := label_table_page I.paging h
  obtain ⟨j,hj,hp,hl,hjr⟩ := rootsOf_some hr hk
  generalize p.length = n at T
  cases T with
  | root => exact ⟨.root j,hp.2,hl,hjr⟩
  | @child d pt i T hd hi hpres => exact ⟨.entry pt i,j,hp.2,hl,d,hjr ▸ T,hi,hpres,Or.inl hd,rfl⟩

section Frames

variable (S : Isolated (rootsOf K s) label s) {o : ℤ} {va : ℕ}
include S

/-- The one reference to a frame is the entry that maps it. -/
theorem frame_unique (hown : OwnFrame label s pid a) (hp : Slot pid) (hva : 256 ≤ vpage va)
    (hw : leafWord s.mem (s.processes pid).p_pagetable va = a+7)
    {x : Reference} (hx : Refers s a x) : ∃ pt, x = .entry pt (index va 3) ∧
      label pt = some ⟨pid,tableIndices va⟩ := by
  obtain ⟨hframe,hnone,hinfo⟩ := hown
  cases x with
  | root j =>
    obtain ⟨hj,hlj,ha⟩ := hx
    have hroot := I.root (live_slot I hj hlj) hlj
    rw [ha, hnone] at hroot
    cases hroot
  | entry pt i =>
    obtain ⟨j,hj,hlj,d,T,hi,hpres,hd,ha⟩ := hx
    have hjs := live_slot I hj hlj
    by_cases hd3 : d < 3
    · obtain ⟨_,_,_,-,-,-,hlabel⟩ := target_label I
        ⟨j,_,d,.process hj hlj,hd3,T,hi,hpres,ha⟩
      rw [hnone] at hlabel
      cases hlabel
    · obtain ⟨q,hq,hlen⟩ := page_label I (.process hj hlj) T
      have hbound := I.paging.forest.bounded pt _ hq
      simp only [scheme_depth] at hbound
      have hd' : d = 3 := by omega
      rw [hd'] at T
      have hu := hd.resolve_left hd3
      obtain ⟨va',p,hpt,hpath,hleaf⟩ := leaf_of_entry I hjs hlj T hi
      rw [← hleaf] at hpres hu ha
      have hne : leafWord s.mem (s.processes j).p_pagetable va' ≠ 0 := fun hz => by
        rw [hz] at hpres
        exact hpres (Nat.zero_and _)
      have hjr := rootsOf_live (K := K) hjs hlj
      have halign := hframe.1
      by_cases hlow : vpage va' < 256
      · -- below the window only the console is open, and no process owns it
        exfalso
        rw [S.low j _ hjs.owner hjr va' hlow, kernelWord, if_pos hlow] at hu ha
        by_cases hcon : vpage va' = 0xB8
        · rw [if_pos hcon, pte_addr_eq] at ha
          have hpage : a / 4096 = 0xB8 := by
            rw [← ha]
            simp only [console]
          have hentry : pageinfo_init_entry K (0xB8*4096) = ⟨PO_RESERVED,1⟩ := rfl
          rw [hpage, I.paging.marked 0xB8 (by decide) (by rw [hentry]; decide), hentry] at hinfo
          have ho : PO_RESERVED = (pid : ℤ) := congrArg physical_pageinfo.owner hinfo
          simp only [PO_RESERVED] at ho
          omega
        · rw [if_neg hcon] at hu
          have hbit := (user_iff _).1 hu
          omega
      · obtain ⟨-,a',ha',-,-,hinfo'⟩ := S.high j _ hjs.owner hjr va' (by omega) hne
        have haa : a' = a := by
          have halign' := (S.high j _ hjs.owner hjr va' (by omega) hne).2.choose_spec.2.1.1
          have hspec := (S.high j _ hjs.owner hjr va' (by omega) hne).2.choose_spec.1
          rw [ha', pte_addr_eq] at ha
          omega
        rw [haa, hinfo] at hinfo'
        have hjp : pid = j := Int.ofNat.inj (congrArg physical_pageinfo.owner hinfo')
        subst hjp
        have hsame := S.inj pid _ hp.owner hjr va' va (by omega) hva hne (by rw [ha', haa, hw])
        have hidx := (indices_eq_iff va' va).2 hsame
        rw [hpath, indices_snoc] at hidx
        obtain ⟨hpre,hlast⟩ := List.append_inj' hidx rfl
        simp only [List.cons.injEq, and_true] at hlast
        refine ⟨pt,?_,hpre ▸ hpt⟩
        rw [← hlast]

omit I S in
theorem frame_referred (hframe : Frame a) (hp : Slot pid) (hl : live s pid)
    (hw : leafWord s.mem (s.processes pid).p_pagetable va = a+7) : ∃ x, Refers s a x := by
  have hne : leafWord s.mem (s.processes pid).p_pagetable va ≠ 0 := by
    rw [hw]
    exact Nat.succ_ne_zero _
  have halign := hframe.1
  obtain ⟨pt,T,hentry⟩ := leaf_entry hne
  rw [hw] at hentry
  refine ⟨.entry pt (pageindex va 3),pid,hp.2,hl,3,T,pageindex_lt va 3,?_,Or.inr ?_,?_⟩
  · rw [hentry, present_iff]
    omega
  · rw [hentry, user_iff]
    omega
  · rw [hentry, pte_addr_eq]
    omega

end Frames

end Counts

/-- The count is the number of references, and the owner reaches the page. -/
structure Counted (s : KState) (pid pn : ℕ) : Prop where
  count : (s.pageinfo pn).refcount = ({x | Refers s (pn*PAGESIZE) x}.ncard : ℕ)
  reachable : live s pid ∧ ((∃ d, TablePage s.mem (s.processes pid).p_pagetable d (pn*PAGESIZE)) ∨
    ∃ va, UserPage s pid va ∧ (translation s pid va).pn = (pn : ℕ))

theorem one_reference (h : ∃ x, Refers s a x)
    (hunique : ∀ x y, Refers s a x → Refers s a y → x = y) : {x | Refers s a x}.ncard = 1 := by
  obtain ⟨x,hx⟩ := h
  rw [Set.ncard_eq_one]
  refine ⟨x,Set.eq_singleton_iff_unique_mem.2 ⟨hx,fun y hy => hunique y x hy hx⟩⟩

theorem kept_counted (I : KInv K label s) (P : Kept K label s) (hpn : pn < NPAGES)
    (hpid : 0 < pid) (howner : (s.pageinfo pn).owner = (pid : ℕ)) : Counted s pid pn := by
  have hinfo : s.pageinfo pn = ⟨pid,1⟩ ∧ pid < NPROC := by
    rcases (accounted I).entries pn hpn with h | h | h | ⟨j,-,hj,h,-⟩
    · rw [h] at howner
      simp only [PO_FREE] at howner
      omega
    · rw [h] at howner
      simp only [PO_RESERVED] at howner
      omega
    · rw [h] at howner
      simp only [PO_KERNEL] at howner
      omega
    · rw [h] at howner
      have hjp : j = pid := Int.ofNat.inj howner
      exact ⟨hjp ▸ h,hjp ▸ hj⟩
  have ho : ProcOwner pid := Slot.owner ⟨hpid,hinfo.2⟩
  rcases P.reached pn hpn pid ho hinfo.1 with ⟨⟨o,p⟩,hq⟩ | ⟨r,va,hr,hva,hw⟩
  · have hown := (I.paging.owned _ _ hq).2
    have hdiv : pn*4096 / 4096 = pn := by omega
    rw [hdiv, hinfo.1] at hown
    have hop : (pid : ℤ) = o := congrArg physical_pageinfo.owner hown
    rw [← hop] at hq
    have hone := one_reference (table_referred I hpid hq) fun x y hx hy => table_unique I hq hx hy
    refine ⟨by rw [hinfo.1, hone]; rfl,?_⟩
    obtain ⟨r,hr,T⟩ := label_table_page I.paging hq
    obtain ⟨j,hj,hp,hl,hjr⟩ := rootsOf_some hr (by simp only [PO_KERNEL]; omega)
    obtain rfl : pid = j := Int.ofNat.inj hj
    exact ⟨hl,Or.inl ⟨p.length,hjr ▸ T⟩⟩
  · obtain ⟨j,hj,hp,hl,hjr⟩ := rootsOf_some hr (by simp only [PO_KERNEL]; omega)
    obtain rfl : pid = j := Int.ofNat.inj hj
    rw [← hjr] at hw hr
    have hne : leafWord s.mem (s.processes pid).p_pagetable va ≠ 0 := by
      rw [hw]
      exact Nat.succ_ne_zero _
    obtain ⟨-,a,ha,hown⟩ := P.isolated.high pid _ ho hr va hva hne
    have hap : a = pn*4096 := Nat.add_right_cancel (ha.symm.trans hw)
    rw [hap] at hown
    have hone := one_reference (frame_referred hown.1 hp hl hw) fun x y hx hy => by
      obtain ⟨pt,rfl,hpt⟩ := frame_unique I P.isolated hown hp hva hw hx
      obtain ⟨pt',rfl,hpt'⟩ := frame_unique I P.isolated hown hp hva hw hy
      rw [label_unique I hpt hpt']
    refine ⟨by rw [hinfo.1, hone]; rfl,hl,Or.inr ⟨va,?_⟩⟩
    have hdiv : pn*4096 / 4096 = pn := by omega
    have hmap : translation s pid va = ⟨(pn : ℕ),pn*4096+va % 4096,7⟩ := by
      rw [translation, I.lookup hp hl, hw, leafMapping_frame hown.1 (Or.inr rfl), hdiv]
    rw [UserPage, hmap]
    exact ⟨show 7 &&& PTE_U ≠ 0 by decide,rfl⟩

/-- Reference counts are exact in every state of an orderly run. -/
theorem counts_exact (hK : Loadable K) (R : Run K (Orderly K) out) (hpn : pn < NPAGES)
    (hpid : 0 < pid) (howner : (out.state.pageinfo pn).owner = (pid : ℕ)) :
    Counted out.state pid pn := by
  obtain ⟨label,I,P⟩ := run_kept hK R
  exact kept_counted I P hpn hpid howner

/-- The root of a process belongs to the process. -/
theorem root_owner (I : KInv K label s) (hp : Slot pid) (hl : live s pid) :
    (s.processes pid).p_pagetable / 4096 < NPAGES ∧
      (s.pageinfo ((s.processes pid).p_pagetable / 4096)).owner = pid := by
  obtain ⟨hlt,hinfo⟩ := I.paging.owned _ _ (I.root hp hl)
  refine ⟨?_,by rw [hinfo]⟩
  simp only [NPAGES, MEMSIZE_PHYSICAL, PAGESIZE]
  omega

theorem counts_after_boot : ∃ s, kernel sampleKernel (some "fork") powerOn = .ok (.user s) ∧
    Counted s 1 ((s.processes 1).p_pagetable / 4096) := by
  obtain ⟨label,s,hboot,B,-⟩ := sample_boot powerOn
  have hl : live s 1 := B.current ▸ B.inv.current_live
  obtain ⟨hpn,howner⟩ := root_owner B.inv ⟨by decide,by decide⟩ hl
  exact ⟨s,hboot,counts_exact sample_loadable (.boot hboot) hpn (by decide) howner⟩

section Identity

/-- All references, those of the kernel's tables and of its mappings included. -/
def Mentions (K : KernelImage) (s : KState) (a : ℕ) : Reference → Prop
  | .root pid => pid < NPROC ∧ live s pid ∧ (s.processes pid).p_pagetable = a
  | .entry pt i => Target K s 4 pt i a

/-- The kernel's identity map refers to every page once more. -/
theorem mentioned_twice (I : KInv K label s) (hp : Slot pid) (hl : live s pid) :
    {x | Mentions K s (s.processes pid).p_pagetable x}.ncard ≠ 1 := by
  intro hone
  rw [Set.ncard_eq_one] at hone
  obtain ⟨x,hx⟩ := hone
  have hroot := I.root hp hl
  obtain ⟨pt,-,hmap⟩ := identity_target I ⟨I.paging.aligned hroot,(I.paging.owned _ _ hroot).1⟩
  have h1 : Reference.root pid ∈ {x | Mentions K s (s.processes pid).p_pagetable x} :=
    ⟨hp.2,hl,rfl⟩
  have h2 : Reference.entry pt (pageindex (s.processes pid).p_pagetable 3) ∈
      {x | Mentions K s (s.processes pid).p_pagetable x} := hmap
  rw [hx, Set.mem_singleton_iff] at h1 h2
  rw [← h1] at h2
  cases h2

theorem sample_mentioned_twice : ¬∀ out, Run sampleKernel InWindow out → ∀ pn < NPAGES,
    ∀ pid : ℕ, 0 < pid → (out.state.pageinfo pn).owner = (pid : ℕ) →
      (out.state.pageinfo pn).refcount =
        ({x | Mentions sampleKernel out.state (pn*PAGESIZE) x}.ncard : ℕ) := by
  intro h
  obtain ⟨label,s,hboot,B,-⟩ := sample_boot powerOn
  have hp : Slot 1 := ⟨by decide,by decide⟩
  have hl : live s 1 := B.current ▸ B.inv.current_live
  obtain ⟨hpn,howner⟩ := root_owner B.inv hp hl
  have hcount := h _ (.boot hboot) _ hpn 1 (by decide) howner
  obtain ⟨-,hinfo⟩ := B.inv.paging.owned _ _ (B.inv.root hp hl)
  have halign := B.inv.paging.aligned (B.inv.root hp hl)
  have haddr : (s.processes 1).p_pagetable / 4096*PAGESIZE = (s.processes 1).p_pagetable := by
    simp only [PAGESIZE]
    omega
  change (s.pageinfo _).refcount = ((Set.ncard {x | Mentions sampleKernel s _ x} : ℕ) : ℤ) at hcount
  rw [hinfo, haddr] at hcount
  have hone : (({x | Mentions sampleKernel s (s.processes 1).p_pagetable x}.ncard : ℕ) : ℤ) = 1 :=
    hcount.symm
  exact mentioned_twice B.inv hp hl (by exact_mod_cast hone)

end Identity

end WeensyOS.ReferenceCounts
