import WeensyOS.PagingInvariant

/-!
# Walking and extending page tables

What `lookup_l4pagetable` and a one-page `virtual_memory_map` do for a process
whose tables satisfy the paging invariant. The walk takes exactly as many free
pages as tables are missing, or uses up the last ones and reports failure; in
both cases no translation of any address space changes.
-/

set_option autoImplicit false

namespace WeensyOS.TableWalks
open WeensyOS.FlatMemory WeensyOS.KernelState WeensyOS.PageTables WeensyOS.PageAllocator
open WeensyOS.RadixForest WeensyOS.TableWords WeensyOS.FreePages WeensyOS.PagingInvariant

/-- Growth that no address space can see. -/
structure Invisible (K : KernelImage) (roots : ℤ → Option ℕ) (o : ℤ) (label label' : Labels)
    (c : ℕ) (s s' : KState) : Prop where
  grows : Grows o label label' c s s'
  paging : Paging K roots label' s'
  leaf : ∀ o' r va, roots o' = some r → leafWord s'.mem r va = leafWord s.mem r va
  owner : s'.pagetable_owner = s.pagetable_owner

variable {K : KernelImage} {roots : ℤ → Option ℕ} {o : ℤ} {label label' label'' : Labels}
  {c c' : ℕ} {s s' s'' : KState}

theorem Invisible.refl (o : ℤ) (P : Paging K roots label s) :
    Invisible K roots o label label 0 s s :=
  ⟨Grows.refl o label s,P,fun _ _ _ _ => rfl,rfl⟩

theorem Invisible.trans (I : Invisible K roots o label label' c s s')
    (I' : Invisible K roots o label' label'' c' s' s'') :
    Invisible K roots o label label'' (c+c') s s'' :=
  ⟨I.grows.trans I'.grows,I'.paging,
    fun o' r va hr => (I'.leaf o' r va hr).trans (I.leaf o' r va hr),
    I'.owner.trans I.owner⟩

theorem Invisible.cast (I : Invisible K roots o label label' c s s') (h : c = c') :
    Invisible K roots o label label' c' s s' := h ▸ I

theorem mem_kstate (s : KState) : mem s = s.mem := rfl

theorem setMem_kstate (s : KState) (m : Memory) : setMem s m = { s with mem := m } := rfl

theorem kassert_true {p : Prop} [Decidable p] (msg : String) (h : p) :
    kassert p msg = .ok () := if_pos h

/-- An entry that links to a table passes the sanity checks. -/
theorem check_link (perm c : ℕ) (hc : c % 4096 = 0) (hlt : c < 0x200000) :
    lookup_l4pagetable_check perm (c+7) = .ok () := by
  have haddr : PTE_ADDR (c+7) = c := by rw [pte_addr_eq]; omega
  have hw : (c+7) &&& PTE_W ≠ 0 := (writable_iff _).2 (by omega)
  have hu : (c+7) &&& PTE_U ≠ 0 := (user_iff _).2 (by omega)
  have hrange : c < MEMSIZE_PHYSICAL := hlt
  simp only [lookup_l4pagetable_check, haddr, kassert_true _ hrange, kassert_true _ hw,
    kassert_true _ hu, bind, Except.bind]
  split <;> split <;> rfl

section Present

variable {σ : Type} [MachineMemory σ] {t : σ}

theorem entry_present {pt c : ℕ} {va l : ℕ} (perm : ℕ) (alloc : Option (Allocator σ))
    (h : slot (mem t) pt (index va l) = c+7) (hc : c % 4096 = 0) :
    lookup_l4pagetable_entry va perm alloc l pt t = .ok (some (c+7),t) := by
  have hpe : entry (mem t) pt (PAGEINDEX va l) = c+7 := h
  have hp : (c+7) &&& PTE_P ≠ 0 := (present_iff _).2 (by omega)
  simp only [lookup_l4pagetable_entry, hpe, if_pos hp]

/-- Tables that exist are found without calling the allocator. -/
theorem lookup_present (va perm : ℕ) (alloc : Option (Allocator σ))
    (F : Forest scheme roots (slot (mem t)) label)
    (hlt : ∀ n q, label n = some q → n < 0x200000) (levels : List ℕ) {n l4 : ℕ}
    {q : List Index} (hn : label n = some ⟨o,q⟩) (hlen : q.length+levels.length ≤ 3)
    (hw : walk scheme (slot (mem t)) n (levels.map (index va)) = some l4) :
    lookup_l4pagetable_loop va perm alloc levels n t = .ok (l4,t) := by
  induction levels generalizing n q with
  | nil =>
    cases hw
    rfl
  | cons l levels ih =>
    simp only [List.length_cons] at hlen
    simp only [List.map_cons, walk] at hw
    cases hchild : scheme.child (slot (mem t) n (index va l)) with
    | none => simp [hchild] at hw
    | some d =>
      obtain ⟨hlink,hd⟩ := F.step hn (by simp; omega) hchild
      have halign : d % 4096 = 0 := F.valid d _ hd
      have hentry := entry_present perm alloc hlink halign
      have haddr : PTE_ADDR (d+7) = d := by rw [pte_addr_eq]; omega
      have hrest := ih hd (by simp; omega) (by simpa [hchild] using hw)
      simp only [lookup_l4pagetable_loop, hentry, bind, Except.bind,
        check_link perm d halign (hlt d _ hd), haddr, hrest]

end Present

/-- The memory after a fresh table at `f*4096` is cleared, linked from `pt`
and cleared again. -/
def attachMem (m : Memory) (pt i f : ℕ) : Memory :=
  LibC.memset (setEntry (LibC.memset m (f*4096) 0 4096) pt i (f*4096+7)) (f*4096) 0 4096

theorem attach_other (m : Memory) (pt i f p : ℕ) (hi : i < 512) (hpt : pt % 4096 = 0)
    (hp : p % 4096 = 0) (hpf : p ≠ f*4096) (hpp : p ≠ pt) :
    Agree m (attachMem m pt i f) p 4096 := by
  have hf : f*4096 % 4096 = 0 := Nat.mul_mod_left f 4096
  exact ((memset_agree m _ p 0 hf hp hpf).trans
    (setEntry_agree _ pt i _ p hi hpt hp hpp)).trans (memset_agree _ _ p 0 hf hp hpf)

theorem attach_slot (m : Memory) (pt f : ℕ) (i j : Index) (hpt : pt % 4096 = 0)
    (hne : pt ≠ f*4096) (hf : f < 512) :
    slot (attachMem m pt i f) pt j = if j = i then f*4096+7 else slot m pt j := by
  have halign : f*4096 % 4096 = 0 := Nat.mul_mod_left f 4096
  have hclear : slot (attachMem m pt i f) pt j =
      slot (setEntry (LibC.memset m (f*4096) 0 4096) pt i (f*4096+7)) pt j :=
    entry_congr _ _ _ j.isLt (memset_agree _ _ pt 0 halign hpt hne)
  rw [hclear]
  by_cases hij : j = i
  · subst hij
    rw [if_pos rfl]
    exact entry_setEntry _ _ _ _ (by omega)
  · rw [if_neg hij]
    have hval : j.val ≠ i.val := fun h => hij (Fin.ext h)
    refine (entry_setEntry_other _ pt i _ pt j hpt hpt i.isLt j.isLt (Or.inr hval)).trans ?_
    exact entry_congr _ _ _ j.isLt (memset_agree _ _ pt 0 halign hpt hne)

/-- A fresh table below the table `pt` of the owner is invisible. -/
theorem attach_invisible (P : Paging K roots label s) (ho : ProcOwner o)
    {pt f : ℕ} {q : List Index} {i : Index} {po : ℤ} (hpt : label pt = some ⟨o,q⟩)
    (hq : q.length < 3) (he : slot s.mem pt i = 0) (hf : f ∈ freePages s)
    (hpo : s.pagetable_owner = po) :
    Invisible K roots o label (Function.update label (f*4096) (some ⟨o,q++[i]⟩)) 1 s
      (takePage s f o (attachMem s.mem pt i f) po) := by
  have hflt := ((mem_freePages s f).1 hf).1
  have hnone := P.label_free hf
  have halign : f*4096 % 4096 = 0 := Nat.mul_mod_left f 4096
  have hne : ∀ n q, label n = some q → n ≠ f*4096 := by
    rintro n q h rfl
    rw [hnone] at h
    cases h
  have hptf := hne pt _ hpt
  have hother : ∀ n q j, label n = some q → (n ≠ pt ∨ j ≠ i) →
      slot (attachMem s.mem pt i f) n j = slot s.mem n j := by
    intro n q' j hn hnj
    by_cases hnp : n = pt
    · subst hnp
      have hji : j ≠ i := hnj.resolve_left fun h => h rfl
      rw [attach_slot _ _ _ _ _ (P.aligned hn) hptf hflt, if_neg hji]
    · exact entry_congr _ _ _ j.isLt
        (attach_other _ _ _ _ _ i.isLt (P.aligned hpt) (P.aligned hn) (hne n _ hn) hnp)
  have A : Attached scheme label (slot s.mem) (slot (attachMem s.mem pt i f)) pt i (f*4096) :=
    { linked := by rw [attach_slot _ _ _ _ _ (P.aligned hpt) hptf hflt, if_pos rfl, scheme_link]
      blank := fun j => entry_memset _ _ _ j.isLt
      others := hother }
  have G : Grows o label (Function.update label (f*4096) (some ⟨o,q++[i]⟩)) 1 s
      (takePage s f o (attachMem s.mem pt i f) po) := by
    refine Grows.alloc hf hnone (fun n hn => Function.update_of_ne hn ..) ?_ ?_ ?_
    · intro x hx
      simp only [Function.update_self, Option.some.injEq] at hx
      rw [← hx]
    · intro pn hpn hown
      refine attach_other _ _ _ _ _ i.isLt (P.aligned hpt) (Nat.mul_mod_left pn 4096)
        (by omega) ?_
      rintro rfl
      exact hown _ hpt rfl
    · intro n q' j hn _ hnz
      refine hother n q' j hn ?_
      by_contra hsame
      simp only [not_or, not_not] at hsame
      rw [hsame.1, hsame.2] at hnz
      exact hnz he
  have F := P.forest.attach hpt hq hnone halign A he
  have hleaf : ∀ o' r va, roots o' = some r →
      leafWord (attachMem s.mem pt i f) r va = leafWord s.mem r va := fun o' r va hr =>
    P.forest.attach_leaf hpt hq halign A he (P.forest.root o' r hr) (by simp)
  have hpaging := P.grow G ho (by simpa only [takePage_mem] using F)
    fun r va hr => Or.inl (by simpa only [takePage_mem] using hleaf o r va hr)
  exact ⟨G,hpaging,by simpa only [takePage_mem] using hleaf,by rw [takePage_owner, hpo]⟩

theorem taken_table (s : KState) (f : ℕ) (o : ℤ) (m : Memory) (po : ℤ) (label : Labels)
    (q : Place ℤ Index) :
    OnlyTables (Function.update label (f*4096) (some q)) s (takePage s f o m po) := by
  intro pn
  by_cases hpn : pn = f
  · exact Or.inr ⟨q,by rw [hpn, Function.update_self]⟩
  · exact Or.inl (by rw [takePage_pageinfo, Function.update_of_ne hpn])

/-- One missing level, with memory left. -/
theorem entry_alloc (hz : 0 ∉ freePages s) {pt va l perm : ℕ}
    (he : slot s.mem pt (index va l) = 0) (hperm : perm &&& PTE_P ≠ 0)
    (hfree : freePages s ≠ ∅) :
    ∃ f ∈ freePages s, f ≠ 0 ∧
      lookup_l4pagetable_entry va perm (some pagetable_alloc) l pt s =
        .ok (some (f*4096+7),takePage s f s.pagetable_owner
          (attachMem s.mem pt (index va l) f) s.pagetable_owner) := by
  obtain ⟨f,hf,hne,halloc⟩ := pagetable_alloc_some s hfree hz
  have halign : f*4096 % 4096 = 0 := Nat.mul_mod_left f 4096
  have hnull : f*4096 ≠ NULL := by
    simp only [NULL]
    omega
  have hpe : entry s.mem pt (PAGEINDEX va l) = 0 := he
  have hmod : f*4096 % PAGESIZE = 0 := halign
  refine ⟨f,hf,hne,?_⟩
  simp only [lookup_l4pagetable_entry, mem_kstate, setMem_kstate, hpe, Nat.zero_and, ne_eq,
    not_true_eq_false, if_false, if_neg hperm, halloc, if_neg hnull, kassert_true _ hmod, bind,
    Except.bind, link_word _ halign, attachMem, takePage, index_val, setPageinfo_owner]

theorem entry_exhausted {pt va l perm : ℕ} (he : slot s.mem pt (index va l) = 0)
    (hperm : perm &&& PTE_P ≠ 0) (hfree : freePages s = ∅) :
    lookup_l4pagetable_entry va perm (some pagetable_alloc) l pt s = .ok (none,s) := by
  have hpe : entry s.mem pt (PAGEINDEX va l) = 0 := he
  simp only [lookup_l4pagetable_entry, mem_kstate, hpe, Nat.zero_and, ne_eq, not_true_eq_false,
    if_false, if_neg hperm, pagetable_alloc_none s hfree, if_true]

/-- The walk below a table of the owner: it succeeds when the free pages cover
the missing tables, and otherwise takes them all and reports `NULL`. -/
theorem lookup_loop_spec (ho : ProcOwner o) {va perm : ℕ} (hperm : perm &&& PTE_P ≠ 0)
    (levels : List ℕ) {s : KState} {label : Labels} (P : Paging K roots label s)
    (hpo : s.pagetable_owner = o) {pt : ℕ} {q : List Index} (hpt : label pt = some ⟨o,q⟩)
    (hlen : q.length+levels.length ≤ 3) :
    let p := levels.map (index va)
    let need := missing scheme (slot s.mem) pt p
    (need ≤ freeCount s → ∃ label' s' l4,
      lookup_l4pagetable_loop va perm (some pagetable_alloc) levels pt s = .ok (l4,s') ∧
      Invisible K roots o label label' need s s' ∧ OnlyTables label' s s' ∧
      walk scheme (slot s'.mem) pt p = some l4) ∧
    (freeCount s < need → ∃ label' s',
      lookup_l4pagetable_loop va perm (some pagetable_alloc) levels pt s = .ok (NULL,s') ∧
      Invisible K roots o label label' (freeCount s) s s') := by
  induction levels generalizing s label pt q with
  | nil =>
    refine ⟨fun _ => ⟨label,s,pt,rfl,Invisible.refl o P,fun _ => Or.inl rfl,rfl⟩,fun h => ?_⟩
    simp [missing] at h
  | cons l levels ih =>
    simp only [List.length_cons] at hlen
    rcases P.forest.child pt o q (index va l) hpt (by simp; omega) with he | ⟨d,hd,hl⟩
    · -- the table of this level is missing
      simp only [scheme_empty] at he
      have hchild : scheme.child (slot s.mem pt (index va l)) = none := by
        rw [he]
        exact scheme.child_empty
      have hneed : missing scheme (slot s.mem) pt ((l::levels).map (index va)) =
          levels.length+1 := by simp [missing, hchild]
      simp only [hneed]
      by_cases hfree : freePages s = ∅
      · have hcount : freeCount s = 0 := (freeCount_eq_zero s).2 hfree
        refine ⟨fun h => by omega,fun _ => ⟨label,s,?_,?_⟩⟩
        · simp only [lookup_l4pagetable_loop, entry_exhausted he hperm hfree, bind, Except.bind]
        · rw [hcount]
          exact Invisible.refl o P
      · obtain ⟨f,hf,hne,hentry⟩ := entry_alloc P.zero_used he hperm hfree
        rw [hpo] at hentry
        have hflt := ((mem_freePages s f).1 hf).1
        have halign : f*4096 % 4096 = 0 := Nat.mul_mod_left f 4096
        have haddr : PTE_ADDR (f*4096+7) = f*4096 := by rw [pte_addr_eq]; omega
        have I := attach_invisible P ho hpt (by omega) he hf hpo
        obtain ⟨hgood,hbad⟩ := ih (q := q++[index va l]) I.paging (takePage_owner ..)
          (Function.update_self ..) (by simp; omega)
        have hblank : missing scheme (slot (attachMem s.mem pt (index va l) f)) (f*4096)
            (levels.map (index va)) = levels.length := by
          rw [missing_blank _ _ (fun j => entry_memset _ _ _ j.isLt), List.length_map]
        simp only [takePage_mem, hblank] at hgood hbad
        have hcount := I.grows.count
        have hcheck := check_link perm (f*4096) halign (by omega)
        have hlink : scheme.child (slot (attachMem s.mem pt (index va l) f) pt (index va l)) =
            some (f*4096) := by
          rw [attach_slot _ _ _ _ _ (P.aligned hpt) (by
            rintro rfl
            rw [P.label_free hf] at hpt
            cases hpt) hflt, if_pos rfl]
          exact scheme.child_link _ halign
        have hslot : slot (attachMem s.mem pt (index va l) f) pt (index va l) ≠ 0 := by
          intro hz
          rw [hz] at hlink
          cases hlink
        refine ⟨fun h => ?_,fun h => ?_⟩
        · obtain ⟨label',s',l4,hrun,I',T',hw⟩ := hgood (by omega)
          refine ⟨label',s',l4,?_,?_,(taken_table _ _ _ _ _ _ _).trans I'.grows T',?_⟩
          · simp only [lookup_l4pagetable_loop, hentry, bind, Except.bind, hcheck, haddr, hrun]
          · exact (I.trans I').cast (add_comm _ _)
          · have hpt' := I.grows.mono _ _ hpt
            have hkeep := I'.grows.links pt _ (index va l) hpt' (by simp; omega)
              (by rw [takePage_mem]; exact hslot)
            rw [takePage_mem] at hkeep
            simp only [List.map_cons, walk, hkeep, hlink, Option.bind_some, hw]
        · obtain ⟨label',s',hrun,I'⟩ := hbad (by omega)
          refine ⟨label',s',?_,?_⟩
          · simp only [lookup_l4pagetable_loop, hentry, bind, Except.bind, hcheck, haddr, hrun]
          · exact (I.trans I').cast ((add_comm _ _).trans hcount)
    · have hvalid : d % 4096 = 0 := P.forest.valid d _ hl
      have hentry := entry_present perm (some pagetable_alloc) hd hvalid
      have haddr : PTE_ADDR (d+7) = d := by rw [pte_addr_eq]; omega
      have hchild : scheme.child (slot s.mem pt (index va l)) = some d := by
        rw [hd]
        exact scheme.child_link d hvalid
      have hcheck := check_link perm d hvalid (P.owned d _ hl).1
      obtain ⟨hgood,hbad⟩ := ih P hpo hl (by simp; omega)
      have hneed : missing scheme (slot s.mem) pt ((l::levels).map (index va)) =
          missing scheme (slot s.mem) d (levels.map (index va)) := by simp [missing, hchild]
      simp only [hneed]
      refine ⟨fun h => ?_,fun h => ?_⟩
      · obtain ⟨label',s',l4,hrun,I,T,hw⟩ := hgood h
        refine ⟨label',s',l4,?_,I,T,?_⟩
        · simp only [lookup_l4pagetable_loop, hentry, bind, Except.bind, hcheck, haddr, hrun]
        · have hslot : slot s.mem pt (index va l) ≠ 0 := by
            rw [hd]
            simp
          have hkeep := I.grows.links pt _ (index va l) hpt (by simp; omega) hslot
          simp only [List.map_cons, walk, hkeep, hchild, Option.bind_some, hw]
      · obtain ⟨label',s',hrun,I⟩ := hbad h
        refine ⟨label',s',?_,I⟩
        simp only [lookup_l4pagetable_loop, hentry, bind, Except.bind, hcheck, haddr, hrun]

end WeensyOS.TableWalks
