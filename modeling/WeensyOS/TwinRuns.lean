import WeensyOS.PairedRuns
import WeensyOS.TreeTables

/-!
# Two machines with the same tables

Two states whose memories differ anywhere but on the pages that one of their
runs has written. The tables in use lie on such pages, so both runs read the
same entries, take the same free pages and write the same bytes.
-/

set_option autoImplicit false

namespace WeensyOS.TwinRuns
open WeensyOS.FlatMemory WeensyOS.KernelState WeensyOS.PageTables WeensyOS.PageAllocator
open WeensyOS.CheckedRuns WeensyOS.PairedRuns WeensyOS.TableWords WeensyOS.FreePages
open WeensyOS.PagingInvariant WeensyOS.TableWalks WeensyOS.TreeTables

/-- The memories `m₁` and `m₂` have become those of `s` and `t`: the same bytes were written at
`W`, and `T d a` says that `a` is a table of level `d`. -/
structure Twin (m₁ m₂ : Memory) (T : ℕ → ℕ → Prop) (W : ℕ → Prop) (s t : KState) : Prop where
  frame : ∀ d a, T d a → a % 4096 = 0 ∧ a < 0x200000
  inside : ∀ d a k, T d a → k < 4096 → W (a+k)
  closed : ∀ d a i, T d a → d < 3 → slot s.mem a i &&& PTE_P ≠ 0 →
    T (d+1) (PTE_ADDR (slot s.mem a i))
  level : ∀ d d' a, T d a → T d' a → d = d'
  written : ∀ x, W x → t.mem x = s.mem x
  kept : ∀ x, ¬W x → s.mem x = m₁ x ∧ t.mem x = m₂ x

/-- The two kernels keep the same books, and what was written lies on pages in use. -/
structure Books (W : ℕ → Prop) (s t : KState) : Prop where
  info : ∀ pn < 512, t.pageinfo pn = s.pageinfo pn
  procs : ∀ pid < NPROC, t.processes pid = s.processes pid
  used : ∀ x, W x → x / 4096 ∉ freePages s

/-- With the same owner for new tables. -/
def Booked (W : ℕ → Prop) (s t : KState) : Prop :=
  Books W s t ∧ t.pagetable_owner = s.pagetable_owner

variable {m₁ m₂ : Memory} {T T' : ℕ → ℕ → Prop} {W W' : ℕ → Prop} {s t s' t' : KState}
  {d a c r va pa perm : ℕ} {Q : (ℕ → ℕ → Prop) → Prop}

/-- A later pair of states. Where `N` holds no page was taken. -/
structure Later (m₁ m₂ : Memory) (N : Prop) (T : ℕ → ℕ → Prop) (W : ℕ → Prop) (s t : KState)
    (T' : ℕ → ℕ → Prop) (W' : ℕ → Prop) (s' t' : KState) : Prop where
  tables : ∀ d a, T d a → T' d a
  bytes : ∀ x, W x → W' x
  twin : Twin m₁ m₂ T' W' s' t'
  books : Booked W s t → Booked W' s' t'
  processes : s'.processes = s.processes
  same : N → T' = T ∧ W' = W

def Onward (m₁ m₂ : Memory) (N : Prop) (T : ℕ → ℕ → Prop) (W : ℕ → Prop) (s t : KState)
    (Q : (ℕ → ℕ → Prop) → Prop) (s' t' : KState) : Prop :=
  ∃ T' W', Later m₁ m₂ N T W s t T' W' s' t' ∧ Q T'

variable {N : Prop}

theorem Later.refl (B : Twin m₁ m₂ T W s t) : Later m₁ m₂ N T W s t T W s t :=
  ⟨fun _ _ h => h,fun _ h => h,B,id,rfl,fun _ => ⟨rfl,rfl⟩⟩

theorem Later.trans {T'' : ℕ → ℕ → Prop} {W'' : ℕ → Prop} {s'' t'' : KState}
    (A : Later m₁ m₂ N T W s t T' W' s' t') (B : Later m₁ m₂ N T' W' s' t' T'' W'' s'' t'') :
    Later m₁ m₂ N T W s t T'' W'' s'' t'' where
  tables d a h := B.tables d a (A.tables d a h)
  bytes x h := B.bytes x (A.bytes x h)
  twin := B.twin
  books h := B.books (A.books h)
  processes := B.processes.trans A.processes
  same h := ⟨(B.same h).1.trans (A.same h).1,(B.same h).2.trans (A.same h).2⟩

theorem Onward.refl (B : Twin m₁ m₂ T W s t) (hQ : Q T) : Onward m₁ m₂ N T W s t Q s t :=
  ⟨T,W,Later.refl B,hQ⟩

theorem Onward.after {s'' t'' : KState} (A : Later m₁ m₂ N T W s t T' W' s' t')
    (h : Onward m₁ m₂ N T' W' s' t' Q s'' t'') : Onward m₁ m₂ N T W s t Q s'' t'' := by
  obtain ⟨T'',W'',B,hQ⟩ := h
  exact ⟨T'',W'',A.trans B,hQ⟩

section Reading

theorem slot_same (B : Twin m₁ m₂ T W s t) (ha : T d a) (i : Index) :
    slot t.mem a i = slot s.mem a i :=
  entry_congr _ _ _ i.isLt fun k hk => B.written _ (B.inside d a k ha hk)

/-- A lookup reads tables only. -/
theorem lookup_loop_same (B : Twin m₁ m₂ T W s t) (va : ℕ) (levels : List ℕ) {d pt : ℕ}
    (hlevels : levels = [0,1,2,3].drop d) (hT : T d pt) (pe perms : ℕ) :
    virtual_memory_lookup_loop t.mem va levels pt pe perms =
      virtual_memory_lookup_loop s.mem va levels pt pe perms := by
  induction levels generalizing d pt pe perms with
  | nil => rfl
  | cons l levels ih =>
    have hd : d < 4 := by
      by_contra h
      rw [List.drop_eq_nil_of_le (by simp; omega)] at hlevels
      cases hlevels
    by_cases hperms : perms &&& PTE_P ≠ 0
    · rw [loop_step hperms, loop_step hperms, slot_same B hT]
      by_cases hpres : slot s.mem pt (index va l) &&& PTE_P ≠ 0
      · by_cases hd3 : d < 3
        · refine ih ?_ (B.closed d pt _ hT hd3 hpres) _ _
          have hdrop := congrArg List.tail hlevels
          rwa [List.tail_cons, List.tail_drop] at hdrop
        · have hd3 : d = 3 := by omega
          subst hd3
          have hnil : levels = [] := (List.cons.inj hlevels).2
          rw [hnil]
          rfl
      · have hstop := mt (flags_present _ _ hperms).1 hpres
        rw [loop_stop hstop, loop_stop hstop]
    · rw [loop_stop hperms, loop_stop hperms]

theorem lookup_same (B : Twin m₁ m₂ T W s t) (hT : T 0 r) (va : ℕ) :
    virtual_memory_lookup t.mem r va = virtual_memory_lookup s.mem r va := by
  rw [virtual_memory_lookup, virtual_memory_lookup, lookup_loop_same B va [0,1,2,3] rfl hT]

end Reading

section Writing

theorem setEntry_at (m m' : Memory) (a i v x : ℕ) (h : m' x = m x) :
    setEntry m' a i v x = setEntry m a i v x := by
  simp only [setEntry, store64, storeLE, h]

theorem setEntry_outside (m : Memory) (a i v x : ℕ) (hi : i < 512) (h : x < a ∨ a+4096 ≤ x) :
    setEntry m a i v x = m x := by
  simp only [setEntry, store64, storeLE]
  exact if_neg (by omega)

theorem fill_inside (m : Memory) (a x : ℕ) (h : a ≤ x ∧ x < a+4096) :
    LibC.memset m a 0 4096 x = 0 := by
  rw [LibC.memset_fill]
  exact if_pos h

theorem fill_outside (m : Memory) (a x : ℕ) (h : ¬(a ≤ x ∧ x < a+4096)) :
    LibC.memset m a 0 4096 x = m x := by
  rw [LibC.memset_fill]
  exact if_neg h

/-- An entry of a lowest table. -/
theorem Twin.leaf (B : Twin m₁ m₂ T W s t) (ha : T 3 a) (i : Index) (v : ℕ) :
    Twin m₁ m₂ T W (setMem s (setEntry s.mem a i v)) (setMem t (setEntry t.mem a i v)) := by
  have hW : ∀ x, ¬W x → x < a ∨ a+4096 ≤ x := fun x hx => by
    by_contra h
    have hin := B.inside 3 a (x-a) ha (by omega)
    rw [Nat.add_sub_cancel' (by omega)] at hin
    exact hx hin
  refine ⟨B.frame,B.inside,fun d b j hb hd hp => ?_,B.level,fun x hx => ?_,fun x hx => ?_⟩
  · have hne : b ≠ a := by
      rintro rfl
      have := B.level d 3 b hb ha
      omega
    have hkeep : slot (setEntry s.mem a i v) b j = slot s.mem b j :=
      entry_setEntry_other s.mem a i v b j (B.frame 3 a ha).1 (B.frame d b hb).1 i.isLt j.isLt
        (Or.inl hne)
    rw [setMem_kstate, hkeep] at hp ⊢
    exact B.closed d b j hb hd hp
  · exact setEntry_at _ _ a i v x (B.written x hx)
  · obtain ⟨h₁,h₂⟩ := B.kept x hx
    rw [setMem_kstate, setMem_kstate]
    exact ⟨(setEntry_outside _ a i v x i.isLt (hW x hx)).trans h₁,
      (setEntry_outside _ a i v x i.isLt (hW x hx)).trans h₂⟩

/-- A page that is not a table is cleared. -/
theorem Twin.clear (B : Twin m₁ m₂ T W s t) (hc : c % 4096 = 0) (hnew : ∀ d, ¬T d c) :
    Twin m₁ m₂ T (fun x => W x ∨ (c ≤ x ∧ x < c+4096)) (setMem s (LibC.memset s.mem c 0 4096))
      (setMem t (LibC.memset t.mem c 0 4096)) := by
  refine ⟨B.frame,fun d b k hb hk => Or.inl (B.inside d b k hb hk),fun d b j hb hd hp => ?_,B.level,
    fun x hx => ?_,fun x hx => ?_⟩
  · have hne : b ≠ c := fun h => hnew d (h ▸ hb)
    have hkeep : slot (LibC.memset s.mem c 0 4096) b j = slot s.mem b j :=
      entry_congr _ _ _ j.isLt (memset_agree s.mem c b 0 hc (B.frame d b hb).1 hne)
    rw [setMem_kstate, hkeep] at hp ⊢
    exact B.closed d b j hb hd hp
  · rw [setMem_kstate, setMem_kstate]
    by_cases hin : c ≤ x ∧ x < c+4096
    · exact (fill_inside _ c x hin).trans (fill_inside _ c x hin).symm
    · exact (fill_outside _ c x hin).trans
        ((B.written x (hx.resolve_right hin)).trans (fill_outside _ c x hin).symm)
  · obtain ⟨hw,hin⟩ := not_or.1 hx
    obtain ⟨h₁,h₂⟩ := B.kept x hw
    rw [setMem_kstate, setMem_kstate]
    exact ⟨(fill_outside _ c x hin).trans h₁,(fill_outside _ c x hin).trans h₂⟩

/-- The new table `c` of level `d`. -/
abbrev withTable (T : ℕ → ℕ → Prop) (d c : ℕ) : ℕ → ℕ → Prop :=
  fun d' a => T d' a ∨ (d' = d ∧ a = c)

/-- A blank page becomes a root. -/
theorem Twin.root (B : Twin m₁ m₂ T W s t) (hc : c % 4096 = 0 ∧ c < 0x200000)
    (hnew : ∀ d, ¬T d c) (hin : ∀ k < 4096, W (c+k)) (hblank : ∀ j, slot s.mem c j = 0) (d : ℕ) :
    Twin m₁ m₂ (withTable T d c) W s t := by
  refine ⟨fun d' a ha => ?_,fun d' a k ha hk => ?_,fun d' a i ha hd hp => ?_,
    fun d' d'' a ha ha' => ?_,B.written,B.kept⟩
  · rcases ha with ha | ⟨-,rfl⟩
    · exact B.frame d' a ha
    · exact hc
  · rcases ha with ha | ⟨-,rfl⟩
    · exact B.inside d' a k ha hk
    · exact hin k hk
  · rcases ha with ha | ⟨-,rfl⟩
    · exact Or.inl (B.closed d' a i ha hd hp)
    · rw [hblank] at hp
      exact absurd rfl hp
  · rcases ha with ha | ⟨rfl,rfl⟩
    · rcases ha' with ha' | ⟨-,rfl⟩
      · exact B.level d' d'' a ha ha'
      · exact absurd ha (hnew d')
    · rcases ha' with ha' | ⟨rfl,-⟩
      · exact absurd ha' (hnew d'')
      · rfl

/-- The link to a new table, and the table once more cleared. -/
theorem Twin.link (B : Twin m₁ m₂ T W s t) (ha : T d a) (hc : c % 4096 = 0 ∧ c < 0x200000)
    (hnew : ∀ d, ¬T d c) (hin : ∀ k < 4096, W (c+k)) (i : Index) :
    Twin m₁ m₂ (withTable T (d+1) c) W
      (setMem s (LibC.memset (setEntry s.mem a i (c+7)) c 0 4096))
      (setMem t (LibC.memset (setEntry t.mem a i (c+7)) c 0 4096)) := by
  have hac : a ≠ c := fun h => hnew d (h ▸ ha)
  have hWa : ∀ x, ¬W x → x < a ∨ a+4096 ≤ x := fun x hx => by
    by_contra h
    have hin := B.inside d a (x-a) ha (by omega)
    rw [Nat.add_sub_cancel' (by omega)] at hin
    exact hx hin
  have hWc : ∀ x, ¬W x → ¬(c ≤ x ∧ x < c+4096) := fun x hx h => by
    have hin := hin (x-c) (by omega)
    rw [Nat.add_sub_cancel' h.1] at hin
    exact hx hin
  have hold : ∀ d' b j, T d' b → (b ≠ a ∨ j ≠ i) →
      slot (LibC.memset (setEntry s.mem a i (c+7)) c 0 4096) b j = slot s.mem b j := by
    intro d' b j hb hne
    have hbc : b ≠ c := fun h => hnew d' (h ▸ hb)
    have hclear := entry_congr _ b j j.isLt
      (memset_agree (setEntry s.mem a i (c+7)) c b 0 hc.1 (B.frame d' b hb).1 hbc)
    refine hclear.trans (entry_setEntry_other s.mem a i (c+7) b j (B.frame d a ha).1
      (B.frame d' b hb).1 i.isLt j.isLt ?_)
    exact hne.imp id fun h hval => h (Fin.ext hval)
  have hlink : slot (LibC.memset (setEntry s.mem a i (c+7)) c 0 4096) a i = c+7 := by
    have hclear := entry_congr _ a i i.isLt
      (memset_agree (setEntry s.mem a i (c+7)) c a 0 hc.1 (B.frame d a ha).1 hac)
    exact hclear.trans (entry_setEntry s.mem a i (c+7) (by omega))
  have hblank : ∀ j, slot (LibC.memset (setEntry s.mem a i (c+7)) c 0 4096) c j = 0 :=
    fun j => entry_memset _ _ _ j.isLt
  have haddr : PTE_ADDR (c+7) = c := by
    rw [pte_addr_eq]
    omega
  have R := B.root hc hnew hin
  refine ⟨fun d' b hb => ?_,fun d' b k hb hk => ?_,fun d' b j hb hd hp => ?_,
    fun d' d'' b hb hb' => ?_,fun x hx => ?_,fun x hx => ?_⟩
  · rcases hb with hb | ⟨-,rfl⟩
    · exact B.frame d' b hb
    · exact hc
  · rcases hb with hb | ⟨-,rfl⟩
    · exact B.inside d' b k hb hk
    · exact hin k hk
  · rw [setMem_kstate] at hp ⊢
    rcases hb with hb | ⟨-,rfl⟩
    · by_cases hone : b = a ∧ j = i
      · obtain ⟨rfl,rfl⟩ := hone
        rw [hlink, haddr]
        exact Or.inr ⟨by rw [B.level d' d b hb ha],rfl⟩
      · have hne : b ≠ a ∨ j ≠ i := by
          by_contra hboth
          rw [not_or, not_not, not_not] at hboth
          exact hone hboth
        rw [hold d' b j hb hne] at hp ⊢
        exact Or.inl (B.closed d' b j hb hd hp)
    · rw [hblank] at hp
      exact absurd rfl hp
  · rcases hb with hb | ⟨rfl,rfl⟩
    · rcases hb' with hb' | ⟨-,rfl⟩
      · exact B.level d' d'' b hb hb'
      · exact absurd hb (hnew d')
    · rcases hb' with hb' | ⟨rfl,-⟩
      · exact absurd hb' (hnew d'')
      · rfl
  · rw [setMem_kstate, setMem_kstate]
    by_cases hcx : c ≤ x ∧ x < c+4096
    · exact (fill_inside _ c x hcx).trans (fill_inside _ c x hcx).symm
    · refine (fill_outside _ c x hcx).trans (Eq.trans ?_ (fill_outside _ c x hcx).symm)
      exact setEntry_at _ _ a i (c+7) x (B.written x hx)
  · obtain ⟨h₁,h₂⟩ := B.kept x hx
    rw [setMem_kstate, setMem_kstate]
    refine ⟨(fill_outside _ c x (hWc x hx)).trans ?_,(fill_outside _ c x (hWc x hx)).trans ?_⟩
    · exact (setEntry_outside _ a i (c+7) x i.isLt (hWa x hx)).trans h₁
    · exact (setEntry_outside _ a i (c+7) x i.isLt (hWa x hx)).trans h₂

end Writing

section Allocation

theorem Books.free (B : Books W s t) : freePages t = freePages s := by
  ext pn
  rw [mem_freePages, mem_freePages]
  exact and_congr_right fun hpn => by rw [B.info pn hpn]

/-- Both allocators take the same page. -/
theorem get_free_addr_both (B : Books W s t) (o : ℤ) :
    (get_free_addr o s = (OUTOFMEMORY,s) ∧ get_free_addr o t = (OUTOFMEMORY,t)) ∨
    ∃ f ∈ freePages s, get_free_addr o s = (f*4096,s.setPageinfo f ⟨o,1⟩) ∧
      get_free_addr o t = (f*4096,t.setPageinfo f ⟨o,1⟩) := by
  by_cases hfree : freePages s = ∅
  · exact Or.inl ⟨get_free_addr_none o s hfree,get_free_addr_none o t (B.free.trans hfree)⟩
  · obtain ⟨f,hf,hleast,hs⟩ := get_free_addr_some o s hfree
    obtain ⟨g,hg,hleast',ht⟩ := get_free_addr_some o t (fun h => hfree (B.free.symm.trans h))
    rw [B.free] at hg hleast'
    have hfg : g = f := le_antisymm (hleast' f hf) (hleast g hg)
    rw [hfg] at ht
    exact Or.inr ⟨f,hf,hs,ht⟩

theorem Books.take (B : Books W s t) {f : ℕ} (o : ℤ) (hW : ∀ x, W' x → W x ∨ x / 4096 = f) :
    Books W' (s.setPageinfo f ⟨o,1⟩) (t.setPageinfo f ⟨o,1⟩) where
  info pn hpn := by
    rw [setPageinfo_pageinfo, setPageinfo_pageinfo]
    by_cases h : pn = f
    · rw [h, Function.update_self, Function.update_self]
    · rw [Function.update_of_ne h, Function.update_of_ne h, B.info pn hpn]
  procs := B.procs
  used x hx := by
    rw [freePages_setPageinfo s f ⟨o,1⟩ (info_ne_free o), Finset.mem_erase]
    rintro ⟨hne,hfree⟩
    rcases hW x hx with h | h
    · exact B.used x h hfree
    · exact hne h

theorem Books.setMem (B : Books W s t) (m n : Memory) :
    Books W (setMem s m) (setMem t n) := ⟨B.info,B.procs,B.used⟩

/-- A table is no free page. -/
theorem table_taken (B : Twin m₁ m₂ T W s t) (K : Books W s t) {f : ℕ} (hf : f ∈ freePages s) :
    ∀ d, ¬T d (f*4096) := by
  intro d h
  have hW := B.inside d _ 0 h (by decide)
  refine K.used _ hW ?_
  rw [Nat.add_zero, Nat.mul_div_cancel _ (by decide)]
  exact hf

/-- What a new table page is like. -/
structure Blank (T : ℕ → ℕ → Prop) (W : ℕ → Prop) (c : ℕ) (s : KState) : Prop where
  frame : c % 4096 = 0 ∧ c < 0x200000
  fresh : ∀ d, ¬T d c
  inside : ∀ k < 4096, W (c+k)
  empty : ∀ j, slot s.mem c j = 0

theorem pagetable_alloc_both (B : Twin m₁ m₂ T W s t) (K : Booked W s t) :
    ∃ c s' t' W', pagetable_alloc s = (c,s') ∧ pagetable_alloc t = (c,t') ∧
      Later m₁ m₂ False T W s t T W' s' t' ∧ (c ≠ NULL → Blank T W' c s') := by
  obtain ⟨K,ho⟩ := K
  rcases get_free_addr_both K s.pagetable_owner with ⟨hs,ht⟩ | ⟨f,hf,hs,ht⟩
  · refine ⟨NULL,s,t,W,?_,?_,Later.refl B,fun h => absurd rfl h⟩
    · rw [pagetable_alloc, hs]
      rfl
    · rw [pagetable_alloc, ho, ht]
      rfl
  · have hlt := ((mem_freePages s f).1 hf).1
    have hc : f*4096 % 4096 = 0 ∧ f*4096 < 0x200000 := ⟨Nat.mul_mod_left _ _,by omega⟩
    have B₁ : Twin m₁ m₂ T W (s.setPageinfo f ⟨s.pagetable_owner,1⟩)
        (t.setPageinfo f ⟨s.pagetable_owner,1⟩) :=
      ⟨B.frame,B.inside,B.closed,B.level,B.written,B.kept⟩
    by_cases hnull : f*4096 = NULL
    · refine ⟨NULL,_,_,W,?_,?_,⟨fun _ _ h => h,fun _ h => h,B₁,
        fun _ => ⟨K.take _ fun x h => Or.inl h,ho⟩,rfl,False.elim⟩,fun h => absurd rfl h⟩
      · rw [pagetable_alloc, hs]
        simp only [if_pos hnull]
      · rw [pagetable_alloc, ho, ht]
        simp only [if_pos hnull]
    · have hfresh := table_taken B K hf
      have hW : ∀ x, W x ∨ (f*4096 ≤ x ∧ x < f*4096+4096) → W x ∨ x / 4096 = f := by
        intro x hx
        rcases hx with hx | hx
        · exact Or.inl hx
        · exact Or.inr (by omega)
      refine ⟨f*4096,_,_,_,?_,?_,⟨fun _ _ h => h,fun _ h => Or.inl h,B₁.clear hc.1 hfresh,
        fun _ => ⟨(K.take s.pagetable_owner hW).setMem _ _,ho⟩,rfl,False.elim⟩,
        fun _ => ⟨hc,hfresh,fun k hk => Or.inr (by omega),fun j => ?_⟩⟩
      · rw [pagetable_alloc, hs]
        simp only [if_neg hnull]
        rfl
      · rw [pagetable_alloc, ho, ht]
        simp only [if_neg hnull]
        rfl
      · exact entry_memset _ _ _ j.isLt

end Allocation

section Mapping

variable {allocator : Option (Allocator KState)}

/-- New tables come from `pagetable_alloc`, with the books in order. -/
def Stocked (allocator : Option (Allocator KState)) (W : ℕ → Prop) (s t : KState) : Prop :=
  ∀ alloc, allocator = some alloc → alloc = pagetable_alloc ∧ Booked W s t

theorem Stocked.later (H : Stocked allocator W s t)
    (h : Later m₁ m₂ N T W s t T' W' s' t') : Stocked allocator W' s' t' :=
  fun alloc hall => ⟨(H alloc hall).1,h.books (H alloc hall).2⟩

theorem entry_both (B : Twin m₁ m₂ T W s t) (H : Stocked allocator W s t) (ha : T d a)
    (hd : d < 3) :
    Both (fun x y => x.1 = y.1 ∧ Onward m₁ m₂ (allocator = none) T W s t
        (fun T' => ∀ pe, x.1 = some pe → T' (d+1) (PTE_ADDR pe)) x.2 y.2)
      (lookup_l4pagetable_entry va perm allocator d a s)
      (lookup_l4pagetable_entry va perm allocator d a t) := by
  have hsame : entry t.mem a (PAGEINDEX va d) = entry s.mem a (PAGEINDEX va d) :=
    slot_same B ha (index va d)
  have hclosed : entry s.mem a (PAGEINDEX va d) &&& PTE_P ≠ 0 →
      T (d+1) (PTE_ADDR (entry s.mem a (PAGEINDEX va d))) := B.closed d a (index va d) ha hd
  unfold lookup_l4pagetable_entry
  rw [mem_kstate, mem_kstate, hsame]
  generalize entry s.mem a (PAGEINDEX va d) = e at hclosed
  refine Both.ite _ (fun hp => ?_) fun _ => Both.ite _ (fun _ => ?_) fun hperm => ?_
  · refine .ok ⟨rfl,Onward.refl B fun pe hpe => ?_⟩
    cases hpe
    exact hclosed hp
  · exact .ok ⟨rfl,Onward.refl B fun pe hpe => (by cases hpe)⟩
  · cases hall : allocator with
    | none => exact .ok ⟨rfl,Onward.refl B fun pe hpe => (by cases hpe)⟩
    | some alloc =>
      obtain ⟨rfl,hbooked⟩ := H alloc hall
      obtain ⟨c,s',t',W',hs,ht,L,hblank⟩ := pagetable_alloc_both B hbooked
      simp only [hs, ht]
      refine Both.ite _ (fun _ => ?_) fun hnull => ?_
      · exact .ok ⟨rfl,T,W',⟨L.tables,L.bytes,L.twin,L.books,L.processes,fun h => (by cases h)⟩,
          fun pe hpe => (by cases hpe)⟩
      · have N := hblank hnull
        refine Both.after _ fun _ _ => .ok ⟨rfl,withTable T (d+1) c,W',⟨fun _ _ h => Or.inl h,
          L.bytes,?_,fun h => ⟨(L.books h).1.setMem _ _,(L.books h).2⟩,L.processes,
          fun h => (by cases h)⟩,fun pe hpe => ?_⟩
        · have B' := L.twin.link ha N.frame N.fresh N.inside (index va d)
          rw [link_word c N.frame.1]
          exact B'
        · cases hpe
          rw [link_word c N.frame.1]
          have haddr : PTE_ADDR (c+7) = c := by
            have := N.frame.1
            rw [pte_addr_eq]
            omega
          exact Or.inr ⟨rfl,haddr⟩

theorem walk_both (levels : List ℕ) {d a : ℕ} {T : ℕ → ℕ → Prop} {W : ℕ → Prop} {s t : KState}
    (B : Twin m₁ m₂ T W s t) (H : Stocked allocator W s t) (hlevels : levels = [0,1,2].drop d)
    (ha : T d a) (hd : d ≤ 3) :
    Both (fun x y => x.1 = y.1 ∧ Onward m₁ m₂ (allocator = none) T W s t (fun T' => x.1 = NULL ∨ T' 3 x.1) x.2 y.2)
      (lookup_l4pagetable_loop va perm allocator levels a s)
      (lookup_l4pagetable_loop va perm allocator levels a t) := by
  induction levels generalizing d a T W s t with
  | nil =>
    have h3 : d = 3 := by
      have hlen := congrArg List.length hlevels
      rw [List.length_drop, List.length_nil] at hlen
      simp at hlen
      omega
    exact .ok ⟨rfl,Onward.refl B (Or.inr (h3 ▸ ha))⟩
  | cons l levels ih =>
    have hd3 : d < 3 := by
      by_contra h
      rw [List.drop_eq_nil_of_le (by simp; omega)] at hlevels
      cases hlevels
    have hl : l = d := by
      have hcases : d = 0 ∨ d = 1 ∨ d = 2 := by omega
      rcases hcases with rfl | rfl | rfl <;> exact (List.cons.inj hlevels).1
    have hdrop : levels = [0,1,2].drop (d+1) := by
      have htail := congrArg List.tail hlevels
      rwa [List.tail_cons, List.tail_drop] at htail
    subst hl
    rw [lookup_l4pagetable_loop, lookup_l4pagetable_loop]
    refine Both.bind (entry_both B H ha hd3) fun x y hxy => ?_
    obtain ⟨found,s₁⟩ := x
    obtain ⟨found',t₁⟩ := y
    obtain ⟨hfound,T₁,W₁,L,hQ⟩ := hxy
    change found = found' at hfound
    subst hfound
    cases found with
    | none => exact .ok ⟨rfl,T₁,W₁,L,Or.inl rfl⟩
    | some pe =>
      refine Both.after _ fun _ _ => ?_
      refine Both.mono (ih L.twin (H.later L) hdrop (hQ pe rfl) (by omega)) fun x y h => ?_
      exact ⟨h.1,Onward.after L h.2⟩

theorem map_loop_both (n : ℕ) {va pa l4 : ℕ} {last : ℤ} {T : ℕ → ℕ → Prop} {W : ℕ → Prop}
    {s t : KState} (B : Twin m₁ m₂ T W s t) (H : Stocked allocator W s t) (hr : T 0 r)
    (hl4 : l4 = NULL ∨ T 3 l4) :
    Both (fun x y => x.1 = y.1 ∧ Onward m₁ m₂ (allocator = none) T W s t (fun _ => True) x.2 y.2)
      (virtual_memory_map_loop r perm allocator n va pa last l4 s)
      (virtual_memory_map_loop r perm allocator n va pa last l4 t) := by
  induction n generalizing va pa l4 last T W s t with
  | zero => exact .ok ⟨rfl,Onward.refl B trivial⟩
  | succ n ih =>
    -- the turn once the table is known
    have hbody : ∀ (l4 : ℕ) {T : ℕ → ℕ → Prop} {W : ℕ → Prop} {s t : KState},
        Twin m₁ m₂ T W s t → Stocked allocator W s t → T 0 r → (l4 = NULL ∨ T 3 l4) →
        Both (fun x y => x.1 = y.1 ∧ Onward m₁ m₂ (allocator = none) T W s t (fun _ => True) x.2 y.2)
          (if perm &&& PTE_P ≠ 0 ∧ l4 ≠ NULL then virtual_memory_map_loop r perm allocator n
            ((va+PAGESIZE) % 2^64) ((pa+PAGESIZE) % 2^64) (index123 va) l4
            (setMem s (setEntry (mem s) l4 (L4PAGEINDEX va) (pa ||| perm)))
          else if l4 ≠ NULL then virtual_memory_map_loop r perm allocator n
            ((va+PAGESIZE) % 2^64) ((pa+PAGESIZE) % 2^64) (index123 va) l4
            (setMem s (setEntry (mem s) l4 (L4PAGEINDEX va) perm))
          else if perm &&& PTE_P ≠ 0 then .ok (-1,s)
          else virtual_memory_map_loop r perm allocator n ((va+PAGESIZE) % 2^64)
            ((pa+PAGESIZE) % 2^64) (index123 va) l4 s)
          (if perm &&& PTE_P ≠ 0 ∧ l4 ≠ NULL then virtual_memory_map_loop r perm allocator n
            ((va+PAGESIZE) % 2^64) ((pa+PAGESIZE) % 2^64) (index123 va) l4
            (setMem t (setEntry (mem t) l4 (L4PAGEINDEX va) (pa ||| perm)))
          else if l4 ≠ NULL then virtual_memory_map_loop r perm allocator n
            ((va+PAGESIZE) % 2^64) ((pa+PAGESIZE) % 2^64) (index123 va) l4
            (setMem t (setEntry (mem t) l4 (L4PAGEINDEX va) perm))
          else if perm &&& PTE_P ≠ 0 then .ok (-1,t)
          else virtual_memory_map_loop r perm allocator n ((va+PAGESIZE) % 2^64)
            ((pa+PAGESIZE) % 2^64) (index123 va) l4 t) := by
      intro l4 T W s t B H hr hl4
      have hwrite : l4 ≠ NULL → ∀ v, Both
          (fun x y => x.1 = y.1 ∧ Onward m₁ m₂ (allocator = none) T W s t (fun _ => True) x.2 y.2)
          (virtual_memory_map_loop r perm allocator n ((va+PAGESIZE) % 2^64)
            ((pa+PAGESIZE) % 2^64) (index123 va) l4
            (setMem s (setEntry (mem s) l4 (L4PAGEINDEX va) v)))
          (virtual_memory_map_loop r perm allocator n ((va+PAGESIZE) % 2^64)
            ((pa+PAGESIZE) % 2^64) (index123 va) l4
            (setMem t (setEntry (mem t) l4 (L4PAGEINDEX va) v))) := by
        intro hne v
        have B' := B.leaf (hl4.resolve_left hne) (index va 3) v
        have L : Later m₁ m₂ (allocator = none) T W s t T W
            (setMem s (setEntry (mem s) l4 (L4PAGEINDEX va) v))
            (setMem t (setEntry (mem t) l4 (L4PAGEINDEX va) v)) :=
          ⟨fun _ _ h => h,fun _ h => h,B',fun h => ⟨h.1.setMem _ _,h.2⟩,rfl,fun _ => ⟨rfl,rfl⟩⟩
        refine Both.mono (ih B' (H.later L) hr hl4) fun x y h => ?_
        exact ⟨h.1,Onward.after L h.2⟩
      refine Both.ite _ (fun h => hwrite h.2 _) fun _ => Both.ite _ (fun h => hwrite h _) fun _ =>
        Both.ite _ (fun _ => .ok ⟨rfl,Onward.refl B trivial⟩) fun _ => ih B H hr hl4
    rw [virtual_memory_map_loop, virtual_memory_map_loop]
    by_cases hlast : index123 va ≠ last
    · rw [if_pos hlast, if_pos hlast]
      refine Both.bind (walk_both [0,1,2] B H rfl hr (by decide)) fun x y hxy => ?_
      obtain ⟨x,s₁⟩ := x
      obtain ⟨y,t₁⟩ := y
      obtain ⟨hx,T₁,W₁,L,hQ⟩ := hxy
      change x = y at hx
      subst hx
      refine Both.mono (hbody x L.twin (H.later L) (L.tables 0 r hr) hQ) fun x y h => ?_
      exact ⟨h.1,Onward.after L h.2⟩
    · rw [if_neg hlast, if_neg hlast]
      exact hbody l4 B H hr hl4

theorem map_both (B : Twin m₁ m₂ T W s t) (H : Stocked allocator W s t) (hr : T 0 r)
    (va pa sz perm : ℕ) :
    Both (fun x y => x.1 = y.1 ∧ Onward m₁ m₂ (allocator = none) T W s t (fun _ => True) x.2 y.2)
      (virtual_memory_map r va pa sz perm allocator s)
      (virtual_memory_map r va pa sz perm allocator t) := by
  have hloop : Both
      (fun x y => x.1 = y.1 ∧ Onward m₁ m₂ (allocator = none) T W s t (fun _ => True) x.2 y.2)
      (virtual_memory_map_loop r perm allocator (sz / PAGESIZE) va pa (-1) NULL s)
      (virtual_memory_map_loop r perm allocator (sz / PAGESIZE) va pa (-1) NULL t) :=
    map_loop_both _ B H hr (Or.inl rfl)
  rw [virtual_memory_map, virtual_memory_map]
  refine Both.after _ fun _ _ => Both.after _ fun _ _ => Both.after _ fun _ _ => ?_
  by_cases hp : perm &&& PTE_P ≠ 0
  · rw [if_pos hp, if_pos hp]
    refine Both.after _ fun _ _ => Both.after _ fun _ _ => Both.after _ fun _ _ => ?_
    exact Both.after _ fun _ _ => Both.after _ fun _ _ => hloop
  · rw [if_neg hp, if_neg hp]
    exact Both.after _ fun _ _ => Both.after _ fun _ _ => hloop

end Mapping

end WeensyOS.TwinRuns
