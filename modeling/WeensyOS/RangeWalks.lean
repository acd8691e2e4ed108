import WeensyOS.TreeTables

/-!
# Walks through page tables of any shape

What `lookup_l4pagetable` does to a tree of tables: every entry that is present
stays, and absent links on the path of the address become links to new tables.
-/

set_option autoImplicit false

namespace WeensyOS.RangeWalks
open WeensyOS.FlatMemory WeensyOS.KernelState WeensyOS.PageTables WeensyOS.CheckedRuns
open WeensyOS.RadixForest WeensyOS.TableWords WeensyOS.PrivateRuns WeensyOS.TreeTables

/-- What the comment on `virtual_memory_map` asks of an allocator: `NULL`, or a page that is
not among the pages `X` in use, which it leaves alone. -/
structure Lawful {σ : Type} [MachineMemory σ] (alloc : Allocator σ)
    (Avail : σ → (ℕ → Prop) → Prop) : Prop where
  page : ∀ s X, Avail s X → (alloc s).1 ≠ NULL →
    (alloc s).1 % PAGESIZE = 0 ∧ (alloc s).1 < MEMSIZE_PHYSICAL ∧ ¬X (alloc s).1
  next : ∀ s X, Avail s X → Avail (alloc s).2 fun a => X a ∨ a = (alloc s).1
  kept : ∀ s X a, Avail s X → X a → Agree (mem s) (mem (alloc s).2) a PAGESIZE
  store : ∀ s X m, Avail s X → (∀ a, a % PAGESIZE = 0 → ¬X a → Agree (mem s) m a PAGESIZE) →
    Avail (setMem s m) X

/-- Absent links may have become links to new tables; nothing else has changed. -/
def Linked (On : List Index → Prop) (r : ℕ) (m m' : Memory) : Prop :=
  ∀ q, q.length ≤ 4 → word m' r q = word m r q ∨
    (On q ∧ q.length ≤ 3 ∧ word m r q &&& PTE_P = 0 ∧ word m' r q % 4096 = 7)

section Linked

variable {On On' : List Index → Prop} {r c : ℕ} {m m' m'' : Memory} {q : List Index}

theorem Linked.refl (On : List Index → Prop) (r : ℕ) (m : Memory) : Linked On r m m :=
  fun _ _ => Or.inl rfl

theorem Linked.mono (L : Linked On r m m') (h : ∀ q, On q → On' q) : Linked On' r m m' := by
  intro q hq
  rcases L q hq with h' | ⟨hon,h'⟩
  · exact Or.inl h'
  · exact Or.inr ⟨h q hon,h'⟩

theorem link_present {e : ℕ} (h : e % 4096 = 7) : e &&& PTE_P ≠ 0 := (present_iff e).2 (by omega)

theorem Linked.present (L : Linked On r m m') (hq : q.length ≤ 4)
    (h : word m r q &&& PTE_P ≠ 0) : word m' r q = word m r q :=
  (L q hq).resolve_right fun h' => h h'.2.2.1

theorem Linked.leaf (L : Linked On r m m') (hq : q.length = 4) : word m' r q = word m r q :=
  (L q (by omega)).resolve_right fun h' => by
    have := h'.2.1
    omega

theorem Linked.trans (L : Linked On r m m') (L' : Linked On r m' m'') : Linked On r m m'' := by
  intro q hq
  rcases L' q hq with h' | ⟨hon,hlen,habsent,h'⟩
  · rw [h']
    exact L q hq
  · rcases L q hq with h | ⟨-,-,-,h⟩
    · exact Or.inr ⟨hon,hlen,h ▸ habsent,h'⟩
    · exact absurd habsent (link_present h)

theorem node_present {p : List Index} {i : Index} (h : node m r (p++[i]) = some c) :
    word m r (p++[i]) &&& PTE_P ≠ 0 := by
  rw [node_snoc, child_eq] at h
  intro hn
  rw [if_neg (not_not.2 hn)] at h
  cases h

theorem Linked.node (L : Linked On r m m') (hq : q.length ≤ 3) (h : node m r q = some c) :
    TreeTables.node m' r q = some c := by
  rcases List.eq_nil_or_concat q with rfl | ⟨p,i,rfl⟩
  · exact h
  · rw [List.concat_eq_append] at h hq ⊢
    rw [node_snoc, L.present (by omega) (node_present h), ← node_snoc]
    exact h

theorem node_below {p p' : List Index} (h : TreeTables.node m r p = none) :
    TreeTables.node m r (p++p') = none := by
  change walk scheme (slot m) r p = none at h
  change walk scheme (slot m) r (p++p') = none
  rw [walk_append, h]
  rfl

end Linked

section Walk

variable {σ : Type} [MachineMemory σ] (allocator : Option (Allocator σ))
  (Avail : σ → (ℕ → Prop) → Prop) (Z : Prop) (r : ℕ)

/-- The state of a call: a tree whose pages the allocator does not hand out. `Z` is what a
table at address zero would mean. -/
structure Walkable (X : ℕ → Prop) (s : σ) : Prop where
  tree : TreeAt (mem s) r
  avail : ∀ alloc, allocator = some alloc → Avail s X
  inside : ∀ a, Pages (mem s) r a → X a
  null : ∀ q, q.length ≤ 3 → node (mem s) r q = some NULL → Z

/-- The allocator has just returned `NULL` for a table of the path. -/
def Exhausted (t : List Index) (s' : σ) : Prop :=
  ∃ alloc s₀, allocator = some alloc ∧ (alloc s₀).1 = NULL ∧ s' = (alloc s₀).2 ∧
    node (mem s₀) r t = none

/-- Why a table on the path is missing. -/
def Stuck (perm : ℕ) (t : List Index) (s' : σ) : Prop :=
  node (mem s') r t = none ∧ (perm &&& PTE_P = 0 ∨ allocator = none ∨ Exhausted allocator r t s')

variable {allocator Avail Z r} {X : ℕ → Prop} {s s' : σ} {va perm l n l4 : ℕ}
  {p t : List Index} {i : Index}

theorem pages_slots {m m' : Memory}
    (h : ∀ a, Pages m r a → Agree m m' a PAGESIZE) :
    ∀ n j, Pages m r n → slot m' n j = slot m n j :=
  fun n j hn => entry_congr _ _ _ j.isLt (h n hn)

theorem pages_aligned {m : Memory} (T : TreeAt m r) {a : ℕ} (h : Pages m r a) :
    a % 4096 = 0 ∧ a < 0x200000 := by
  obtain ⟨q,hq,hn⟩ := pages_iff.1 h
  exact T.frame q a hq hn

theorem Walkable.congr {X' : ℕ → Prop} (G : Walkable allocator Avail Z r X s)
    (hslots : ∀ n j, Pages (mem s) r n → slot (mem s') n j = slot (mem s) n j)
    (havail : ∀ alloc, allocator = some alloc → Avail s' X') (hX : ∀ a, X a → X' a) :
    Walkable allocator Avail Z r X' s' where
  tree := G.tree.congr hslots
  avail := havail
  inside a ha := hX a (G.inside a ((pages_congr hslots).1 ha))
  null q hq h := G.null q hq ((nodes_congr hslots hq).symm.trans h)

theorem linked_congr {m m' : Memory} (On : List Index → Prop)
    (hslots : ∀ n j, Pages m r n → slot m' n j = slot m n j) : Linked On r m m' :=
  fun _ hq => Or.inl (words_congr hslots hq)

/-- The memory after a new table was linked and cleared. -/
theorem plant {m : Memory} {c : ℕ} (T : TreeAt m r) (hn : Pages m r n)
    (hc : c % 4096 = 0 ∧ c < 0x200000) (hnew : ¬Pages m r c) :
    Planted m (LibC.memset (setEntry m n i (c+7)) c 0 4096) r n i c := by
  have hna := (pages_aligned T hn).1
  have hne : n ≠ c := fun h => hnew (h ▸ hn)
  refine ⟨?_,fun j => entry_memset _ _ _ j.isLt,fun x j hx hxj => ?_⟩
  · have h := entry_congr _ n _ i.isLt
      (memset_agree (setEntry m n i (c+7)) c n 0 hc.1 hna hne)
    exact h.trans (entry_setEntry m n i (c+7) (by omega))
  · have hxa := (pages_aligned T hx).1
    have hxc : x ≠ c := fun h => hnew (h ▸ hx)
    have h := entry_congr _ x _ j.isLt
      (memset_agree (setEntry m n i (c+7)) c x 0 hc.1 hxa hxc)
    refine h.trans (entry_setEntry_other m n i (c+7) x j hna hxa i.isLt j.isLt ?_)
    exact hxj.imp id fun h hval => h (Fin.ext hval)

/-- Linking and clearing a table leaves the pages outside `X` alone. -/
theorem planted_outside {m : Memory} {c v : ℕ} (hn : n % 4096 = 0) (hc : c % 4096 = 0) (hin : X n)
    (hc' : X c) (a : ℕ) (ha : a % PAGESIZE = 0) (hX : ¬X a) :
    Agree m (LibC.memset (setEntry m n i v) c 0 4096) a PAGESIZE :=
  (setEntry_agree m n i v a i.isLt hn ha fun h => hX (h ▸ hin)).trans
    (memset_agree _ c a 0 hc ha fun h => hX (h ▸ hc'))

theorem Walkable.planted (hlaw : ∀ alloc, allocator = some alloc → Lawful alloc Avail)
    (G : Walkable allocator Avail Z r X s) (hp : p.length < 3) (hn : node (mem s) r p = some n)
    (habsent : word (mem s) r (p++[i]) &&& PTE_P = 0) {c : ℕ}
    (hc : c % 4096 = 0 ∧ c < 0x200000) (hin : X c) (hnull : c ≠ NULL)
    (hnew : ¬Pages (mem s) r c) {m : Memory} (A : Planted (mem s) m r n i c)
    (hout : ∀ a, a % PAGESIZE = 0 → ¬X a → Agree (mem s) m a PAGESIZE) :
    Walkable allocator Avail Z r X (setMem s m) where
  tree := by
    rw [MachineMemory.mem_setMem]
    exact planted_tree G.tree hp hn habsent hc hnew A
  avail alloc hall := (hlaw alloc hall).store s X m (G.avail alloc hall) hout
  inside a ha := by
    rw [MachineMemory.mem_setMem] at ha
    obtain ⟨q,hq,hqa⟩ := pages_iff.1 ha
    rw [planted_node G.tree hp hn habsent hc.1 A hq] at hqa
    by_cases hqc : q = p++[i]
    · rw [if_pos hqc, Option.some.injEq] at hqa
      exact hqa ▸ hin
    · rw [if_neg hqc] at hqa
      exact G.inside a (pages_iff.2 ⟨q,hq,hqa⟩)
  null q hq hqa := by
    rw [MachineMemory.mem_setMem, planted_node G.tree hp hn habsent hc.1 A hq] at hqa
    by_cases hqc : q = p++[i]
    · rw [if_pos hqc, Option.some.injEq] at hqa
      exact absurd hqa hnull
    · rw [if_neg hqc] at hqa
      exact G.null q hq hqa

theorem entry_spec (hlaw : ∀ alloc, allocator = some alloc → Lawful alloc Avail)
    (G : Walkable allocator Avail Z r X s) (hp : p.length < 3) (hn : node (mem s) r p = some n)
    {found : Option ℕ} (h : lookup_l4pagetable_entry va perm allocator l n s = .ok (found,s')) :
    (∃ X', Walkable allocator Avail Z r X' s') ∧
      Linked (fun q => q = p++[index va l]) r (mem s) (mem s') ∧
      (perm &&& PTE_P = 0 → s' = s) ∧
      (∀ pe, found = some pe → pe = word (mem s') r (p++[index va l]) ∧ pe &&& PTE_P ≠ 0) ∧
      (found = none → Stuck allocator r perm (p++[index va l]) s') := by
  have hw : entry (mem s) n (PAGEINDEX va l) = word (mem s) r (p++[index va l]) :=
    (word_node hn (index va l)).symm
  have hnode : word (mem s) r (p++[index va l]) &&& PTE_P = 0 →
      node (mem s) r (p++[index va l]) = none := fun h => by
    rw [node_snoc, child_eq, if_neg (not_not.2 h)]
  simp only [lookup_l4pagetable_entry, hw] at h
  by_cases hpres : word (mem s) r (p++[index va l]) &&& PTE_P ≠ 0
  · rw [if_pos hpres, Except.ok.injEq, Prod.mk.injEq] at h
    obtain ⟨rfl,rfl⟩ := h
    refine ⟨⟨X,G⟩,Linked.refl _ _ _,fun _ => rfl,fun pe hpe => ?_,fun hnone => (by cases hnone)⟩
    cases hpe
    exact ⟨rfl,hpres⟩
  rw [if_neg hpres] at h
  have habsent := not_not.1 hpres
  by_cases hperm : perm &&& PTE_P = 0
  · rw [if_pos hperm, Except.ok.injEq, Prod.mk.injEq] at h
    obtain ⟨rfl,rfl⟩ := h
    exact ⟨⟨X,G⟩,Linked.refl _ _ _,fun _ => rfl,fun pe hpe => (by cases hpe),
      fun _ => ⟨hnode habsent,Or.inl hperm⟩⟩
  rw [if_neg hperm] at h
  cases hall : allocator with
  | none =>
    rw [hall] at h
    simp only [Except.ok.injEq, Prod.mk.injEq] at h
    obtain ⟨rfl,rfl⟩ := h
    exact ⟨⟨X,hall ▸ G⟩,Linked.refl _ _ _,fun _ => rfl,fun pe hpe => (by cases hpe),
      fun _ => ⟨hnode habsent,Or.inr (Or.inl rfl)⟩⟩
  | some alloc =>
    have L := hlaw alloc hall
    have hA := G.avail alloc hall
    have hkept := fun a ha => L.kept s X a hA (G.inside a ha)
    have hslots := pages_slots hkept
    have G₁ : Walkable allocator Avail Z r (fun a => X a ∨ a = (alloc s).1) (alloc s).2 :=
      G.congr hslots (fun alloc' h' => by
        have hsame : alloc = alloc' := Option.some.inj (hall.symm.trans h')
        exact hsame ▸ L.next s X hA) fun a ha => Or.inl ha
    have hlen : (p++[index va l]).length ≤ 3 := by
      simp only [List.length_append, List.length_singleton]
      omega
    have hw₁ := words_congr hslots (q := p++[index va l]) (by omega)
    have hn₁ := (nodes_congr hslots (p := p) (by omega)).trans hn
    rw [hall] at h
    simp only at h
    by_cases hnull : (alloc s).1 = NULL
    · rw [if_pos hnull, Except.ok.injEq, Prod.mk.injEq] at h
      obtain ⟨rfl,rfl⟩ := h
      refine ⟨⟨_,hall ▸ G₁⟩,linked_congr _ hslots,fun h => absurd h hperm,
        fun pe hpe => (by cases hpe),fun _ => ⟨?_,Or.inr (Or.inr ?_)⟩⟩
      · exact (nodes_congr hslots hlen).trans (hnode habsent)
      · exact ⟨alloc,s,rfl,hnull,rfl,hnode habsent⟩
    · obtain ⟨halign,hlt,hnot⟩ := L.page s X hA hnull
      have hc : (alloc s).1 % 4096 = 0 ∧ (alloc s).1 < 0x200000 := ⟨halign,hlt⟩
      simp only [if_neg hnull, kassert, if_pos halign, bind, Except.bind, link_word _ halign,
        Except.ok.injEq, Prod.mk.injEq] at h
      obtain ⟨rfl,rfl⟩ := h
      have hnew : ¬Pages (mem (alloc s).2) r (alloc s).1 := fun hx =>
        hnot (G.inside _ ((pages_congr hslots).1 hx))
      have A := plant (i := index va l) G₁.tree (pages_iff.2 ⟨p,by omega,hn₁⟩) hc hnew
      have habsent₁ : word (mem (alloc s).2) r (p++[index va l]) &&& PTE_P = 0 := by
        rw [hw₁]
        exact habsent
      have hin := G₁.inside n (pages_iff.2 ⟨p,by omega,hn₁⟩)
      have hfresh : (fun a => X a ∨ a = (alloc s).1) (alloc s).1 := Or.inr rfl
      have hout := planted_outside (X := fun a => X a ∨ a = (alloc s).1) (i := index va l)
        (v := (alloc s).1+7) (m := mem (alloc s).2)
        (G₁.tree.frame p n (by omega) hn₁).1 hc.1 hin hfresh
      change Planted _ (LibC.memset (setEntry (mem (alloc s).2) n (PAGEINDEX va l)
        ((alloc s).1+7)) (alloc s).1 0 PAGESIZE) _ _ _ _ at A
      change ∀ a, _ → _ → Agree _ (LibC.memset (setEntry (mem (alloc s).2) n (PAGEINDEX va l)
        ((alloc s).1+7)) (alloc s).1 0 PAGESIZE) _ _ at hout
      generalize LibC.memset _ _ _ _ = m at A hout
      have hword := fun q hq => planted_word G₁.tree hp hn₁ habsent₁ hc.1 A (q := q) hq
      have hmod : ((alloc s).1+7) % 4096 = 7 := by omega
      refine ⟨⟨_,hall ▸ G₁.planted hlaw hp hn₁ habsent₁ hc (Or.inr rfl) hnull hnew A hout⟩,?_,
        fun h => absurd h hperm,fun pe hpe => ?_,fun hnone => (by cases hnone)⟩
      · intro q hq
        rw [MachineMemory.mem_setMem, hword q hq]
        by_cases hqc : q = p++[index va l]
        · rw [if_pos hqc]
          exact Or.inr ⟨hqc,hqc ▸ hlen,hqc ▸ habsent,hmod⟩
        · rw [if_neg hqc]
          exact Or.inl (words_congr hslots hq)
      · cases hpe
        rw [MachineMemory.mem_setMem, hword _ (by omega), if_pos rfl]
        exact ⟨rfl,link_present hmod⟩

/-- An inner entry that lets the mapping through. -/
def Grants (perm e : ℕ) : Prop :=
  e &&& PTE_P ≠ 0 ∧ (perm &&& PTE_W ≠ 0 → e &&& PTE_W ≠ 0) ∧
    (perm &&& PTE_U ≠ 0 → e &&& PTE_U ≠ 0)

theorem check_grants {pe : ℕ} (h : lookup_l4pagetable_check perm pe = .ok ())
    (hp : pe &&& PTE_P ≠ 0) : Grants perm pe := by
  rw [lookup_l4pagetable_check] at h
  obtain ⟨-,h⟩ := (seq_ok_iff _ _ _).1 h
  refine ⟨hp,fun hw => ?_,fun hu => ?_⟩
  · rw [if_pos hw] at h
    exact (kassert_ok_iff _ _).1 ((seq_ok_iff _ _ _).1 h).1
  · by_cases hw : perm &&& PTE_W ≠ 0
    · rw [if_pos hw, if_pos hu] at h
      exact (kassert_ok_iff _ _).1 ((seq_ok_iff _ _ _).1 h).2
    · rw [if_neg hw, if_pos hu] at h
      exact (kassert_ok_iff _ _).1 h

/-- What a walk from a table on the path does. -/
structure Walked (allocator : Option (Allocator σ)) (Avail : σ → (ℕ → Prop) → Prop) (Z : Prop)
    (r perm : ℕ) (p t : List Index) (l4 : ℕ) (s s' : σ) : Prop where
  good : ∃ X', Walkable allocator Avail Z r X' s'
  linked : Linked (fun q => q <+: t) r (mem s) (mem s')
  same : perm &&& PTE_P = 0 → s' = s
  found : (node (mem s') r t = some l4 ∧ ∀ q, q <+: t → p.length < q.length →
      Grants perm (word (mem s') r q)) ∨ (l4 = NULL ∧ Stuck allocator r perm t s')

theorem walk_spec (hlaw : ∀ alloc, allocator = some alloc → Lawful alloc Avail)
    (levels : List ℕ) {pt : ℕ} (G : Walkable allocator Avail Z r X s)
    (hn : node (mem s) r p = some pt) (ht : p++levels.map (index va) = t) (hlen : t.length = 3)
    (h : lookup_l4pagetable_loop va perm allocator levels pt s = .ok (l4,s')) :
    Walked allocator Avail Z r perm p t l4 s s' := by
  induction levels generalizing p pt s X with
  | nil =>
    cases h
    rw [List.map_nil, List.append_nil] at ht
    subst ht
    refine ⟨⟨X,G⟩,Linked.refl _ _ _,fun _ => rfl,Or.inl ⟨hn,fun q hq hlt => ?_⟩⟩
    have := hq.length_le
    omega
  | cons l levels ih =>
    have hp : p.length < 3 := by
      rw [← hlen, ← ht]
      simp only [List.length_append, List.length_map, List.length_cons]
      omega
    rw [lookup_l4pagetable_loop] at h
    obtain ⟨⟨found,s₁⟩,hentry,h⟩ := (bind_ok_iff _ _ _).1 h
    obtain ⟨⟨X₁,G₁⟩,L₁,hsame₁,hfound,hstuck⟩ := entry_spec hlaw G hp hn hentry
    have hpre : p++[index va l] <+: t := ⟨levels.map (index va),by simp [← ht]⟩
    have L₁' : Linked (fun q => q <+: t) r (mem s) (mem s₁) := L₁.mono fun q hq => hq ▸ hpre
    cases found with
    | none =>
      simp only [Except.ok.injEq, Prod.mk.injEq] at h
      obtain ⟨rfl,rfl⟩ := h
      obtain ⟨hnone,hwhy⟩ := hstuck rfl
      obtain ⟨rest,hrest⟩ := hpre
      refine ⟨⟨X₁,G₁⟩,L₁',hsame₁,Or.inr ⟨rfl,hrest ▸ node_below hnone,?_⟩⟩
      refine hwhy.imp_right fun h => h.imp_right ?_
      rintro ⟨alloc,s₀,hall,hnull,hs,hmiss⟩
      exact ⟨alloc,s₀,hall,hnull,hs,hrest ▸ node_below hmiss⟩
    | some pe =>
      obtain ⟨hcheck,hrest⟩ := (seq_ok_iff _ _ _).1 h
      obtain ⟨hpe,hpres⟩ := hfound pe rfl
      have hgrant := check_grants hcheck hpres
      have hn₁ : node (mem s₁) r (p++[index va l]) = some (PTE_ADDR pe) := by
        rw [node_snoc, ← hpe]
        exact if_pos hpres
      have W := ih G₁ hn₁ (by simp [← ht]) hrest
      refine ⟨W.good,L₁'.trans W.linked,fun h => (W.same h).trans (hsame₁ h),?_⟩
      rcases W.found with ⟨hnode,hgrants⟩ | hstop
      swap
      · exact Or.inr hstop
      refine Or.inl ⟨hnode,fun q hq hlt => ?_⟩
      by_cases hqlen : (p++[index va l]).length < q.length
      · exact hgrants q hq hqlen
      · have hqp : q = p++[index va l] := by
          rw [List.length_append, List.length_singleton] at hqlen
          refine (List.prefix_of_prefix_length_le hq hpre ?_).eq_of_length ?_
          · simp only [List.length_append, List.length_singleton]
            omega
          · simp only [List.length_append, List.length_singleton]
            omega
        have hlen' : (p++[index va l]).length ≤ 4 := by
          simp only [List.length_append, List.length_singleton]
          omega
        rw [hqp, W.linked.present hlen' (hpe ▸ hpres), ← hpe]
        exact hgrant

/-- The walk of `lookup_l4pagetable`. -/
theorem lookup_spec (hlaw : ∀ alloc, allocator = some alloc → Lawful alloc Avail)
    (G : Walkable allocator Avail Z r X s) (h : lookup_l4pagetable r va perm allocator s = .ok (l4,s')) :
    Walked allocator Avail Z r perm [] (tableIndices va) l4 s s' :=
  walk_spec hlaw [0,1,2] G rfl rfl rfl h

end Walk

end WeensyOS.RangeWalks
