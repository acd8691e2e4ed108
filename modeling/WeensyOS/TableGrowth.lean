import WeensyOS.RangeMaps

/-!
# A new tree of tables in pages that were free

A tree of tables that grows by `pagetable_alloc` while other trees lie in the
same memory. Every table of it is a page that was free at first, and every
page that is not a table of it is as it was at first.
-/

set_option autoImplicit false

namespace WeensyOS.TableGrowth
open WeensyOS.FlatMemory WeensyOS.KernelState WeensyOS.PageTables WeensyOS.PageAllocator
open WeensyOS.RadixForest WeensyOS.TableWords WeensyOS.FreePages WeensyOS.PagingInvariant
open WeensyOS.TableWalks WeensyOS.PageMaps WeensyOS.PrivateRuns WeensyOS.TreeTables
open WeensyOS.RangeWalks WeensyOS.RangeMaps

/-- The tree at `r` has grown for the owner `o` since `s₀`. -/
structure Grown (o : ℤ) (r : ℕ) (s₀ s : KState) : Prop where
  tree : TreeAt s.mem r
  links : ∀ q, q ≠ [] → q.length ≤ 3 → word s.mem r q = 0 ∨ word s.mem r q % 4096 = 7
  null : 0 ∉ freePages s₀
  tables : ∀ a, Pages s.mem r a → a / 4096 ∈ freePages s₀ ∧ s.pageinfo (a / 4096) = ⟨o,1⟩
  others : ∀ pn, Pages s.mem r (pn*4096) ∨
    (s.pageinfo pn = s₀.pageinfo pn ∧ Agree s₀.mem s.mem (pn*4096) PAGESIZE)
  rest : s = { s₀ with mem := s.mem, pageinfo := s.pageinfo, pagetable_owner := o }

variable {o : ℤ} {r n va pa perm l : ℕ} {s₀ s s' : KState} {p q t : List Index} {i : Index}

namespace Grown

theorem owner (G : Grown o r s₀ s) : s.pagetable_owner = o := by
  rw [G.rest]

theorem aligned (G : Grown o r s₀ s) {a : ℕ} (h : Pages s.mem r a) :
    a % 4096 = 0 ∧ a < 0x200000 := pages_aligned G.tree h

theorem not_free (G : Grown o r s₀ s) {a : ℕ} (h : Pages s.mem r a) : a / 4096 ∉ freePages s := by
  rw [mem_freePages, (G.tables a h).2]
  rintro ⟨-,hfree⟩
  cases hfree

theorem free_first (G : Grown o r s₀ s) {pn : ℕ} (h : pn ∈ freePages s) : pn ∈ freePages s₀ := by
  rcases G.others pn with htable | ⟨hinfo,-⟩
  · have hnot := G.not_free htable
    rw [Nat.mul_div_cancel pn (by decide)] at hnot
    exact absurd h hnot
  · rw [mem_freePages] at h ⊢
    rw [← hinfo]
    exact h

theorem not_null (G : Grown o r s₀ s) : 0 ∉ freePages s := fun h => G.null (G.free_first h)

/-- A free page is no table. -/
theorem new_page (G : Grown o r s₀ s) {f : ℕ} (hf : f ∈ freePages s) : ¬Pages s.mem r (f*4096) := by
  intro h
  have hnot := G.not_free h
  rw [Nat.mul_div_cancel f (by decide)] at hnot
  exact hnot hf

/-- Pages that were in use at first are as they were. -/
theorem kept (G : Grown o r s₀ s) {a : ℕ} (ha : a % 4096 = 0) (h : a / 4096 ∉ freePages s₀) :
    Agree s₀.mem s.mem a PAGESIZE := by
  have haddr : a / 4096*4096 = a := by omega
  rcases G.others (a / 4096) with htable | ⟨-,hsame⟩
  · rw [haddr] at htable
    exact absurd (G.tables a htable).1 h
  · rwa [haddr] at hsame

/-- What a table is linked by. -/
theorem link (G : Grown o r s₀ s) (hq : q ≠ []) (hlen : q.length ≤ 3)
    (h : word s.mem r q ≠ 0) : ∃ c, word s.mem r q = c+7 ∧ node s.mem r q = some c ∧ c % 4096 = 0 ∧
      c < 0x200000 := by
  have h7 := (G.links q hq hlen).resolve_left h
  obtain ⟨p,i,rfl⟩ := (List.eq_nil_or_concat q).resolve_left hq
  rw [List.concat_eq_append] at h7 hlen ⊢
  have haddr : PTE_ADDR (word s.mem r (p++[i])) = word s.mem r (p++[i])-7 := by
    rw [pte_addr_eq]
    omega
  have hnode : node s.mem r (p++[i]) = some (word s.mem r (p++[i])-7) := by
    rw [node_snoc, child_eq, if_pos (link_present h7), haddr]
  obtain ⟨halign,hlt⟩ := G.tree.frame _ _ hlen hnode
  exact ⟨_,by omega,hnode,halign,hlt⟩

end Grown

/-- Where a page of the table goes. -/
theorem attach_planted (T : TreeAt s.mem r) (hn : Pages s.mem r n) {f : ℕ} (hf : f < 512)
    (hnew : ¬Pages s.mem r (f*4096)) :
    Planted s.mem (attachMem s.mem n i f) r n i (f*4096) := by
  have halign : f*4096 % 4096 = 0 := Nat.mul_mod_left f 4096
  have hna := (pages_aligned T hn).1
  have hne : n ≠ f*4096 := fun h => hnew (h ▸ hn)
  refine ⟨?_,fun j => entry_memset _ _ _ j.isLt,fun x j hx hxj => ?_⟩
  · rw [attach_slot s.mem n f i i hna hne hf, if_pos rfl]
  · by_cases hxn : x = n
    · rw [hxn, attach_slot s.mem n f i j hna hne hf, if_neg (hxj.resolve_left (not_not.2 hxn))]
    · have hxf : x ≠ f*4096 := fun h => hnew (h ▸ hx)
      exact entry_congr _ _ _ j.isLt
        (attach_other s.mem n i f x i.isLt hna (pages_aligned T hx).1 hxf hxn)

section Planting

variable (G : Grown o r s₀ s) (hp : p.length < 3) (hn : node s.mem r p = some n)
  (habsent : word s.mem r (p++[i]) = 0) {f : ℕ} (hf : f ∈ freePages s)
include G hp hn habsent hf

theorem planted_pages {a : ℕ} : Pages (attachMem s.mem n i f) r a ↔
    Pages s.mem r a ∨ a = f*4096 := by
  have hlt := ((mem_freePages s f).1 hf).1
  have A := attach_planted (i := i) G.tree (pages_iff.2 ⟨p,by omega,hn⟩) hlt (G.new_page hf)
  have hzero : word s.mem r (p++[i]) &&& PTE_P = 0 := by rw [habsent]; rfl
  have hnode := fun q hq => planted_node G.tree hp hn hzero (Nat.mul_mod_left f 4096) A (q := q) hq
  have hlen : (p++[i]).length ≤ 3 := by
    simp only [List.length_append, List.length_singleton]
    omega
  rw [pages_iff, pages_iff]
  constructor
  · rintro ⟨q,hq,h⟩
    rw [hnode q hq] at h
    by_cases hqc : q = p++[i]
    · rw [if_pos hqc, Option.some.injEq] at h
      exact Or.inr h.symm
    · rw [if_neg hqc] at h
      exact Or.inl ⟨q,hq,h⟩
  · rintro (⟨q,hq,h⟩ | rfl)
    · refine ⟨q,hq,?_⟩
      have hne : q ≠ p++[i] := by
        rintro rfl
        rw [node_snoc, habsent] at h
        cases h
      rw [hnode q hq, if_neg hne]
      exact h
    · exact ⟨p++[i],hlen,by rw [hnode _ hlen, if_pos rfl]⟩

theorem Grown.planted : Grown o r s₀ (takePage s f o (attachMem s.mem n i f) o) := by
  have hlt := ((mem_freePages s f).1 hf).1
  have halign : f*4096 % 4096 = 0 := Nat.mul_mod_left f 4096
  have hin : Pages s.mem r n := pages_iff.2 ⟨p,by omega,hn⟩
  have A := attach_planted (i := i) G.tree hin hlt (G.new_page hf)
  have hzero : word s.mem r (p++[i]) &&& PTE_P = 0 := by rw [habsent]; rfl
  have hpages := fun a => planted_pages G hp hn habsent hf (a := a)
  have hdiv : f*4096 / 4096 = f := Nat.mul_div_cancel f (by decide)
  have hmod : (f*4096+7) % 4096 = 7 := Nat.mul_add_mod_self_right f 4096 7
  refine ⟨?_,fun q hq hlen => ?_,G.null,fun a ha => ?_,fun pn => ?_,?_⟩
  · exact planted_tree G.tree hp hn hzero ⟨halign,by omega⟩ (G.new_page hf) A
  · rw [takePage_mem, planted_word G.tree hp hn hzero halign A (by omega)]
    by_cases hqc : q = p++[i]
    · rw [if_pos hqc]
      exact Or.inr hmod
    · rw [if_neg hqc]
      exact G.links q hq hlen
  · rw [takePage_mem, hpages] at ha
    rw [takePage_pageinfo, Function.update_apply]
    rcases ha with ha | rfl
    · have hne : a / 4096 ≠ f := by
        rintro rfl
        exact G.not_free ha hf
      rw [if_neg hne]
      exact G.tables a ha
    · rw [hdiv, if_pos rfl]
      exact ⟨G.free_first hf,rfl⟩
  · by_cases hpn : pn = f
    · rw [takePage_mem, hpages, hpn]
      exact Or.inl (Or.inr rfl)
    · rw [takePage_mem, hpages, takePage_pageinfo, Function.update_of_ne hpn]
      rcases G.others pn with ht | ⟨hinfo,hsame⟩
      · exact Or.inl (Or.inl ht)
      · by_cases hpn' : pn*4096 = n
        · exact Or.inl (Or.inl (hpn' ▸ hin))
        · refine Or.inr ⟨hinfo,hsame.trans ?_⟩
          exact attach_other s.mem n i f _ i.isLt (G.aligned hin).1 (Nat.mul_mod_left pn 4096)
            (by omega) hpn'
  · have h := G.rest
    rw [h]
    rfl

/-- The words of the pages do not change when a table is added. -/
theorem planted_leaf (hq : q.length = 4) :
    word (attachMem s.mem n i f) r q = word s.mem r q := by
  have hlt := ((mem_freePages s f).1 hf).1
  have A := attach_planted (i := i) G.tree (pages_iff.2 ⟨p,by omega,hn⟩) hlt (G.new_page hf)
  have hzero : word s.mem r (p++[i]) &&& PTE_P = 0 := by rw [habsent]; rfl
  rw [planted_word G.tree hp hn hzero (Nat.mul_mod_left f 4096) A (by omega), if_neg]
  rintro rfl
  simp only [List.length_append, List.length_singleton] at hq
  omega

theorem planted_table : node (attachMem s.mem n i f) r (p++[i]) = some (f*4096) := by
  have hlt := ((mem_freePages s f).1 hf).1
  have A := attach_planted (i := i) G.tree (pages_iff.2 ⟨p,by omega,hn⟩) hlt (G.new_page hf)
  have hzero : word s.mem r (p++[i]) &&& PTE_P = 0 := by rw [habsent]; rfl
  have hlen : (p++[i]).length ≤ 3 := by
    simp only [List.length_append, List.length_singleton]
    omega
  rw [planted_node G.tree hp hn hzero (Nat.mul_mod_left f 4096) A hlen, if_pos rfl]

end Planting

section Walks

/-- One level of the walk: the table is there, or a free page becomes one. -/
theorem Grown.entry (G : Grown o r s₀ s) (va l : ℕ) (hp : p.length < 3) (hn : node s.mem r p = some n)
    (hperm : perm % 2 = 1)
    (hfree : node s.mem r (p++[index va l]) = none → freePages s ≠ ∅) :
    ∃ c s', lookup_l4pagetable_entry va perm (some pagetable_alloc) l n s = .ok (some (c+7),s') ∧
      Grown o r s₀ s' ∧ node s'.mem r (p++[index va l]) = some c ∧ c % 4096 = 0 ∧ c < 0x200000 ∧
      (∀ x, word s'.mem r (indices x) = word s.mem r (indices x)) ∧
      (node s.mem r (p++[index va l]) ≠ none → s' = s) ∧ freeCount s ≤ freeCount s'+1 := by
  have hlen : (p++[index va l]).length ≤ 3 := by
    simp only [List.length_append, List.length_singleton]
    omega
  have hw : slot s.mem n (index va l) = word s.mem r (p++[index va l]) := (word_node hn _).symm
  by_cases hzero : word s.mem r (p++[index va l]) = 0
  · have hnone : node s.mem r (p++[index va l]) = none := by
      rw [node_snoc, hzero]
      exact scheme.child_empty
    obtain ⟨f,hf,-,hentry⟩ := entry_alloc G.not_null (hw.trans hzero)
      ((present_iff perm).2 hperm) (hfree hnone)
    have hlt := ((mem_freePages s f).1 hf).1
    have halign : f*4096 % 4096 = 0 := Nat.mul_mod_left f 4096
    have hcount := freeCount_setPageinfo s f ⟨o,1⟩ hf (by intro h; cases h)
    rw [G.owner] at hentry
    refine ⟨f*4096,_,hentry,G.planted hp hn hzero hf,?_,halign,by omega,fun x => ?_,?_,?_⟩
    · exact planted_table G hp hn hzero hf
    · exact planted_leaf G hp hn hzero hf rfl
    · exact fun h => absurd hnone h
    · have hsame : freeCount (takePage s f o (attachMem s.mem n (index va l) f) o) =
          freeCount (s.setPageinfo f ⟨o,1⟩) := freeCount_congr rfl
      rw [hsame]
      omega
  · obtain ⟨c,hc,hnode,halign,hlt⟩ := G.link (by simp) hlen hzero
    have hentry := entry_present (t := s) perm (some pagetable_alloc) (hw.trans hc) halign
    exact ⟨c,s,hentry,G,hnode,halign,hlt,fun _ => rfl,fun _ => rfl,by omega⟩

/-- The walk takes one page for every table that is missing. -/
theorem Grown.walk (G : Grown o r s₀ s) (va : ℕ) (hperm : perm % 2 = 1) (levels : List ℕ) {pt : ℕ}
    (hn : node s.mem r p = some pt) (ht : p++levels.map (index va) = t) (hlen : t.length = 3)
    (hfree : node s.mem r t = none → levels.length ≤ freeCount s) :
    ∃ l4 s', lookup_l4pagetable_loop va perm (some pagetable_alloc) levels pt s = .ok (l4,s') ∧
      Grown o r s₀ s' ∧ node s'.mem r t = some l4 ∧
      ∀ x, word s'.mem r (indices x) = word s.mem r (indices x) := by
  induction levels generalizing p pt s with
  | nil =>
    rw [List.map_nil, List.append_nil] at ht
    subst ht
    exact ⟨pt,s,rfl,G,hn,fun _ => rfl⟩
  | cons l levels ih =>
    have hp : p.length < 3 := by
      rw [← hlen, ← ht]
      simp only [List.length_append, List.length_map, List.length_cons]
      omega
    have hsplit : t = (p++[index va l])++levels.map (index va) := by simp [← ht]
    have hbelow : node s.mem r (p++[index va l]) = none → node s.mem r t = none := fun h => by
      rw [hsplit]
      exact node_below h
    simp only [List.length_cons] at hfree
    obtain ⟨c,s₁,hentry,G₁,hc,halign,hlt,hleaf,hsame,hcount⟩ :=
      G.entry va l hp hn hperm fun h => by
        have := hfree (hbelow h)
        intro hempty
        rw [← freeCount_eq_zero] at hempty
        omega
    obtain ⟨l4,s',hrest,G',hl4,hleaf'⟩ := ih G₁ hc hsplit.symm fun h => by
      by_cases hnew : node s.mem r (p++[index va l]) = none
      · have := hfree (hbelow hnew)
        omega
      · rw [hsame hnew] at h ⊢
        have := hfree h
        omega
    have haddr : PTE_ADDR (c+7) = c := by rw [pte_addr_eq]; omega
    refine ⟨l4,s',?_,G',hl4,fun x => (hleaf' x).trans (hleaf x)⟩
    simp only [lookup_l4pagetable_loop, hentry, bind, Except.bind, check_link perm c halign hlt,
      haddr, hrest]

/-- A page entry is written into a table of the tree. -/
theorem Grown.written (G : Grown o r s₀ s) (ht : t.length = 3) (hn : node s.mem r t = some n)
    (v : ℕ) : Grown o r s₀ { s with mem := setEntry s.mem n i v } where
  tree := written_tree G.tree ht hn i v
  links q hq hlen := by
    have hword : word (setEntry s.mem n i v) r q = word s.mem r q := by
      obtain ⟨p,j,rfl⟩ := (List.eq_nil_or_concat q).resolve_left hq
      rw [List.concat_eq_append] at hlen ⊢
      simp only [List.length_append, List.length_singleton] at hlen
      have hsame := written_node G.tree ht hn i v (q := p) (by omega)
      cases hx : node s.mem r p with
      | none => rw [word_missing hx, word_missing (hsame.trans hx)]
      | some x =>
        rw [word_node hx, word_node (hsame.trans hx)]
        have hne : x ≠ n := by
          rintro rfl
          have hpt := G.tree.inj p t x (by omega) (by omega) hx hn
          rw [hpt] at hlen
          omega
        exact entry_setEntry_other s.mem n i v x j (G.tree.frame t n (by omega) hn).1
          (G.tree.frame p x (by omega) hx).1 i.isLt j.isLt (Or.inl hne)
    rw [hword]
    exact G.links q hq hlen
  null := G.null
  tables a ha := G.tables a ((written_pages G.tree ht hn i v).1 ha)
  others pn := by
    have hin : Pages s.mem r n := pages_iff.2 ⟨t,by omega,hn⟩
    rcases G.others pn with htable | ⟨hinfo,hsame⟩
    · exact Or.inl ((written_pages G.tree ht hn i v).2 htable)
    · by_cases hpn : pn*4096 = n
      · exact Or.inl ((written_pages G.tree ht hn i v).2 (hpn ▸ hin))
      · exact Or.inr ⟨hinfo,hsame.trans (setEntry_agree s.mem n i v _ i.isLt (G.aligned hin).1
          (Nat.mul_mod_left pn 4096) hpn)⟩
  rest := by
    have h := G.rest
    rw [h]

/-- One page is mapped, with new tables if three pages are left for them. -/
theorem Grown.map (G : Grown o r s₀ s) (hva : va % 4096 = 0) (hlow : va < 2^46)
    (hpa : Frame pa) (hperm : perm % 2 = 1 ∧ perm < 4096)
    (hfree : node s.mem r (tableIndices va) = none → 3 ≤ freeCount s) :
    ∃ s', virtual_memory_map r va pa PAGESIZE perm (some pagetable_alloc) s = .ok (0,s') ∧
      Grown o r s₀ s' ∧ node s'.mem r (tableIndices va) ≠ none ∧
      ∀ x, word s'.mem r (indices x) =
        if vpage x = vpage va then pa+perm else word s.mem r (indices x) := by
  have hroot : Pages s.mem r r := pages_iff.2 ⟨[],Nat.zero_le 3,rfl⟩
  obtain ⟨l4,s₁,hlook,G₁,hl4,hleaf⟩ := G.walk va hperm.1 [0,1,2] (p := [])
    (t := tableIndices va) rfl rfl rfl hfree
  have hin : Pages s₁.mem r l4 := pages_iff.2 ⟨tableIndices va,by simp,hl4⟩
  have hnull : l4 ≠ NULL := by
    rintro rfl
    exact G.null (G₁.tables _ hin).1
  have hidx : index123 va ≠ -1 := index123_ne va (by rw [vpage]; omega)
  have hmax := hpa.2
  refine ⟨_,?_,G₁.written (i := index va 3) rfl hl4 (pa+perm),?_,fun x => ?_⟩
  · rw [map_one r va pa perm _ s (G.aligned hroot).1 hva (by omega) hpa hperm, if_neg hidx,
      lookup_l4pagetable, hlook]
    simp only [Except.bind, if_neg hnull, mem_kstate, setMem_kstate]
    rfl
  · rw [written_node G₁.tree rfl hl4 _ _ (by simp), hl4]
    exact Option.some_ne_none _
  · rw [written_word G₁.tree rfl hl4 (by omega) (by simp), ← indices_snoc, hleaf x]
    by_cases hx : vpage x = vpage va
    · rw [if_pos ((indices_eq_iff _ _).2 hx), if_pos hx]
    · rw [if_neg fun h => hx ((indices_eq_iff _ _).1 h), if_neg hx]

end Walks

end WeensyOS.TableGrowth
