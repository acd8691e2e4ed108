import WeensyOS.RangeResults

/-!
# Mappings that fail

A map of one page that runs out of memory has only linked empty tables, which no
lookup sees. Each of them but the last holds the link to the next.
-/

set_option autoImplicit false

namespace WeensyOS.FailedMaps
open WeensyOS.FlatMemory WeensyOS.KernelState WeensyOS.PageTables WeensyOS.CheckedRuns
open WeensyOS.TableWords WeensyOS.PrivateRuns WeensyOS.TreeTables WeensyOS.RangeWalks
open WeensyOS.RangeMaps WeensyOS.RangeResults

variable {σ : Type} [MachineMemory σ] {alloc : Allocator σ} {allocator : Option (Allocator σ)}
  {Avail : σ → (ℕ → Prop) → Prop} {r va pa perm l n l4 : ℕ} {s s' : σ} {t t' : Logged σ}
  {X : ℕ → Prop} {m m' : Memory} {p path : List Index} {ps : List ℕ}

/-- Links to empty tables are invisible. -/
theorem linked_lookup {On : List Index → Prop} (L : Linked On r m m') (va : ℕ) :
    virtual_memory_lookup m' r va = virtual_memory_lookup m r va := by
  apply links_hidden (L.leaf (indices_length va))
  intro q _ hq
  exact (L q (by omega)).imp_right fun h => h.2.2.1

section Chains

/-- The pages that the allocator has handed out, in order. -/
def handed (t : Logged σ) : List ℕ := (t.log.reverse.map Prod.snd).filter (· ≠ NULL)

/-- The entries below the path `p` are zero, except for a link to the first of `ps`. -/
def OnlyLink (m : Memory) (r : ℕ) (p : List Index) (ps : List ℕ) : Prop :=
  ∃ j, (∀ i ≠ j, word m r (p++[i]) = 0) ∧
    (word m r (p++[j]) = 0 ∨ ∃ c, ps.head? = some c ∧ word m r (p++[j]) = c+7)

/-- Each of the pages is a table of the tree that leads at most to the next one. -/
def Chain (m : Memory) (r : ℕ) : List ℕ → Prop
  | [] => True
  | c :: ps => (∃ q, q.length ≤ 3 ∧ node m r q = some c ∧ OnlyLink m r q ps) ∧ Chain m r ps

theorem handed_call (t : Logged σ) (h : (alloc t.state).1 ≠ NULL) :
    handed (logged alloc t).2 = handed t++[(alloc t.state).1] := by
  simp only [handed, logged, List.reverse_cons, List.map_append, List.map_cons, List.map_nil,
    List.filter_append]
  rw [List.filter_singleton]
  simp [h]

theorem handed_null (t : Logged σ) (h : (alloc t.state).1 = NULL) :
    handed (logged alloc t).2 = handed t := by
  simp only [handed, logged, List.reverse_cons, List.map_append, List.map_cons, List.map_nil,
    List.filter_append]
  rw [List.filter_singleton]
  simp [h]

/-- What one level of the walk asks for: nothing, or one page that becomes an empty table. -/
theorem entry_handed {found : Option ℕ}
    (hlaw : ∀ alloc, allocator = some alloc → Lawful alloc Avail)
    (havail : ∀ alloc, allocator = some alloc → Avail t.state X)
    (h : lookup_l4pagetable_entry va perm (allocator.map logged) l n t = .ok (found,t')) :
    (handed t' = handed t ∧ (found = none ∨ (t' = t ∧
      slot (mem t) n (index va l) &&& PTE_P ≠ 0))) ∨
    ∃ c, handed t' = handed t++[c] ∧ c % 4096 = 0 ∧ found = some (c+7) ∧
      ∀ j, slot (mem t') c j = 0 := by
  simp only [lookup_l4pagetable_entry] at h
  by_cases hpres : entry (mem t) n (PAGEINDEX va l) &&& PTE_P ≠ 0
  · rw [if_pos hpres] at h
    cases h
    exact Or.inl ⟨rfl,Or.inr ⟨rfl,hpres⟩⟩
  · rw [if_neg hpres] at h
    by_cases hperm : perm &&& PTE_P = 0
    · rw [if_pos hperm] at h
      cases h
      exact Or.inl ⟨rfl,Or.inl rfl⟩
    · rw [if_neg hperm] at h
      cases hall : allocator with
      | none =>
        rw [hall] at h
        cases h
        exact Or.inl ⟨rfl,Or.inl rfl⟩
      | some alloc =>
        rw [hall] at h
        change (if (alloc t.state).1 = NULL then _ else _) = _ at h
        by_cases hnull : (alloc t.state).1 = NULL
        · rw [if_pos hnull] at h
          cases h
          exact Or.inl ⟨handed_null t hnull,Or.inl rfl⟩
        · rw [if_neg hnull] at h
          obtain ⟨halign,-,-⟩ := (hlaw alloc hall).page _ _ (havail alloc hall) hnull
          obtain ⟨-,h⟩ := (seq_ok_iff _ _ _).1 h
          cases h
          refine Or.inr ⟨(alloc t.state).1,?_,halign,?_,fun j => ?_⟩
          · exact handed_call t hnull
          · exact congrArg some (link_word _ halign)
          · rw [MachineMemory.mem_setMem]
            exact entry_memset _ _ _ j.isLt

theorem onlyLink_blank (h : ∀ j, word m r (p++[j]) = 0) (ps : List ℕ) : OnlyLink m r p ps :=
  ⟨0,fun i _ => h i,Or.inl (h 0)⟩

/-- An instrumented allocator keeps the law of its original. -/
theorem logged_laws (hlaw : ∀ alloc, allocator = some alloc → Lawful alloc Avail) :
    ∀ alloc, allocator.map logged = some alloc →
      Lawful alloc fun (t : Logged σ) X => Avail t.state X := by
  intro alloc hall
  obtain ⟨alloc,hsome,rfl⟩ := Option.map_eq_some_iff.1 hall
  exact logged_lawful (hlaw alloc hsome)

/-- The tables that a walk plants, from the table at `p` on. -/
structure Plants (r : ℕ) (p path : List Index) (ps : List ℕ) (t t' : Logged σ) : Prop where
  handed : handed t' = handed t++ps
  linked : Linked (fun q => q <+: path ∧ p.length < q.length) r (mem t) (mem t')
  chain : Chain (mem t') r ps
  start : (∀ j, word (mem t) r (p++[j]) = 0) → OnlyLink (mem t') r p ps

theorem walk_plants (hlaw : ∀ alloc, allocator = some alloc → Lawful alloc Avail)
    (levels : List ℕ) {pt : ℕ}
    (G : Walkable (allocator.map logged) (fun (t : Logged σ) X => Avail t.state X) True r X t)
    (hn : node (mem t) r p = some pt) (hpath : p++levels.map (index va) = path)
    (hlen : path.length = 3)
    (h : lookup_l4pagetable_loop va perm (allocator.map logged) levels pt t = .ok (l4,t')) :
    ∃ ps, Plants r p path ps t t' := by
  induction levels generalizing p pt t X with
  | nil =>
    cases h
    exact ⟨[],(List.append_nil _).symm,Linked.refl _ _ _,trivial,fun h => onlyLink_blank h []⟩
  | cons l levels ih =>
    have hp : p.length < 3 := by
      rw [← hlen, ← hpath]
      simp only [List.length_append, List.length_map, List.length_cons]
      omega
    have hpre : p++[index va l] <+: path := ⟨levels.map (index va),by simp [← hpath]⟩
    have hlen' : (p++[index va l]).length = p.length+1 := by
      rw [List.length_append, List.length_singleton]
    rw [lookup_l4pagetable_loop] at h
    obtain ⟨⟨found,t₁⟩,hentry,h⟩ := (bind_ok_iff _ _ _).1 h
    obtain ⟨⟨X₁,G₁⟩,L₁,-,hfound,hstuck⟩ := entry_spec (logged_laws hlaw) G hp hn hentry
    have L₁' : Linked (fun q => q <+: path ∧ p.length < q.length) r (mem t) (mem t₁) :=
      L₁.mono fun q hq => by
        rw [hq, hlen']
        exact ⟨hpre,by omega⟩
    have hother : ∀ j ≠ index va l, word (mem t₁) r (p++[j]) = word (mem t) r (p++[j]) := by
      intro j hj
      have hlen : (p++[j]).length ≤ 4 := by
        rw [List.length_append, List.length_singleton]
        omega
      refine (L₁ (p++[j]) hlen).resolve_right ?_
      rintro ⟨heq,-⟩
      exact hj (by simpa using heq)
    have hhanded := entry_handed hlaw
      (fun alloc hall => G.avail _ (by rw [hall]; rfl)) hentry
    cases found with
    | none =>
      cases h
      obtain ⟨hnone,-⟩ := hstuck rfl
      refine ⟨[],?_,L₁',trivial,fun hblank => onlyLink_blank (fun j => ?_) []⟩
      · rcases hhanded with ⟨hsame,-⟩ | ⟨c,-,-,hc,-⟩
        · rw [hsame, List.append_nil]
        · cases hc
      · rcases L₁ (p++[j]) (by rw [List.length_append, List.length_singleton]; omega) with
          hsame | ⟨hj,-,-,hlink⟩
        · rw [hsame]
          exact hblank j
        · rw [← hj, node_snoc, child_eq, if_pos (link_present hlink)] at hnone
          cases hnone
    | some pe =>
      obtain ⟨hcheck,hrest⟩ := (seq_ok_iff _ _ _).1 h
      obtain ⟨hpe,hpres⟩ := hfound pe rfl
      have hn₁ : node (mem t₁) r (p++[index va l]) = some (PTE_ADDR pe) := by
        rw [node_snoc, ← hpe]
        exact if_pos hpres
      obtain ⟨ps,P⟩ := ih G₁ hn₁ (by simp [← hpath]) hrest
      have L : Linked (fun q => q <+: path ∧ p.length < q.length) r (mem t) (mem t') :=
        L₁'.trans (P.linked.mono fun q hq => ⟨hq.1,by have := hq.2; omega⟩)
      rcases hhanded with ⟨hsame,hcases⟩ | ⟨c,hc,halign,hfresh,hblank⟩
      · obtain ⟨rfl,hold⟩ := hcases.resolve_left fun h => by cases h
        refine ⟨ps,P.handed,L,P.chain,fun hzero => ?_⟩
        rw [← word_node hn, hzero] at hold
        exact absurd rfl hold
      · cases hfresh
        have haddr : PTE_ADDR (c+7) = c := by
          rw [pte_addr_eq]
          omega
        rw [haddr] at hn₁
        have hstart := P.start fun j => by rw [word_node hn₁, hblank]
        have hkept := fun j => P.linked.present (q := p++[j])
        refine ⟨c :: ps,?_,L,⟨⟨_,by omega,P.linked.node (by omega) hn₁,hstart⟩,P.chain⟩,fun hzero => ?_⟩
        · rw [P.handed, hc, List.append_assoc]
          rfl
        · refine ⟨index va l,fun j hj => ?_,Or.inr ⟨c,rfl,?_⟩⟩
          · refine ((P.linked (p++[j]) ?_).resolve_right ?_).trans ((hother j hj).trans (hzero j))
            · rw [List.length_append, List.length_singleton]
              omega
            · rintro ⟨⟨-,hlt⟩,-⟩
              rw [List.length_append, List.length_append, List.length_singleton] at hlt
              exact lt_irrefl _ hlt
          · rw [hkept _ (by omega) (hpe ▸ hpres), ← hpe]

end Chains

/-- A failed map of one page has done a walk at most. -/
theorem failed_walk (hlaw : ∀ alloc, allocator = some alloc → Lawful alloc Avail)
    (G : Walkable (allocator.map logged) (fun (t : Logged σ) X => Avail t.state X) True r X t)
    (hperm : perm &&& PTE_P ≠ 0)
    (h : virtual_memory_map_loop r perm (allocator.map logged) 1 va pa (-1) NULL t = .ok (-1,t')) :
    Linked (fun q => q <+: tableIndices va) r (mem t) (mem t') ∧ TreeAt (mem t') r ∧
      ∃ ps, handed t' = handed t++ps ∧ Chain (mem t') r ps := by
  obtain ⟨l4',t₁,hstep,hrest⟩ := map_loop_succ h
  have hfail : l4' = NULL ∧ t' = t₁ := by
    by_cases hnull : l4' = NULL
    · rw [if_neg fun hc => hc.2 hnull, if_neg (not_not.2 hnull), if_pos hperm] at hrest
      cases hrest
      exact ⟨hnull,rfl⟩
    · rw [if_pos ⟨hperm,hnull⟩] at hrest
      cases hrest
  obtain ⟨rfl,rfl⟩ := hfail
  by_cases hidx : index123 va ≠ -1
  · rw [if_pos hidx] at hstep
    have W := lookup_spec (logged_laws hlaw) G hstep
    obtain ⟨X',G'⟩ := W.good
    obtain ⟨ps,P⟩ := walk_plants (p := []) hlaw [0,1,2] G rfl rfl rfl hstep
    exact ⟨W.linked,G'.tree,ps,P.handed,P.chain⟩
  · rw [if_neg hidx] at hstep
    cases hstep
    exact ⟨Linked.refl _ _ _,G.tree,[],(List.append_nil _).symm,trivial⟩

/-- The pages are tables of the tree, each with at most one entry that is not zero: the link to
the page handed out after it. -/
def LinkedInOrder (m : Memory) (r : ℕ) (ps : List ℕ) : Prop :=
  ∀ k c, ps[k]? = some c → Pages m r c ∧ ∃ j < NPAGETABLEENTRIES,
    (∀ i < NPAGETABLEENTRIES, i ≠ j → entry m c i = 0) ∧
    (entry m c j = 0 ∨ ∃ c', ps[k+1]? = some c' ∧ entry m c j &&& PTE_P ≠ 0 ∧
      PTE_ADDR (entry m c j) = c')

theorem Chain.inOrder (T : TreeAt m r) (C : Chain m r ps) : LinkedInOrder m r ps := by
  induction ps with
  | nil =>
    intro k c hk
    rw [List.getElem?_nil] at hk
    cases hk
  | cons c ps ih =>
    obtain ⟨⟨q,hq,hn,j,hothers,hj⟩,C'⟩ := C
    intro k c' hk
    cases k with
    | succ k => exact ih C' k c' hk
    | zero =>
      cases hk
      refine ⟨pages_iff.2 ⟨q,hq,hn⟩,j,j.isLt,fun i hi hij => ?_,?_⟩
      · have hzero := hothers ⟨i,hi⟩ fun h => hij (congrArg Fin.val h)
        rw [word_node hn] at hzero
        exact hzero
      · rw [word_node hn] at hj
        refine hj.imp_right ?_
        rintro ⟨c',hhead,hlink⟩
        rw [List.head?_eq_getElem?] at hhead
        have halign : c' % 4096 = 0 := by
          cases ps with
          | nil => cases hhead
          | cons d ps =>
            cases hhead
            obtain ⟨⟨q',hq',hn',-⟩,-⟩ := C'
            exact (T.frame q' _ hq' hn').1
        have hword : entry m c j = c'+7 := hlink
        refine ⟨c',hhead,?_,?_⟩
        · rw [hword]
          exact link_present (by omega)
        · rw [hword, pte_addr_eq]
          omega

/-- A map of one page that returns -1 changes no translation and loses no page. -/
theorem failed_map_invisible (hlaw : ∀ alloc, allocator = some alloc → Lawful alloc Avail)
    (T : TreeShaped (mem s) r)
    (havail : ∀ alloc, allocator = some alloc → Avail s (Pages (mem s) r))
    (hperm : perm &&& PTE_P ≠ 0)
    (h : virtual_memory_map r va pa PAGESIZE perm allocator s = .ok (-1,s')) :
    (∀ v, virtual_memory_lookup (mem s') r v = virtual_memory_lookup (mem s) r v) ∧
    TreeShaped (mem s') r ∧ ∃ t : Logged σ,
      virtual_memory_map r va pa PAGESIZE perm (allocator.map logged) ⟨s,[]⟩ = .ok (-1,t) ∧
      t.state = s' ∧ LinkedInOrder (mem s') r (handed t) := by
  have herase : erase (virtual_memory_map r va pa PAGESIZE perm (allocator.map logged) ⟨s,[]⟩) =
      virtual_memory_map r va pa PAGESIZE perm allocator s := erase_map _ _ _ _ _ _
  rw [h] at herase
  cases hrun : virtual_memory_map r va pa PAGESIZE perm (allocator.map logged) ⟨s,[]⟩ with
  | error e =>
    rw [hrun] at herase
    cases herase
  | ok x =>
    rw [hrun] at herase
    obtain ⟨ret,t⟩ := x
    cases herase
    have G : Walkable (allocator.map logged) (fun (t : Logged σ) X => Avail t.state X) True r
        (Pages (mem s) r) ⟨s,[]⟩ := by
      refine ⟨T.tree,fun alloc hall => ?_,fun _ ha => ha,fun _ _ _ => trivial⟩
      obtain ⟨alloc,hsome,-⟩ := Option.map_eq_some_iff.1 hall
      exact havail alloc hsome
    obtain ⟨L,T',ps,hps,C⟩ := failed_walk hlaw G hperm (map_asserts hrun).2.2.2.2.2
    refine ⟨linked_lookup L,T'.shaped,t,rfl,rfl,?_⟩
    rw [hps]
    exact C.inOrder T'
/-- An empty table at page 1, and one free page. -/
def scarceTables : Bump := ⟨fun _ => 0,0x1FF000⟩

/-- The second of three tables cannot be allocated. -/
theorem scarce_map_invisible : ∃ s', virtual_memory_map 0x1000 0x3FF000 0x5000 0x1000 7 (some bump)
    scarceTables = .ok (-1,s') ∧
      virtual_memory_lookup (mem s') 0x1000 0x3FF000 =
        virtual_memory_lookup (mem scarceTables) 0x1000 0x3FF000 := by
  have hret : returned (virtual_memory_map 0x1000 0x3FF000 0x5000 0x1000 7 (some bump)
    scarceTables) = some (-1) := by decide +kernel
  obtain ⟨s',hs'⟩ := returned_some hret
  have havail : BumpAvail scarceTables (Pages (mem scarceTables) 0x1000) := by
    refine ⟨rfl,by decide,fun a ⟨d,ha⟩ => ?_⟩
    rw [(blank_table ha).1]
    decide
  obtain ⟨hlookup,-⟩ := failed_map_invisible bump_contract (blank_tree rfl (by decide))
    (fun alloc _ => havail) (by decide) hs'
  exact ⟨s',hs',hlookup _⟩

end WeensyOS.FailedMaps
