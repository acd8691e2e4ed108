import WeensyOS.PrivateRuns

/-!
# Page tables of any shape

Page tables whose entries carry arbitrary flags, described by the words that
paths of indices lead to. Writing an entry of a tree changes the word of one
path, and what a lookup says is a function of the words on its path.
-/

set_option autoImplicit false

namespace WeensyOS.TreeTables
open WeensyOS.FlatMemory WeensyOS.KernelState WeensyOS.PageTables WeensyOS.RadixForest
open WeensyOS.TableWords WeensyOS.PrivateRuns

variable {m m' : Memory} {r n c a d : ℕ} {p q : List Index} {i : Index}

/-- The table that a path leads to. -/
abbrev node (m : Memory) (r : ℕ) (p : List Index) : Option ℕ := walk scheme (slot m) r p

/-- The entry that a path leads to, zero where a table is missing. -/
abbrev word (m : Memory) (r : ℕ) (p : List Index) : ℕ := leaf scheme (slot m) r p

/-- The tables below `r` form a tree: each is the target of one entry. -/
structure TreeShaped (m : Memory) (r : ℕ) : Prop where
  frame : ∀ d a, TablePage m r d a → a % PAGESIZE = 0 ∧ a < MEMSIZE_PHYSICAL
  root : ∀ d a i, TablePage m r d a → d < 3 → i < NPAGETABLEENTRIES →
    entry m a i &&& PTE_P ≠ 0 → PTE_ADDR (entry m a i) ≠ r
  once : ∀ d a i d' a' i', TablePage m r d a → TablePage m r d' a' → d < 3 → d' < 3 →
    i < NPAGETABLEENTRIES → i' < NPAGETABLEENTRIES → entry m a i &&& PTE_P ≠ 0 →
    entry m a' i' &&& PTE_P ≠ 0 → PTE_ADDR (entry m a i) = PTE_ADDR (entry m a' i') →
    a = a' ∧ i = i'

/-- The same in terms of paths. -/
structure TreeAt (m : Memory) (r : ℕ) : Prop where
  frame : ∀ p c, p.length ≤ 3 → node m r p = some c → c % 4096 = 0 ∧ c < 0x200000
  inj : ∀ p p' c, p.length ≤ 3 → p'.length ≤ 3 → node m r p = some c → node m r p' = some c →
    p = p'

section Paths

theorem child_eq (e : ℕ) :
    scheme.child e = if e &&& PTE_P ≠ 0 then some (PTE_ADDR e) else none := rfl

theorem node_snoc (m : Memory) (r : ℕ) (p : List Index) (i : Index) :
    node m r (p++[i]) = scheme.child (word m r (p++[i])) := by
  rw [node, walk_append, word, leaf_snoc]
  cases walk scheme (slot m) r p with
  | none => exact scheme.child_empty.symm
  | some c =>
    simp only [Option.bind_some, walk]
    cases scheme.child (slot m c i) <;> rfl

theorem word_node (h : node m r p = some n) (i : Index) : word m r (p++[i]) = slot m n i := by
  change walk scheme (slot m) r p = some n at h
  rw [word, leaf_snoc, h]

theorem word_missing (h : node m r p = none) (i : Index) : word m r (p++[i]) = 0 := by
  change walk scheme (slot m) r p = none at h
  rw [word, leaf_snoc, h]
  rfl

theorem table_page_iff (hd : d ≤ 3) :
    TablePage m r d a ↔ ∃ p, p.length = d ∧ node m r p = some a := by
  constructor
  · intro T
    induction T with
    | root => exact ⟨[],rfl,rfl⟩
    | @child d pt i T hd' hi hp ih =>
      obtain ⟨p,hlen,hn⟩ := ih (by omega)
      refine ⟨p++[⟨i,hi⟩],by simp [hlen],?_⟩
      rw [node_snoc, word_node hn]
      exact if_pos hp
  · rintro ⟨p,rfl,hn⟩
    have T := table_page_walk .root p (by omega) hn
    rwa [zero_add] at T

theorem table_page_depth (T : TablePage m r d a) : d ≤ 3 := by
  cases T with
  | root => exact Nat.zero_le 3
  | child T hd hi hp => exact hd

/-- The parent of a table on a path. -/
theorem node_parent (h : node m r (p++[i]) = some c) : ∃ n, node m r p = some n ∧
    entry m n i &&& PTE_P ≠ 0 ∧ PTE_ADDR (entry m n i) = c := by
  rw [node_snoc] at h
  cases hn : node m r p with
  | none =>
    rw [word_missing hn] at h
    cases h
  | some n =>
    rw [word_node hn, child_eq] at h
    by_cases hp : slot m n i &&& PTE_P ≠ 0
    · rw [if_pos hp] at h
      exact ⟨n,rfl,hp,Option.some.inj h⟩
    · rw [if_neg hp] at h
      cases h

theorem TreeShaped.tree (T : TreeShaped m r) : TreeAt m r where
  frame p c hp hc := by
    obtain ⟨halign,hlt⟩ := T.frame p.length c ((table_page_iff hp).2 ⟨p,rfl,hc⟩)
    exact ⟨halign,hlt⟩
  inj p p' c hp hp' hc hc' := by
    induction p using List.reverseRecOn generalizing p' c with
    | nil =>
      have hcr : r = c := Option.some.inj hc
      rcases List.eq_nil_or_concat p' with rfl | ⟨q,j,rfl⟩
      · rfl
      · rw [List.concat_eq_append] at hc' hp'
        simp only [List.length_append, List.length_singleton] at hp'
        obtain ⟨n,hn,hpres,haddr⟩ := node_parent hc'
        exact absurd (haddr.trans hcr.symm)
          (T.root q.length n j ((table_page_iff (by omega)).2 ⟨q,rfl,hn⟩) (by omega) j.isLt hpres)
    | append_singleton p i ih =>
      simp only [List.length_append, List.length_singleton] at hp
      obtain ⟨n,hn,hpres,haddr⟩ := node_parent hc
      have Tn : TablePage m r p.length n := (table_page_iff (by omega)).2 ⟨p,rfl,hn⟩
      rcases List.eq_nil_or_concat p' with rfl | ⟨q,j,rfl⟩
      · have hcr : r = c := Option.some.inj hc'
        exact absurd (haddr.trans hcr.symm) (T.root _ n i Tn (by omega) i.isLt hpres)
      · rw [List.concat_eq_append] at hc' hp' ⊢
        simp only [List.length_append, List.length_singleton] at hp'
        obtain ⟨n',hn',hpres',haddr'⟩ := node_parent hc'
        have Tn' : TablePage m r q.length n' := (table_page_iff (by omega)).2 ⟨q,rfl,hn'⟩
        obtain ⟨hnn,hij⟩ := T.once _ n i _ n' j Tn Tn' (by omega) (by omega) i.isLt j.isLt
          hpres hpres' (haddr.trans haddr'.symm)
        rw [← hnn] at hn'
        rw [ih q n (by omega) (by omega) hn hn', Fin.ext hij]

theorem TreeAt.shaped (T : TreeAt m r) : TreeShaped m r where
  frame d a hT := by
    obtain ⟨p,hp,hn⟩ := (table_page_iff (table_page_depth hT)).1 hT
    exact T.frame p a (by rw [hp]; exact table_page_depth hT) hn
  root d a i hT hd hi hp haddr := by
    obtain ⟨p,hlen,hn⟩ := (table_page_iff (by omega)).1 (.child hT hd hi hp)
    rw [haddr] at hn
    have h := T.inj p [] r (by omega) (Nat.zero_le 3) hn rfl
    rw [h] at hlen
    cases hlen
  once d a i d' a' i' hT hT' hd hd' hi hi' hp hp' haddr := by
    obtain ⟨q,hq,hn⟩ := (table_page_iff (by omega)).1 hT
    obtain ⟨q',hq',hn'⟩ := (table_page_iff (by omega)).1 hT'
    have hc : node m r (q++[⟨i,hi⟩]) = some (PTE_ADDR (entry m a i)) := by
      rw [node_snoc, word_node hn]
      exact if_pos hp
    have hc' : node m r (q'++[⟨i',hi'⟩]) = some (PTE_ADDR (entry m a i)) := by
      rw [node_snoc, word_node hn', haddr]
      exact if_pos hp'
    have h := T.inj _ _ _ (by simp; omega) (by simp; omega) hc hc'
    obtain ⟨hqq,hii⟩ := List.append_inj' h rfl
    simp only [List.cons.injEq, Fin.mk.injEq, and_true] at hii
    rw [← hqq, hn, Option.some.injEq] at hn'
    exact ⟨hn',hii⟩

end Paths

section Writes

/-- The pages of the tree. -/
def Pages (m : Memory) (r : ℕ) (a : ℕ) : Prop := ∃ d, TablePage m r d a

theorem pages_iff : Pages m r a ↔ ∃ p, p.length ≤ 3 ∧ node m r p = some a := by
  constructor
  · rintro ⟨d,T⟩
    have hd := table_page_depth T
    obtain ⟨p,hp,hn⟩ := (table_page_iff hd).1 T
    exact ⟨p,by omega,hn⟩
  · rintro ⟨p,hp,hn⟩
    exact ⟨p.length,(table_page_iff hp).2 ⟨p,rfl,hn⟩⟩

/-- Entries outside the tree do not matter. -/
theorem nodes_congr (h : ∀ n j, Pages m r n → slot m' n j = slot m n j) (hp : p.length ≤ 3) :
    node m' r p = node m r p := by
  induction p using List.reverseRecOn with
  | nil => rfl
  | append_singleton p i ih =>
    simp only [List.length_append, List.length_singleton] at hp
    have hsame := ih (by omega)
    cases hn : node m r p with
    | none =>
      rw [node_snoc, node_snoc, word_missing hn, word_missing (hsame.trans hn)]
    | some n =>
      rw [node_snoc, node_snoc, word_node hn, word_node (hsame.trans hn),
        h n i (pages_iff.2 ⟨p,by omega,hn⟩)]

theorem words_congr (h : ∀ n j, Pages m r n → slot m' n j = slot m n j) (hq : q.length ≤ 4) :
    word m' r q = word m r q := by
  rcases List.eq_nil_or_concat q with rfl | ⟨p,i,rfl⟩
  · rfl
  · rw [List.concat_eq_append] at hq ⊢
    simp only [List.length_append, List.length_singleton] at hq
    have hsame := nodes_congr h (p := p) (by omega)
    cases hn : node m r p with
    | none => rw [word_missing hn, word_missing (hsame.trans hn)]
    | some n =>
      rw [word_node hn, word_node (hsame.trans hn), h n i (pages_iff.2 ⟨p,by omega,hn⟩)]

theorem TreeAt.congr (T : TreeAt m r) (h : ∀ n j, Pages m r n → slot m' n j = slot m n j) :
    TreeAt m' r where
  frame p c hp hc := T.frame p c hp ((nodes_congr h hp).symm.trans hc)
  inj p p' c hp hp' hc hc' :=
    T.inj p p' c hp hp' ((nodes_congr h hp).symm.trans hc) ((nodes_congr h hp').symm.trans hc')

theorem pages_congr (h : ∀ n j, Pages m r n → slot m' n j = slot m n j) :
    Pages m' r a ↔ Pages m r a := by
  rw [pages_iff, pages_iff]
  refine exists_congr fun p => and_congr_right fun hp => ?_
  rw [nodes_congr h hp]

/-- A page `c` that was not in the tree becomes an empty table below `n`. -/
structure Planted (m m' : Memory) (r n : ℕ) (i : Index) (c : ℕ) : Prop where
  linked : slot m' n i = c+7
  blank : ∀ j, slot m' c j = 0
  others : ∀ x j, Pages m r x → (x ≠ n ∨ j ≠ i) → slot m' x j = slot m x j

theorem link_child (hc : c % 4096 = 0) : scheme.child (c+7) = some c := scheme.child_link c hc

theorem planted_node (T : TreeAt m r) (hp : p.length < 3) (hn : node m r p = some n)
    (habsent : word m r (p++[i]) &&& PTE_P = 0) (hc : c % 4096 = 0) (A : Planted m m' r n i c)
    (hq : q.length ≤ 3) : node m' r q = if q = p++[i] then some c else node m r q := by
  induction q using List.reverseRecOn with
  | nil => rw [if_neg (by simp)]; rfl
  | append_singleton q j ih =>
    simp only [List.length_append, List.length_singleton] at hq
    have hsame := ih (by omega)
    by_cases hqc : q = p++[i]
    · -- below the new table there is nothing, and there was nothing before
      rw [if_pos hqc] at hsame
      have hne : q++[j] ≠ p++[i] := by
        intro h
        have hlen := congrArg List.length h
        rw [hqc] at hlen
        simp at hlen
      have hold : node m r q = none := by
        rw [hqc, node_snoc, child_eq, if_neg (not_not.2 habsent)]
      rw [if_neg hne, node_snoc, node_snoc, word_node hsame, A.blank, word_missing hold]
    · rw [if_neg hqc] at hsame
      by_cases heq : q++[j] = p++[i]
      · obtain ⟨rfl,hj⟩ := List.append_inj' heq rfl
        simp only [List.cons.injEq, and_true] at hj
        subst hj
        rw [if_pos rfl, node_snoc, word_node (hsame.trans hn), A.linked, link_child hc]
      · rw [if_neg heq, node_snoc, node_snoc]
        cases hx : node m r q with
        | none => rw [word_missing hx, word_missing (hsame.trans hx)]
        | some x =>
          rw [word_node hx, word_node (hsame.trans hx),
            A.others x j (pages_iff.2 ⟨q,by omega,hx⟩)]
          by_contra hboth
          rw [not_or, not_not, not_not] at hboth
          have hqp := T.inj q p n (by omega) (by omega) (hboth.1 ▸ hx) hn
          exact heq (by rw [hqp, hboth.2])

theorem planted_word (T : TreeAt m r) (hp : p.length < 3) (hn : node m r p = some n)
    (habsent : word m r (p++[i]) &&& PTE_P = 0) (hc : c % 4096 = 0) (A : Planted m m' r n i c)
    (hq : q.length ≤ 4) : word m' r q = if q = p++[i] then c+7 else word m r q := by
  rcases List.eq_nil_or_concat q with rfl | ⟨q,j,rfl⟩
  · rw [if_neg (by simp)]
    rfl
  · rw [List.concat_eq_append] at hq ⊢
    simp only [List.length_append, List.length_singleton] at hq
    have hsame := planted_node T hp hn habsent hc A (q := q) (by omega)
    by_cases hqc : q = p++[i]
    · rw [if_pos hqc] at hsame
      have hne : q++[j] ≠ p++[i] := by
        intro h
        have hlen := congrArg List.length h
        rw [hqc] at hlen
        simp at hlen
      have hold : node m r q = none := by
        rw [hqc, node_snoc, child_eq, if_neg (not_not.2 habsent)]
      rw [if_neg hne, word_node hsame, A.blank, word_missing hold]
    · rw [if_neg hqc] at hsame
      by_cases heq : q++[j] = p++[i]
      · obtain ⟨rfl,hj⟩ := List.append_inj' heq rfl
        simp only [List.cons.injEq, and_true] at hj
        subst hj
        rw [if_pos rfl, word_node (hsame.trans hn), A.linked]
      · rw [if_neg heq]
        cases hx : node m r q with
        | none => rw [word_missing hx, word_missing (hsame.trans hx)]
        | some x =>
          rw [word_node hx, word_node (hsame.trans hx),
            A.others x j (pages_iff.2 ⟨q,by omega,hx⟩)]
          by_contra hboth
          rw [not_or, not_not, not_not] at hboth
          have hqp := T.inj q p n (by omega) (by omega) (hboth.1 ▸ hx) hn
          exact heq (by rw [hqp, hboth.2])

theorem planted_tree (T : TreeAt m r) (hp : p.length < 3) (hn : node m r p = some n)
    (habsent : word m r (p++[i]) &&& PTE_P = 0) (hc : c % 4096 = 0 ∧ c < 0x200000)
    (hnew : ¬Pages m r c) (A : Planted m m' r n i c) : TreeAt m' r := by
  have hnode := fun q hq => planted_node T hp hn habsent hc.1 A (q := q) hq
  have hold : ∀ q, q.length ≤ 3 → node m r q ≠ some c := fun q hq h =>
    hnew (pages_iff.2 ⟨q,hq,h⟩)
  constructor
  · intro q x hq hx
    rw [hnode q hq] at hx
    by_cases hqc : q = p++[i]
    · rw [if_pos hqc, Option.some.injEq] at hx
      exact hx ▸ hc
    · rw [if_neg hqc] at hx
      exact T.frame q x hq hx
  · intro q q' x hq hq' hx hx'
    rw [hnode q hq] at hx
    rw [hnode q' hq'] at hx'
    by_cases hqc : q = p++[i]
    · rw [if_pos hqc, Option.some.injEq] at hx
      by_cases hqc' : q' = p++[i]
      · rw [hqc, hqc']
      · rw [if_neg hqc', ← hx] at hx'
        exact absurd hx' (hold q' hq')
    · rw [if_neg hqc] at hx
      by_cases hqc' : q' = p++[i]
      · rw [if_pos hqc', Option.some.injEq] at hx'
        rw [← hx'] at hx
        exact absurd hx (hold q hq)
      · rw [if_neg hqc'] at hx'
        exact T.inj q q' x hq hq' hx hx'

/-- Writing an entry of a lowest table changes no table. -/
theorem written_node (T : TreeAt m r) (hp : p.length = 3) (hn : node m r p = some n) (i : Index)
    (v : ℕ) (hq : q.length ≤ 3) : node (setEntry m n i v) r q = node m r q := by
  induction q using List.reverseRecOn with
  | nil => rfl
  | append_singleton q j ih =>
    simp only [List.length_append, List.length_singleton] at hq
    have hsame := ih (by omega)
    rw [node_snoc, node_snoc]
    cases hx : node m r q with
    | none => rw [word_missing hx, word_missing (hsame.trans hx)]
    | some x =>
      rw [word_node hx, word_node (hsame.trans hx)]
      have hne : x ≠ n := by
        rintro rfl
        have hqp := T.inj q p x (by omega) (by omega) hx hn
        rw [hqp] at hq
        omega
      have hkeep : slot (setEntry m n i v) x j = slot m x j :=
        entry_setEntry_other m n i v x j (T.frame p n (by omega) hn).1
          (T.frame q x (by omega) hx).1 i.isLt j.isLt (Or.inl hne)
      rw [hkeep]

theorem written_word (T : TreeAt m r) (hp : p.length = 3) (hn : node m r p = some n) {v : ℕ}
    (hv : v < 2^64) (hq : q.length ≤ 4) :
    word (setEntry m n i v) r q = if q = p++[i] then v else word m r q := by
  rcases List.eq_nil_or_concat q with rfl | ⟨q,j,rfl⟩
  · rw [if_neg (by simp)]
    rfl
  · rw [List.concat_eq_append] at hq ⊢
    simp only [List.length_append, List.length_singleton] at hq
    have hsame := written_node T hp hn i v (q := q) (by omega)
    by_cases heq : q++[j] = p++[i]
    · obtain ⟨rfl,hj⟩ := List.append_inj' heq rfl
      simp only [List.cons.injEq, and_true] at hj
      subst hj
      rw [if_pos rfl, word_node (hsame.trans hn)]
      exact entry_setEntry m n j v hv
    · rw [if_neg heq]
      cases hx : node m r q with
      | none => rw [word_missing hx, word_missing (hsame.trans hx)]
      | some x =>
        rw [word_node hx, word_node (hsame.trans hx)]
        refine entry_setEntry_other m n i v x j (T.frame p n (by omega) hn).1
          (T.frame q x (by omega) hx).1 i.isLt j.isLt ?_
        by_contra hboth
        rw [not_or, not_not, not_not] at hboth
        have hqp := T.inj q p n (by omega) (by omega) (hboth.1 ▸ hx) hn
        exact heq (by rw [hqp, Fin.ext hboth.2])

theorem written_tree (T : TreeAt m r) (hp : p.length = 3) (hn : node m r p = some n) (i : Index)
    (v : ℕ) : TreeAt (setEntry m n i v) r where
  frame q x hq hx := T.frame q x hq ((written_node T hp hn i v hq).symm.trans hx)
  inj q q' x hq hq' hx hx' := T.inj q q' x hq hq' ((written_node T hp hn i v hq).symm.trans hx)
    ((written_node T hp hn i v hq').symm.trans hx')

theorem written_pages (T : TreeAt m r) (hp : p.length = 3) (hn : node m r p = some n) (i : Index)
    (v : ℕ) : Pages (setEntry m n i v) r a ↔ Pages m r a := by
  rw [pages_iff, pages_iff]
  refine exists_congr fun q => and_congr_right fun hq => ?_
  rw [written_node T hp hn i v hq]

end Writes

section Lookup

/-- What a lookup makes of the words on the path of an address. -/
def view (w : List Index → ℕ) (va : ℕ) : vamapping :=
  let e0 := w [index va 0]
  let e1 := w [index va 0,index va 1]
  let e2 := w [index va 0,index va 1,index va 2]
  let e3 := w [index va 0,index va 1,index va 2,index va 3]
  if e0 &&& PTE_P ≠ 0 ∧ e1 &&& PTE_P ≠ 0 ∧ e2 &&& PTE_P ≠ 0 ∧ e3 &&& PTE_P ≠ 0 then
    ⟨PAGENUMBER e3,PTE_ADDR e3+PAGEOFFSET va,7 &&& PTE_FLAGS e0 &&& PTE_FLAGS e1 &&&
      PTE_FLAGS e2 &&& PTE_FLAGS e3⟩
  else .unmapped

theorem flags_present (x e : ℕ) (h : x &&& PTE_P ≠ 0) :
    x &&& PTE_FLAGS e &&& PTE_P ≠ 0 ↔ e &&& PTE_P ≠ 0 := by
  have hbit : ∀ a, a &&& PTE_P ≠ 0 ↔ a.testBit 0 = true := fun a => by
    rw [present_iff, Nat.testBit_zero, decide_eq_true_iff]
  have hmask : Nat.testBit 0xFFF 0 = true := by decide
  rw [hbit] at h
  rw [hbit, hbit, PTE_FLAGS, Nat.testBit_and, Nat.testBit_and, h, hmask, Bool.and_true,
    Bool.true_and]

variable {va pt pe perms l : ℕ} {levels : List ℕ}

theorem loop_stop (h : ¬perms &&& PTE_P ≠ 0) :
    virtual_memory_lookup_loop m va levels pt pe perms = (pe,perms) := by
  cases levels with
  | nil => rfl
  | cons l levels => rw [virtual_memory_lookup_loop, if_pos (not_not.1 h)]

theorem loop_step (h : perms &&& PTE_P ≠ 0) :
    virtual_memory_lookup_loop m va (l::levels) pt pe perms =
      virtual_memory_lookup_loop m va levels (PTE_ADDR (slot m pt (index va l)))
        (slot m pt (index va l)) (perms &&& PTE_FLAGS (slot m pt (index va l))) := by
  rw [virtual_memory_lookup_loop, if_neg h]
  rfl

theorem word_cons (h : slot m r i &&& PTE_P ≠ 0) (j : Index) (p : List Index) :
    word m r (i::j::p) = word m (PTE_ADDR (slot m r i)) (j::p) := by
  rw [word, leaf, child_eq, if_pos h]

theorem lookup_view (m : Memory) (r va : ℕ) :
    virtual_memory_lookup m r va = view (word m r) va := by
  have hperms : PTE_W ||| PTE_U ||| PTE_P = 7 := rfl
  have h7 : 7 &&& PTE_P ≠ 0 := by decide
  rw [virtual_memory_lookup, hperms, loop_step h7]
  have h0 : word m r [index va 0] = slot m r (index va 0) := rfl
  by_cases p0 : slot m r (index va 0) &&& PTE_P ≠ 0
  swap
  · have hstop := mt (flags_present 7 _ h7).1 p0
    rw [loop_stop hstop]
    simp only [if_neg hstop, view, h0, p0, false_and, if_false]
  have q0 := (flags_present 7 _ h7).2 p0
  rw [loop_step q0]
  have h1 : word m r [index va 0,index va 1] =
      slot m (PTE_ADDR (slot m r (index va 0))) (index va 1) := word_cons p0 _ _
  by_cases p1 : slot m (PTE_ADDR (slot m r (index va 0))) (index va 1) &&& PTE_P ≠ 0
  swap
  · have hstop := mt (flags_present _ _ q0).1 p1
    rw [loop_stop hstop]
    simp only [if_neg hstop, view, h0, h1, p1, false_and, and_false, if_false]
  have q1 := (flags_present _ _ q0).2 p1
  rw [loop_step q1]
  have h2 : word m r [index va 0,index va 1,index va 2] = slot m (PTE_ADDR
      (slot m (PTE_ADDR (slot m r (index va 0))) (index va 1))) (index va 2) := by
    rw [word_cons p0, word_cons p1]
    rfl
  have h3 : ∀ j, word m r [index va 0,index va 1,index va 2,j] =
      word m (PTE_ADDR (slot m (PTE_ADDR (slot m r (index va 0))) (index va 1)))
        [index va 2,j] := fun j => by
    rw [word_cons p0, word_cons p1]
  generalize slot m (PTE_ADDR (slot m r (index va 0))) (index va 1) = e1 at h1 h2 h3 p1 q1 ⊢
  by_cases p2 : slot m (PTE_ADDR e1) (index va 2) &&& PTE_P ≠ 0
  swap
  · have hstop := mt (flags_present _ _ q1).1 p2
    rw [loop_stop hstop]
    simp only [if_neg hstop, view, h0, h1, h2, p2, false_and, and_false, if_false]
  have q2 := (flags_present _ _ q1).2 p2
  have h4 : word m r [index va 0,index va 1,index va 2,index va 3] =
      slot m (PTE_ADDR (slot m (PTE_ADDR e1) (index va 2))) (index va 3) := by
    rw [h3, word_cons p2]
    rfl
  rw [loop_step q2]
  by_cases p3 : slot m (PTE_ADDR (slot m (PTE_ADDR e1) (index va 2))) (index va 3) &&& PTE_P ≠ 0
  · have q3 := (flags_present _ _ q2).2 p3
    simp only [virtual_memory_lookup_loop, view, h0, h1, h2, h4]
    rw [if_pos ⟨p0,p1,p2,p3⟩]
    exact if_pos q3
  · have hstop := mt (flags_present _ _ q2).1 p3
    simp only [virtual_memory_lookup_loop, view, h0, h1, h2, h4, p3, and_false, if_false]
    exact if_neg hstop

end Lookup

/-- Tables each of which links only to the next. -/
structure TableChain (m : Memory) (table slot : ℕ → ℕ) : Prop where
  frame : ∀ d ≤ 3, table d % PAGESIZE = 0 ∧ table d < MEMSIZE_PHYSICAL
  apart : ∀ d ≤ 3, ∀ d' ≤ 3, table d = table d' → d = d'
  link : ∀ d < 3, ∀ i < NPAGETABLEENTRIES,
    entry m (table d) i = if i = slot d then table (d+1)+7 else 0

section Chains

variable {m : Memory} {table slot : ℕ → ℕ} {d a i : ℕ}

theorem TableChain.next (H : TableChain m table slot) (hd : d < 3) (hi : i < NPAGETABLEENTRIES)
    (hp : entry m (table d) i &&& PTE_P ≠ 0) :
    i = slot d ∧ PTE_ADDR (entry m (table d) i) = table (d+1) := by
  rw [H.link d hd i hi] at hp ⊢
  by_cases h : i = slot d
  · obtain ⟨halign,-⟩ := H.frame (d+1) hd
    simp only [PAGESIZE] at halign
    rw [if_pos h, pte_addr_eq]
    exact ⟨h,by omega⟩
  · rw [if_neg h] at hp
    exact absurd rfl hp

theorem TableChain.page (H : TableChain m table slot) (T : TablePage m (table 0) d a) :
    d ≤ 3 ∧ a = table d := by
  induction T with
  | root => exact ⟨Nat.zero_le 3,rfl⟩
  | child T hd hi hp ih =>
    obtain ⟨-,rfl⟩ := ih
    exact ⟨hd,(H.next hd hi hp).2⟩

theorem TableChain.tree (H : TableChain m table slot) : TreeShaped m (table 0) where
  frame d a T := by
    obtain ⟨hd,rfl⟩ := H.page T
    exact H.frame d hd
  root d a i T hd hi hp h := by
    obtain ⟨-,rfl⟩ := H.page T
    rw [(H.next hd hi hp).2] at h
    exact absurd (H.apart _ hd 0 (Nat.zero_le 3) h) (Nat.succ_ne_zero d)
  once d a i d' a' i' T T' hd hd' hi hi' hp hp' h := by
    obtain ⟨-,rfl⟩ := H.page T
    obtain ⟨-,rfl⟩ := H.page T'
    obtain ⟨hslot,haddr⟩ := H.next hd hi hp
    obtain ⟨hslot',haddr'⟩ := H.next hd' hi' hp'
    rw [haddr, haddr'] at h
    have hsame : d = d' := Nat.succ_inj.1 (H.apart _ hd _ hd' h)
    subst hsame
    exact ⟨rfl,hslot.trans hslot'.symm⟩

/-- What the last table maps does not matter. -/
theorem TableChain.write (H : TableChain m table slot) (hi : i < NPAGETABLEENTRIES) (v : ℕ) :
    TableChain (setEntry m (table 3) i v) table slot where
  frame := H.frame
  apart := H.apart
  link d hd j hj := by
    have hne : table d ≠ table 3 := fun h =>
      absurd (H.apart d hd.le 3 le_rfl h) hd.ne
    rw [entry_setEntry_other m (table 3) i v (table d) j (H.frame 3 le_rfl).1 (H.frame d hd.le).1
      hi hj (Or.inl hne)]
    exact H.link d hd j hj

end Chains

end WeensyOS.TreeTables
