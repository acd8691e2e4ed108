import WeensyOS.PageTables
import WeensyOS.RadixForest

/-!
# Page-table words and the forest they form

The arithmetic of page-table entries, and the page tables of the machine as
radix trees of depth three whose nodes are page addresses. A lookup is then a
function of one leaf word.
-/

set_option autoImplicit false

namespace WeensyOS.TableWords
open WeensyOS.FlatMemory WeensyOS.KernelState WeensyOS.PageTables WeensyOS.RadixForest

theorem shift_page (a : ℕ) : a >>> PAGEOFFBITS = a / 4096 :=
  Nat.shiftRight_eq_div_pow a 12

theorem pte_addr_eq (e : ℕ) : PTE_ADDR e = e / 4096 * 4096 := by
  rw [PTE_ADDR, shift_page]
  exact Nat.shiftLeft_eq _ 12

theorem pte_flags_eq (e : ℕ) : PTE_FLAGS e = e % 4096 :=
  Nat.and_two_pow_sub_one_eq_mod e 12

theorem pageoffset_eq (a : ℕ) : PAGEOFFSET a = a % 4096 :=
  Nat.and_two_pow_sub_one_eq_mod a 12

theorem pageindex_eq (a l : ℕ) : pageindex a l = a / 2^(12+(3-l)*9) % 512 := by
  rw [pageindex, Nat.shiftRight_eq_div_pow]
  exact Nat.and_two_pow_sub_one_eq_mod _ 9

theorem pageindex_lt (a l : ℕ) : pageindex a l < 512 := by
  rw [pageindex_eq]
  exact Nat.mod_lt _ (by decide)

theorem toInt32_small (n : ℕ) (h : n < 2^31) : toInt32 n = n := by
  apply Int.bmod_eq_of_le
  · omega
  · omega

theorem pagenumber_eq (a : ℕ) (h : a < 2^43) : PAGENUMBER a = (a / 4096 : ℕ) := by
  rw [PAGENUMBER, shift_page]
  exact toInt32_small _ (by omega)

theorem present_iff (e : ℕ) : e &&& PTE_P ≠ 0 ↔ e % 2 = 1 := by
  rw [Nat.and_one_is_mod]
  omega

theorem writable_iff (e : ℕ) : e &&& PTE_W ≠ 0 ↔ e / 2 % 2 = 1 := by
  have h := Nat.and_two_pow e 1
  rw [Nat.testBit_eq_decide_div_mod_eq] at h
  change e &&& 2^1 ≠ 0 ↔ _
  rw [h]
  simp

theorem user_iff (e : ℕ) : e &&& PTE_U ≠ 0 ↔ e / 4 % 2 = 1 := by
  have h := Nat.and_two_pow e 2
  rw [Nat.testBit_eq_decide_div_mod_eq] at h
  change e &&& 2^2 ≠ 0 ↔ _
  rw [h]
  simp

/-- Flags occupy the bits below a page-aligned address. -/
theorem or_flags (a f : ℕ) (ha : a % 4096 = 0) (hf : f < 4096) : a ||| f = a+f := by
  have h := Nat.two_pow_add_eq_or_of_lt (i := 12) hf (a / 4096)
  have hmul : 2^12*(a / 4096) = a := by omega
  rw [hmul] at h
  exact h.symm

theorem link_word (a : ℕ) (ha : a % 4096 = 0) :
    PTE_ADDR a ||| PTE_P ||| PTE_W ||| PTE_U = a+7 := by
  have haddr : PTE_ADDR a = a := by rw [pte_addr_eq]; omega
  rw [haddr, Nat.or_assoc, Nat.or_assoc]
  exact or_flags a 7 ha (by decide)

theorem perms_word (e : ℕ) : 7 &&& PTE_FLAGS e = e % 8 := by
  rw [pte_flags_eq, Nat.and_comm]
  have h := Nat.and_two_pow_sub_one_eq_mod (e % 4096) 3
  simp only [Nat.reducePow, Nat.reduceSub] at h
  omega

section Entries

variable (m : Memory) (pt i : ℕ)

theorem entry_setEntry (v : ℕ) (hv : v < 2^64) : entry (setEntry m pt i v) pt i = v :=
  load64_store64 m _ v hv

theorem entry_setEntry_other (v pt' i' : ℕ) (hpt : pt % 4096 = 0) (hpt' : pt' % 4096 = 0)
    (hi : i < 512) (hi' : i' < 512) (hne : pt' ≠ pt ∨ i' ≠ i) :
    entry (setEntry m pt i v) pt' i' = entry m pt' i' :=
  load64_congr (store64_agree m _ v _ 8 (by omega))

/-- An entry only depends on its own page. -/
theorem entry_congr {m' : Memory} (hi : i < 512) (h : Agree m m' pt 4096) :
    entry m' pt i = entry m pt i :=
  load64_congr fun k hk => by simpa [add_assoc] using h (8*i+k) (by omega)

theorem entry_memset (hi : i < 512) : entry (LibC.memset m pt 0 4096) pt i = 0 := by
  rw [LibC.memset_fill]
  exact load64_fill_zero m pt 4096 _ (by omega) (by omega)

end Entries

theorem entry_setEntry_if {m : Memory} {pt i pt' i' v : ℕ} (hpt : pt % 4096 = 0)
    (hpt' : pt' % 4096 = 0) (hi : i < 512) (hi' : i' < 512) (hv : v < 2^64) :
    entry (setEntry m pt i v) pt' i' = if pt' = pt ∧ i' = i then v else entry m pt' i' := by
  by_cases h : pt' = pt ∧ i' = i
  · obtain ⟨rfl,rfl⟩ := h
    rw [if_pos ⟨rfl,rfl⟩, entry_setEntry m pt' i' v hv]
  · rw [if_neg h]
    exact entry_setEntry_other m pt i v pt' i' hpt hpt' hi hi' (by
      by_contra hboth
      rw [not_or, not_not, not_not] at hboth
      exact h hboth)

/-- Writing an entry touches one page only. -/
theorem setEntry_agree (m : Memory) (pt i v p : ℕ) (hi : i < 512) (hpt : pt % 4096 = 0)
    (hp : p % 4096 = 0) (hne : p ≠ pt) : Agree m (setEntry m pt i v) p 4096 :=
  store64_agree m _ v p 4096 (by omega)

theorem memset_agree (m : Memory) (pt p : ℕ) (c : UInt8) (hpt : pt % 4096 = 0)
    (hp : p % 4096 = 0) (hne : p ≠ pt) : Agree m (LibC.memset m pt c 4096) p 4096 := by
  rw [LibC.memset_fill]
  exact fill_agree m pt c 4096 p 4096 (by omega)

/-- Tables are page-aligned, and an inner entry is zero or a table's address
with the flags `PTE_P|PTE_W|PTE_U`. -/
def scheme : Scheme ℕ ℕ where
  depth := 3
  empty := 0
  link n := n+7
  child e := if e &&& PTE_P ≠ 0 then some (PTE_ADDR e) else none
  Valid n := n % 4096 = 0
  child_empty := rfl
  child_link n hn := by
    have hp : (n+7) &&& PTE_P ≠ 0 := (present_iff _).2 (by omega)
    have ha : PTE_ADDR (n+7) = n := by rw [pte_addr_eq]; omega
    rw [if_pos hp, ha]

@[simp] theorem scheme_depth : scheme.depth = 3 := rfl
@[simp] theorem scheme_empty : scheme.empty = 0 := rfl
@[simp] theorem scheme_link (n : ℕ) : scheme.link n = n+7 := rfl

abbrev Index := Fin 512

def slot (m : Memory) (n : ℕ) (i : Index) : ℕ := entry m n i.val

def index (va l : ℕ) : Index := ⟨pageindex va l,pageindex_lt va l⟩

@[simp] theorem index_val (va l : ℕ) : (index va l).val = pageindex va l := rfl

/-- The path of a virtual address: three links and the leaf. -/
def indices (va : ℕ) : List Index := [0,1,2,3].map (index va)

def tableIndices (va : ℕ) : List Index := [0,1,2].map (index va)

theorem indices_snoc (va : ℕ) : indices va = tableIndices va ++ [index va 3] := rfl

@[simp] theorem indices_length (va : ℕ) : (indices va).length = 4 := rfl
@[simp] theorem tableIndices_length (va : ℕ) : (tableIndices va).length = 3 := rfl

/-- The virtual page of an address, as far as the tables decode it. -/
def vpage (va : ℕ) : ℕ := va % 2^48 / 4096

theorem indices_eq_iff (va va' : ℕ) : indices va = indices va' ↔ vpage va = vpage va' := by
  simp only [indices, List.map_cons, List.map_nil, List.cons.injEq, and_true, index,
    Fin.mk.injEq, pageindex_eq, vpage]
  norm_num
  omega

theorem tableIndices_eq_iff (va va' : ℕ) :
    tableIndices va = tableIndices va' ↔ vpage va / 512 = vpage va' / 512 := by
  simp only [tableIndices, List.map_cons, List.map_nil, List.cons.injEq, and_true, index,
    Fin.mk.injEq, pageindex_eq, vpage]
  norm_num
  omega

/-- Every path of four indices belongs to a virtual address. -/
theorem exists_indices (p : List Index) (h : p.length = 4) :
    ∃ va, va < 2^48 ∧ va % 4096 = 0 ∧ indices va = p := by
  match p, h with
  | [a,b,c,d], _ =>
    have ha := a.isLt
    have hb := b.isLt
    have hc := c.isLt
    have hd := d.isLt
    refine ⟨((a.val*512+b.val)*512+c.val)*2097152+d.val*4096,?_,?_,?_⟩
    · omega
    · omega
    · simp only [indices, List.map_cons, List.map_nil, List.cons.injEq, and_true, index,
        Fin.ext_iff, pageindex_eq]
      norm_num
      omega

/-- The leaf word of a virtual address in the tree of a root. -/
def leafWord (m : Memory) (r va : ℕ) : ℕ := leaf scheme (slot m) r (indices va)

theorem leafWord_congr_page {m : Memory} {r va va' : ℕ} (h : vpage va = vpage va') :
    leafWord m r va = leafWord m r va' := by
  rw [leafWord, leafWord, (indices_eq_iff va va').2 h]

/-- What a leaf word says about an address. -/
def leafMapping (e va : ℕ) : vamapping :=
  if e &&& PTE_P ≠ 0 then ⟨PAGENUMBER e,PTE_ADDR e+PAGEOFFSET va,e % 8⟩ else .unmapped

section Lookup

variable {roots : ℤ → Option ℕ} {m : Memory} {label : ℕ → Option (Place ℤ Index)}

/-- With every permission still granted, the rest of the walk ends in the leaf. -/
theorem lookup_loop (F : Forest scheme roots (slot m) label) (va : ℕ) (levels : List ℕ)
    {n : ℕ} {o : ℤ} {q : List Index} (hn : label n = some ⟨o,q⟩)
    (hlen : q.length+levels.length = 4) (pe : ℕ) (hne : levels ≠ []) :
    let e := leaf scheme (slot m) n (levels.map (index va))
    let res := virtual_memory_lookup_loop m va levels n pe 7
    (res.2 &&& PTE_P ≠ 0 ↔ e &&& PTE_P ≠ 0) ∧ (e &&& PTE_P ≠ 0 → res = (e,e % 8)) := by
  induction levels generalizing n q pe with
  | nil => exact absurd rfl hne
  | cons l levels ih =>
    have hstep : virtual_memory_lookup_loop m va (l::levels) n pe 7 =
        virtual_memory_lookup_loop m va levels (PTE_ADDR (slot m n (index va l)))
          (slot m n (index va l)) (slot m n (index va l) % 8) := by
      rw [virtual_memory_lookup_loop, if_neg (by decide), ← perms_word]
      rfl
    simp only [hstep]
    cases levels with
    | nil =>
      simp only [virtual_memory_lookup_loop, List.map_cons, List.map_nil, leaf, present_iff]
      exact ⟨by omega,fun _ => trivial⟩
    | cons l' levels =>
      simp only [List.length_cons] at hlen
      rcases F.child n o q (index va l) hn (by simp; omega) with h | ⟨c,hc,hl⟩
      · -- an absent link: the walk stops, and the leaf is empty
        simp only [scheme_empty] at h
        have hchild : scheme.child 0 = none := scheme.child_empty
        simp [h, leaf, hchild, virtual_memory_lookup_loop]
      · have hv := F.valid c _ hl
        have hchild := scheme.child_link c hv
        have haddr : PTE_ADDR (c+7) = c := by
          change c % 4096 = 0 at hv
          rw [pte_addr_eq]
          omega
        have hperm : (c+7) % 8 = 7 := by
          change c % 4096 = 0 at hv
          omega
        have hrest := ih hl (by simp; omega) (c+7) (by simp)
        simp only [scheme_link] at hc hchild
        simpa [hc, leaf, hchild, haddr, hperm] using hrest

/-- A lookup reads the leaf: the inner entries grant every permission. -/
theorem virtual_memory_lookup_eq (F : Forest scheme roots (slot m) label) {r : ℕ} {o : ℤ}
    (hr : label r = some ⟨o,[]⟩) (va : ℕ) :
    virtual_memory_lookup m r va = leafMapping (leafWord m r va) va := by
  obtain ⟨hiff,hres⟩ := lookup_loop F va [0,1,2,3] hr (by simp) 0 (by simp)
  change _ ↔ leafWord m r va &&& PTE_P ≠ 0 at hiff
  change leafWord m r va &&& PTE_P ≠ 0 → _ = (leafWord m r va,leafWord m r va % 8) at hres
  have hperms : PTE_W ||| PTE_U ||| PTE_P = 7 := rfl
  simp only [virtual_memory_lookup, leafMapping, hperms]
  by_cases hp : leafWord m r va &&& PTE_P ≠ 0
  · rw [if_pos (hiff.2 hp), if_pos hp, hres hp]
  · rw [if_neg (fun hq => hp (hiff.1 hq)), if_neg hp]

end Lookup

end WeensyOS.TableWords
