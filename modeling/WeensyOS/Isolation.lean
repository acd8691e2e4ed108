import WeensyOS.KernelInvariant

/-!
# Private address spaces

What a run keeps when processes only ask for pages of the user window: below
`PROC_START_ADDR` every address space is the kernel's, above it each mapped
page is a private frame of its owner, and no frame is mapped twice. `Reached`
is the converse: each page of a process is one of its tables or is mapped.
-/

set_option autoImplicit false

namespace WeensyOS.Isolation
open WeensyOS.FlatMemory WeensyOS.KernelState WeensyOS.PageTables
open WeensyOS.RadixForest WeensyOS.TableWords WeensyOS.FreePages WeensyOS.PagingInvariant
open WeensyOS.TableCopies WeensyOS.ForkCopies WeensyOS.KernelInvariant

/-- Every process sees the kernel's own mapping below `PROC_START_ADDR`. -/
def LowKept (roots : ℤ → Option ℕ) (s : KState) : Prop :=
  ∀ o r, ProcOwner o → roots o = some r → ∀ va, vpage va < 256 →
    leafWord s.mem r va = kernelWord va

/-- The page at `a` is a frame of `o` and not a page table. -/
def OwnFrame (label : Labels) (s : KState) (o : ℤ) (a : ℕ) : Prop :=
  Frame a ∧ label a = none ∧ s.pageinfo (a / 4096) = ⟨o,1⟩

structure Isolated (roots : ℤ → Option ℕ) (label : Labels) (s : KState) : Prop where
  low : LowKept roots s
  high : ∀ o r, ProcOwner o → roots o = some r → ∀ va, 256 ≤ vpage va →
    leafWord s.mem r va ≠ 0 → vpage va < 768 ∧ ∃ a, leafWord s.mem r va = a+7 ∧
      OwnFrame label s o a
  inj : ∀ o r, ProcOwner o → roots o = some r → ∀ va va', 256 ≤ vpage va → 256 ≤ vpage va' →
    leafWord s.mem r va ≠ 0 → leafWord s.mem r va = leafWord s.mem r va' → vpage va = vpage va'

def Reached (roots : ℤ → Option ℕ) (label : Labels) (s : KState) : Prop :=
  ∀ pn < 512, ∀ o, ProcOwner o → s.pageinfo pn = ⟨o,1⟩ → (∃ q, label (pn*4096) = some q) ∨
    ∃ r va, roots o = some r ∧ 256 ≤ vpage va ∧ leafWord s.mem r va = pn*4096+7

/-- The initial stack page is mapped in every address space. -/
def StackMapped (roots : ℤ → Option ℕ) (s : KState) : Prop :=
  ∀ o r, ProcOwner o → roots o = some r → leafWord s.mem r (MEMSIZE_VIRTUAL-PAGESIZE) ≠ 0

variable {K : KernelImage} {roots : ℤ → Option ℕ} {o : ℤ} {label label' : Labels} {c : ℕ}
  {s s' : KState} {r va f : ℕ}

theorem OwnFrame.mono {a : ℕ} {o' : ℤ} (h : OwnFrame label s o' a) (ho' : ProcOwner o')
    (G : Grows o label label' c s s') : OwnFrame label' s' o' a := by
  obtain ⟨ha,hnone,hinfo⟩ := h
  have hused : a / 4096 ∉ freePages s := by
    rw [mem_freePages, hinfo]
    exact fun h => info_ne_free _ h.2
  have hu : UserFrame label s a := ⟨hnone,o',ho',hinfo⟩
  exact ⟨ha,(hu.mono G).1,by rw [G.pageinfo_used hused, hinfo]⟩

/-- The address spaces of `s'` are those of `s`. -/
def SameLeaves (roots : ℤ → Option ℕ) (s s' : KState) : Prop :=
  ∀ o r va, roots o = some r → leafWord s'.mem r va = leafWord s.mem r va

/-- They differ at one page of `o`, which is now the frame `f`. -/
def OneLeaf (roots : ℤ → Option ℕ) (o : ℤ) (va f : ℕ) (s s' : KState) : Prop :=
  ∀ o' r va', roots o' = some r → leafWord s'.mem r va' =
    if o' = o ∧ vpage va' = vpage va then f*4096+7 else leafWord s.mem r va'

section LowKept

theorem LowKept.same (L : LowKept roots s) (h : SameLeaves roots s s') : LowKept roots s' := by
  intro o r ho hr va hva
  rw [h o r va hr, L o r ho hr va hva]

theorem LowKept.map (L : LowKept roots s) (h : OneLeaf roots o va f s s')
    (hva : 256 ≤ vpage va) : LowKept roots s' := by
  intro o' r ho hr va' hva'
  rw [h o' r va' hr, if_neg (by omega), L o' r ho hr va' hva']

theorem LowKept.root (L : LowKept roots s)
    (hold : ∀ o' x va, o' ≠ o → roots o' = some x → leafWord s'.mem x va = leafWord s.mem x va)
    (hnew : ∀ va, vpage va < 256 → leafWord s'.mem r va = kernelWord va) :
    LowKept (Function.update roots o (some r)) s' := by
  intro o' x ho hx va hva
  by_cases hoo : o' = o
  · rw [hoo, Function.update_self, Option.some.injEq] at hx
    rw [← hx, hnew va hva]
  · rw [Function.update_of_ne hoo] at hx
    rw [hold o' x va hoo hx, L o' x ho hx va hva]

end LowKept

namespace Isolated

theorem same (S : Isolated roots label s) (h : SameLeaves roots s s')
    (hframes : ∀ o a, ProcOwner o → OwnFrame label s o a → OwnFrame label' s' o a) :
    Isolated roots label' s' where
  low := S.low.same h
  high o r ho hr va hva hne := by
    rw [h o r va hr] at hne ⊢
    obtain ⟨hmax,a,ha,hf⟩ := S.high o r ho hr va hva hne
    exact ⟨hmax,a,ha,hframes o a ho hf⟩
  inj o r ho hr va va' hva hva' hne heq := by
    rw [h o r va hr] at hne heq
    rw [h o r va' hr] at heq
    exact S.inj o r ho hr va va' hva hva' hne heq

/-- A process gets a frame that was free at a page of the window. -/
theorem map (S : Isolated roots label s) (P : Paging K roots label s) (h : OneLeaf roots o va f s s')
    (hva : 256 ≤ vpage va ∧ vpage va < 768) (hf : f ∈ freePages s)
    (hframes : ∀ o a, ProcOwner o → OwnFrame label s o a → OwnFrame label' s' o a)
    (hnew : OwnFrame label' s' o (f*4096)) : Isolated roots label' s' where
  low := S.low.map h hva.1
  high o' r ho hr va' hva' hne := by
    rw [h o' r va' hr] at hne ⊢
    by_cases hp : o' = o ∧ vpage va' = vpage va
    · rw [if_pos hp]
      exact ⟨by omega,f*4096,rfl,hp.1 ▸ hnew⟩
    · rw [if_neg hp] at hne ⊢
      obtain ⟨hmax,a,ha,hown⟩ := S.high o' r ho hr va' hva' hne
      exact ⟨hmax,a,ha,hframes o' a ho hown⟩
  inj o' r ho hr x x' hx hx' hne heq := by
    have hk : o' ≠ PO_KERNEL := by
      have := ho.1
      simp only [PO_KERNEL]
      omega
    -- a frame that was free is mapped nowhere else
    have hold : ∀ y, leafWord s.mem r y ≠ f*4096+7 := fun y hy => leaf_used P hr hk hy hf
    rw [h o' r x hr] at hne heq
    rw [h o' r x' hr] at heq
    by_cases hp : o' = o ∧ vpage x = vpage va
    · rw [if_pos hp] at heq
      by_cases hp' : o' = o ∧ vpage x' = vpage va
      · rw [hp.2, hp'.2]
      · rw [if_neg hp'] at heq
        exact absurd heq.symm (hold x')
    · rw [if_neg hp] at hne heq
      by_cases hp' : o' = o ∧ vpage x' = vpage va
      · rw [if_pos hp'] at heq
        exact absurd heq (hold x)
      · rw [if_neg hp'] at heq
        exact S.inj o' r ho hr x x' hx hx' hne heq

/-- A process gets its own address space. -/
theorem root (S : Isolated roots label s)
    (hold : ∀ o' x va, o' ≠ o → roots o' = some x → leafWord s'.mem x va = leafWord s.mem x va)
    (hframes : ∀ o a, ProcOwner o → OwnFrame label s o a → OwnFrame label' s' o a)
    (hlow : ∀ va, vpage va < 256 → leafWord s'.mem r va = kernelWord va)
    (hhigh : ∀ va, 256 ≤ vpage va → leafWord s'.mem r va ≠ 0 → vpage va < 768 ∧
      ∃ a, leafWord s'.mem r va = a+7 ∧ OwnFrame label' s' o a)
    (hinj : ∀ va va', 256 ≤ vpage va → 256 ≤ vpage va' → leafWord s'.mem r va ≠ 0 →
      leafWord s'.mem r va = leafWord s'.mem r va' → vpage va = vpage va') :
    Isolated (Function.update roots o (some r)) label' s' where
  low := S.low.root hold hlow
  high o' x ho hx va hva hne := by
    by_cases hoo : o' = o
    · subst hoo
      rw [Function.update_self, Option.some.injEq] at hx
      subst hx
      exact hhigh va hva hne
    · rw [Function.update_of_ne hoo] at hx
      rw [hold o' x va hoo hx] at hne ⊢
      obtain ⟨hmax,a,ha,hown⟩ := S.high o' x ho hx va hva hne
      exact ⟨hmax,a,ha,hframes o' a ho hown⟩
  inj o' x ho hx va va' hva hva' hne heq := by
    by_cases hoo : o' = o
    · subst hoo
      rw [Function.update_self, Option.some.injEq] at hx
      subst hx
      exact hinj va va' hva hva' hne heq
    · rw [Function.update_of_ne hoo] at hx
      rw [hold o' x va hoo hx] at hne heq
      rw [hold o' x va' hoo hx] at heq
      exact S.inj o' x ho hx va va' hva hva' hne heq

end Isolated

namespace Reached

theorem same (R : Reached roots label s) (h : SameLeaves roots s s')
    (hlabel : ∀ n q, label n = some q → label' n = some q)
    (hinfo : OnlyTables label' s s') : Reached roots label' s' := by
  intro pn hpn o ho hp
  rcases hinfo pn with h' | h'
  · rcases R pn hpn o ho (h' ▸ hp) with ⟨q,hq⟩ | ⟨r,va,hr,hva,hw⟩
    · exact Or.inl ⟨q,hlabel _ q hq⟩
    · exact Or.inr ⟨r,va,hr,hva,by rw [h o r va hr, hw]⟩
  · exact Or.inl h'

/-- Nothing is lost when the page was not mapped before. -/
theorem map (R : Reached roots label s) (h : OneLeaf roots o va f s s') (hr : roots o = some r)
    (hva : 256 ≤ vpage va) (hempty : leafWord s.mem r va = 0)
    (hlabel : ∀ n q, label n = some q → label' n = some q)
    (hf : s'.pageinfo f = ⟨o,1⟩)
    (hinfo : ∀ pn, pn ≠ f → s'.pageinfo pn = s.pageinfo pn ∨ ∃ q, label' (pn*4096) = some q) :
    Reached roots label' s' := by
  intro pn hpn o' ho hp
  by_cases hpf : pn = f
  · rw [hpf, hf] at hp
    have hoo : o = o' := congrArg physical_pageinfo.owner hp
    refine Or.inr ⟨r,va,hoo ▸ hr,hva,?_⟩
    rw [h o r va hr, if_pos ⟨rfl,rfl⟩, hpf]
  · rcases hinfo pn hpf with h' | h'
    · rcases R pn hpn o' ho (h' ▸ hp) with ⟨q,hq⟩ | ⟨x,va',hx,hva',hw⟩
      · exact Or.inl ⟨q,hlabel _ q hq⟩
      · refine Or.inr ⟨x,va',hx,hva',?_⟩
        rw [h o' x va' hx, if_neg, hw]
        rintro ⟨rfl,hpage⟩
        rw [hr, Option.some.injEq] at hx
        subst hx
        rw [leafWord_congr_page hpage, hempty] at hw
        omega
    · exact Or.inl h'

theorem root (R : Reached roots label s) (ho : roots o = none)
    (hold : ∀ o' x va, o' ≠ o → roots o' = some x → leafWord s'.mem x va = leafWord s.mem x va)
    (hlabel : ∀ n q, label n = some q → label' n = some q)
    (hpages : ∀ pn, s'.pageinfo pn = s.pageinfo pn ∨ (∃ q, label' (pn*4096) = some q) ∨
      (s'.pageinfo pn = ⟨o,1⟩ ∧ ∃ va, 256 ≤ vpage va ∧ leafWord s'.mem r va = pn*4096+7)) :
    Reached (Function.update roots o (some r)) label' s' := by
  intro pn hpn o' ho' hp
  rcases hpages pn with h | h | ⟨hown,va,hva,hw⟩
  · rcases R pn hpn o' ho' (h ▸ hp) with ⟨q,hq⟩ | ⟨x,va,hx,hva,hw⟩
    · exact Or.inl ⟨q,hlabel _ q hq⟩
    · have hoo : o' ≠ o := by
        rintro rfl
        rw [ho] at hx
        cases hx
      exact Or.inr ⟨x,va,by rw [Function.update_of_ne hoo, hx],hva,by rw [hold o' x va hoo hx, hw]⟩
  · exact Or.inl h
  · rw [hown] at hp
    have hoo : o = o' := congrArg physical_pageinfo.owner hp
    exact Or.inr ⟨r,va,by rw [hoo, Function.update_self],hva,hw⟩

end Reached

section Stores

/-- The page tables keep their bytes. -/
def TablesKept (label : Labels) (s : KState) (m : Memory) : Prop :=
  ∀ n q, label n = some q → Agree s.mem m n 4096

variable {m : Memory}

theorem TablesKept.trans {m' : Memory} (T : TablesKept label s m)
    (T' : TablesKept label { s with mem := m } m') : TablesKept label s m' :=
  fun n q hn => (T n q hn).trans (T' n q hn)

theorem TablesKept.leaves (T : TablesKept label s m) (P : Paging K roots label s) :
    SameLeaves roots s { s with mem := m } := fun o r va hr =>
  P.forest.leaf_congr (P.forest.root o r hr) (by simp) fun n _ i hn =>
    entry_congr _ _ _ i.isLt (T n _ hn)

theorem TablesKept.paging (T : TablesKept label s m) (P : Paging K roots label s) :
    Paging K roots label { s with mem := m } where
  forest := P.forest.frame fun n q i hn => entry_congr _ _ _ i.isLt (T n q hn)
  owned := P.owned
  owners := P.owners
  kernel_root := P.kernel_root
  kernel_leaf va := by
    rw [T.leaves P PO_KERNEL _ va P.kernel_root]
    exact P.kernel_leaf va
  leaves o r va hr hk := by
    rw [T.leaves P o r va hr]
    exact (P.leaves o r va hr hk).imp fun _ h => h
  marked := P.marked
  pages := P.pages

/-- A byte of a page that is not a table. -/
theorem TablesKept.byte (P : Paging K roots label s) {a k : ℕ} (ha : a % 4096 = 0)
    (hnone : label a = none) (hk : k < 4096) (b : UInt8) :
    TablesKept label s (Function.update s.mem (a+k) b) := by
  intro n q hn j hj
  have halign := P.aligned hn
  have hne : n ≠ a := by
    rintro rfl
    rw [hnone] at hn
    cases hn
  exact Function.update_of_ne (by omega) ..

end Stores

end WeensyOS.Isolation
