import WeensyOS.Boot
import WeensyOS.FreePages

/-!
# The paging invariant and its growth

`Paging` ties the physical page table, the forest of page tables and the leaf
words together. `Grows` is what the kernel does to memory while it works for
one owner: it takes free pages, adds tables for that owner and touches no other
page that was in use. Every allocation path is a chain of such steps.
-/

set_option autoImplicit false

namespace WeensyOS.PagingInvariant
open WeensyOS.FlatMemory WeensyOS.KernelState WeensyOS.PageTables WeensyOS.Boot
open WeensyOS.RadixForest WeensyOS.TableWords WeensyOS.FreePages

abbrev Labels := ℕ → Option (Place ℤ Index)

def Frame (a : ℕ) : Prop := a % 4096 = 0 ∧ a < 0x200000

def ProcOwner (o : ℤ) : Prop := 0 < o ∧ o < 16

/-- A frame some process owns that is not a page table. -/
def UserFrame (label : Labels) (s : KState) (a : ℕ) : Prop :=
  label a = none ∧ ∃ pid, ProcOwner pid ∧ s.pageinfo (a / 4096) = ⟨pid,1⟩

/-- Leaf words a process can have. Kernel words and the console lie below
`PROC_START_ADDR`; every other word grants access to a user frame. -/
inductive Leaf (label : Labels) (s : KState) (va : ℕ) : ℕ → Prop where
  | empty : Leaf label s va 0
  | kernel (a : ℕ) (hf : Frame a) (hlow : vpage va < 256) : Leaf label s va (a+3)
  | console (hlow : vpage va < 256) : Leaf label s va (console+7)
  | user (a : ℕ) (hf : Frame a) (hu : UserFrame label s a) : Leaf label s va (a+7)

/-- The kernel's own mapping: the identity on physical memory, for the kernel
alone below `PROC_START_ADDR` except at the console. -/
def kernelWord (va : ℕ) : ℕ :=
  if vpage va < 256 then
    if vpage va = 0xB8 then console+7 else vpage va*4096+3
  else if vpage va < 512 then vpage va*4096+7 else 0

structure Paging (K : KernelImage) (roots : ℤ → Option ℕ) (label : Labels) (s : KState) :
    Prop where
  forest : Forest scheme roots (slot s.mem) label
  owned : ∀ n q, label n = some q → n < 0x200000 ∧ s.pageinfo (n / 4096) = ⟨q.owner,1⟩
  owners : ∀ n q, label n = some q → q.owner = PO_KERNEL ∨ ProcOwner q.owner
  kernel_root : roots PO_KERNEL = some K.kernel_pagetable
  kernel_leaf : ∀ va, leafWord s.mem K.kernel_pagetable va = kernelWord va
  leaves : ∀ o r va, roots o = some r → o ≠ PO_KERNEL → Leaf label s va (leafWord s.mem r va)
  marked : ∀ pn < 512, (pageinfo_init_entry K (pn*4096)).owner ≠ PO_FREE →
    s.pageinfo pn = pageinfo_init_entry K (pn*4096)
  pages : ∀ pn < 512, (pageinfo_init_entry K (pn*4096)).owner = PO_FREE →
    s.pageinfo pn = freeInfo ∨ ∃ pid, ProcOwner pid ∧ s.pageinfo pn = ⟨pid,1⟩

/-- Work for the owner `o` that takes `cost` free pages. -/
structure Grows (o : ℤ) (label label' : Labels) (cost : ℕ) (s s' : KState) : Prop where
  mono : ∀ n q, label n = some q → label' n = some q
  fresh : ∀ n q, label' n = some q → label n = some q ∨ (label n = none ∧ q.owner = o ∧
    s'.pageinfo (n / 4096) = ⟨o,1⟩ ∧ ∃ f ∈ freePages s, n = f*4096)
  pageinfo : ∀ pn, s'.pageinfo pn = s.pageinfo pn ∨
    (pn ∈ freePages s ∧ s'.pageinfo pn = ⟨o,1⟩)
  bytes : ∀ pn, pn ∉ freePages s → (∀ q, label (pn*4096) = some q → q.owner ≠ o) →
    Agree s.mem s'.mem (pn*4096) 4096
  links : ∀ n q i, label n = some q → q.path.length < 3 → slot s.mem n i ≠ 0 →
    slot s'.mem n i = slot s.mem n i
  count : freeCount s'+cost = freeCount s
  rest : s' = { s with
    mem := s'.mem, pageinfo := s'.pageinfo, pagetable_owner := s'.pagetable_owner }

/-- Every page that has changed hands is a page table now. -/
def OnlyTables (label' : Labels) (s s' : KState) : Prop :=
  ∀ pn, s'.pageinfo pn = s.pageinfo pn ∨ ∃ q, label' (pn*4096) = some q

theorem OnlyTables.trans {o : ℤ} {label' label'' : Labels} {c : ℕ} {s s' s'' : KState}
    (T : OnlyTables label' s s') (G : Grows o label' label'' c s' s'')
    (T' : OnlyTables label'' s' s'') : OnlyTables label'' s s'' := by
  intro pn
  rcases T' pn with h' | h'
  · rcases T pn with h | ⟨q,hq⟩
    · exact Or.inl (h'.trans h)
    · exact Or.inr ⟨q,G.mono _ q hq⟩
  · exact Or.inr h'

/-- The state after the page `f` went to `o` and memory changed to `m`. -/
def takePage (s : KState) (f : ℕ) (o : ℤ) (m : Memory) (po : ℤ) : KState :=
  { s.setPageinfo f ⟨o,1⟩ with mem := m, pagetable_owner := po }

section TakePage

variable (s : KState) (f : ℕ) (o : ℤ) (m : Memory) (po : ℤ)

@[simp] theorem takePage_mem : (takePage s f o m po).mem = m := rfl

@[simp] theorem takePage_owner : (takePage s f o m po).pagetable_owner = po := rfl

@[simp] theorem takePage_pageinfo :
    (takePage s f o m po).pageinfo = Function.update s.pageinfo f ⟨o,1⟩ := rfl

@[simp] theorem takePage_processes : (takePage s f o m po).processes = s.processes := rfl

@[simp] theorem takePage_current : (takePage s f o m po).current = s.current := rfl

end TakePage

theorem info_ne_free (o : ℤ) : (⟨o,1⟩ : physical_pageinfo) ≠ freeInfo := by
  simp [freeInfo]

namespace Grows

variable {o : ℤ} {label label' label'' : Labels} {c c' : ℕ} {s s' s'' : KState}

theorem refl (o : ℤ) (label : Labels) (s : KState) : Grows o label label 0 s s where
  mono _ _ h := h
  fresh _ _ h := Or.inl h
  pageinfo _ := Or.inl rfl
  bytes _ _ _ := Agree.refl _ _ _
  links _ _ _ _ _ _ := rfl
  count := Nat.add_zero _
  rest := rfl

theorem processes (G : Grows o label label' c s s') : s'.processes = s.processes := by
  rw [G.rest]

theorem current (G : Grows o label label' c s s') : s'.current = s.current := by
  rw [G.rest]

theorem free_of_free (G : Grows o label label' c s s') {pn : ℕ} (h : pn ∈ freePages s') :
    pn ∈ freePages s := by
  rw [mem_freePages] at h
  rcases G.pageinfo pn with hp | ⟨hp,-⟩
  · exact (mem_freePages s pn).2 ⟨h.1,hp ▸ h.2⟩
  · exact hp

theorem pageinfo_used (G : Grows o label label' c s s') {pn : ℕ} (h : pn ∉ freePages s) :
    s'.pageinfo pn = s.pageinfo pn := by
  rcases G.pageinfo pn with hp | ⟨hp,-⟩
  · exact hp
  · exact absurd hp h

theorem trans (G : Grows o label label' c s s') (G' : Grows o label' label'' c' s' s'') :
    Grows o label label'' (c+c') s s'' where
  mono n q h := G'.mono n q (G.mono n q h)
  fresh n q h := by
    rcases G'.fresh n q h with h' | ⟨hnone,ho,hinfo,f,hf,rfl⟩
    · rcases G.fresh n q h' with h'' | ⟨hnone,ho,hinfo,f,hf,rfl⟩
      · exact Or.inl h''
      · have hused : f*4096 / 4096 ∉ freePages s' := by
          rw [mem_freePages, hinfo]
          exact fun hx => info_ne_free o hx.2
        exact Or.inr ⟨hnone,ho,by rw [G'.pageinfo_used hused, hinfo],f,hf,rfl⟩
    · have hnone' : label (f*4096) = none := by
        cases hl : label (f*4096) with
        | none => rfl
        | some x => rw [G.mono _ _ hl] at hnone; cases hnone
      exact Or.inr ⟨hnone',ho,hinfo,f,G.free_of_free hf,rfl⟩
  pageinfo pn := by
    rcases G'.pageinfo pn with h' | ⟨hf,h'⟩
    · rw [h']
      exact G.pageinfo pn
    · exact Or.inr ⟨G.free_of_free hf,h'⟩
  bytes pn hpn ho := by
    have hpn' : pn ∉ freePages s' := fun h => hpn (G.free_of_free h)
    refine (G.bytes pn hpn ho).trans (G'.bytes pn hpn' ?_)
    intro q hq
    rcases G.fresh _ q hq with h | ⟨-,-,-,f,hf,hpf⟩
    · exact ho q h
    · have hfp : f = pn := by omega
      exact absurd (hfp ▸ hf) hpn
  links n q i hn hq hne := by
    have h := G.links n q i hn hq hne
    rw [← h] at hne
    rw [G'.links n q i (G.mono n q hn) hq hne, h]
  count := by
    have h := G.count
    have h' := G'.count
    omega
  rest := by
    have h := G.rest
    have h' := G'.rest
    rw [h] at h'
    exact h'

theorem card (G : Grows o label label' c s s') : (freePages s \ freePages s').card = c := by
  have hsub : freePages s' ⊆ freePages s := fun _ h => G.free_of_free h
  have hcount := G.count
  rw [freeCount, freeCount] at hcount
  have hcard := Finset.card_sdiff_add_card_eq_card hsub
  omega

/-- Without cost no page changes hands. -/
theorem pageinfo_zero (G : Grows o label label' 0 s s') (pn : ℕ) :
    s'.pageinfo pn = s.pageinfo pn := by
  have hempty := Finset.card_eq_zero.1 G.card
  rcases G.pageinfo pn with h | ⟨hf,h⟩
  · exact h
  · have hmem : pn ∈ freePages s \ freePages s' := by
      refine Finset.mem_sdiff.2 ⟨hf,fun hf' => ?_⟩
      rw [mem_freePages, h] at hf'
      exact info_ne_free o hf'.2
    rw [hempty] at hmem
    exact absurd hmem (Finset.notMem_empty pn)

/-- An owner that had no tables has at most as many as pages were taken. -/
theorem tables_bound (G : Grows o label label' c s s')
    (hnew : ∀ n q, label n = some q → q.owner ≠ o) (paths : Finset (List Index))
    (hpaths : ∀ p ∈ paths, ∃ n, label' n = some ⟨o,p⟩) : paths.card ≤ c := by
  have hpage : ∀ p ∈ paths, ∃ f ∈ freePages s \ freePages s', label' (f*4096) = some ⟨o,p⟩ := by
    intro p hp
    obtain ⟨n,hn⟩ := hpaths p hp
    rcases G.fresh n _ hn with h | ⟨-,-,hinfo,f,hf,rfl⟩
    · exact absurd rfl (hnew n _ h)
    · have hdiv : f*4096 / 4096 = f := by omega
      rw [hdiv] at hinfo
      refine ⟨f,Finset.mem_sdiff.2 ⟨hf,fun h => ?_⟩,hn⟩
      rw [mem_freePages, hinfo] at h
      exact info_ne_free o h.2
  choose! g hg hlabel using hpage
  rw [← G.card]
  refine Finset.card_le_card_of_injOn g hg fun p hp p' hp' heq => ?_
  have h := hlabel p hp
  rw [heq, hlabel p' hp', Option.some.injEq, Place.mk.injEq] at h
  exact h.2.symm

/-- Costs that are equal by arithmetic. -/
theorem cast (G : Grows o label label' c s s') (h : c = c') : Grows o label label' c' s s' :=
  h ▸ G

/-- Taking the free page `f`, and possibly making it a table. -/
theorem alloc {f : ℕ} {m : Memory} {po : ℤ} (hf : f ∈ freePages s)
    (hnone : label (f*4096) = none) (hother : ∀ n, n ≠ f*4096 → label' n = label n)
    (hhere : ∀ q, label' (f*4096) = some q → q.owner = o)
    (hbytes : ∀ pn, pn ≠ f → (∀ q, label (pn*4096) = some q → q.owner ≠ o) →
      Agree s.mem m (pn*4096) 4096)
    (hlinks : ∀ n q i, label n = some q → q.path.length < 3 → slot s.mem n i ≠ 0 →
      slot m n i = slot s.mem n i) :
    Grows o label label' 1 s (takePage s f o m po) where
  mono n q h := by
    have hne : n ≠ f*4096 := by rintro rfl; rw [hnone] at h; cases h
    rw [hother n hne, h]
  fresh n q h := by
    by_cases hne : n = f*4096
    · subst hne
      have hdiv : f*4096 / 4096 = f := by omega
      exact Or.inr ⟨hnone,hhere q h,by simp [hdiv],f,hf,rfl⟩
    · exact Or.inl (hother n hne ▸ h)
  pageinfo pn := by
    by_cases hpn : pn = f
    · subst hpn
      exact Or.inr ⟨hf,by simp⟩
    · exact Or.inl (by simp [hpn])
  bytes pn hpn ho := hbytes pn (fun h => hpn (h ▸ hf)) ho
  links := hlinks
  count := by
    have h := freeCount_setPageinfo s f ⟨o,1⟩ hf (info_ne_free o)
    rw [← h]
    exact congrArg (·+1) (freeCount_congr rfl)
  rest := rfl

/-- Rewriting tables of the owner, their links kept. -/
theorem rewrite {m : Memory} {po : ℤ}
    (hbytes : ∀ pn, (∀ q, label (pn*4096) = some q → q.owner ≠ o) →
      Agree s.mem m (pn*4096) 4096)
    (hlinks : ∀ n q i, label n = some q → q.path.length < 3 → slot s.mem n i ≠ 0 →
      slot m n i = slot s.mem n i) :
    Grows o label label 0 s { s with mem := m, pagetable_owner := po } where
  mono _ _ h := h
  fresh _ _ h := Or.inl h
  pageinfo _ := Or.inl rfl
  bytes pn _ ho := hbytes pn ho
  links := hlinks
  count := (Nat.add_zero _).trans (freeCount_congr rfl)
  rest := rfl

end Grows

namespace Paging

variable {K : KernelImage} {roots : ℤ → Option ℕ} {o : ℤ} {label label' : Labels} {c : ℕ}
  {s s' : KState}

theorem aligned (P : Paging K roots label s) {n : ℕ} {q : Place ℤ Index}
    (h : label n = some q) : n % 4096 = 0 := P.forest.valid n q h

theorem table_used (P : Paging K roots label s) {n : ℕ} {q : Place ℤ Index}
    (h : label n = some q) : n / 4096 ∉ freePages s := by
  rw [mem_freePages, (P.owned n q h).2]
  exact fun hx => info_ne_free _ hx.2

theorem label_free (P : Paging K roots label s) {f : ℕ} (hf : f ∈ freePages s) :
    label (f*4096) = none := by
  cases hl : label (f*4096) with
  | none => rfl
  | some q =>
    have hused := P.table_used hl
    have hdiv : f*4096 / 4096 = f := by omega
    rw [hdiv] at hused
    exact absurd hf hused

theorem zero_info (P : Paging K roots label s) : s.pageinfo 0 = ⟨PO_RESERVED,1⟩ := by
  have hreserved : pageinfo_init_entry K (0*4096) = ⟨PO_RESERVED,1⟩ := rfl
  rw [P.marked 0 (by decide) (by rw [hreserved]; decide), hreserved]

theorem zero_used (P : Paging K roots label s) : 0 ∉ freePages s := by
  rw [mem_freePages, P.zero_info]
  exact fun hx => absurd hx.2 (by decide)

theorem label_ne_zero (P : Paging K roots label s) {n : ℕ} {q : Place ℤ Index}
    (h : label n = some q) (ho : ProcOwner q.owner) : n ≠ 0 := by
  rintro rfl
  have hinfo := (P.owned 0 q h).2
  rw [Nat.zero_div, P.zero_info] at hinfo
  have hq : PO_RESERVED = q.owner := congrArg physical_pageinfo.owner hinfo
  have := ho.1
  simp only [PO_RESERVED] at hq
  omega

/-- A table of another owner keeps its bytes. -/
theorem table_kept (P : Paging K roots label s) (G : Grows o label label' c s s')
    {n : ℕ} {q : Place ℤ Index} (h : label n = some q) (ho : q.owner ≠ o) :
    Agree s.mem s'.mem n 4096 := by
  have halign := P.aligned h
  have hn : n / 4096*4096 = n := by omega
  have hbytes := G.bytes (n / 4096) (P.table_used h) (by
    rw [hn, h]
    rintro x ⟨⟩
    exact ho)
  rwa [hn] at hbytes

/-- A page in use of another owner keeps its bytes. -/
theorem page_kept (P : Paging K roots label s) (G : Grows o label label' c s s') {pn : ℕ}
    (hused : s.pageinfo pn ≠ freeInfo) (ho : (s.pageinfo pn).owner ≠ o) :
    Agree s.mem s'.mem (pn*4096) 4096 := by
  refine G.bytes pn (fun h => hused ((mem_freePages s pn).1 h).2) fun q hq => ?_
  have hdiv : pn*4096 / 4096 = pn := by omega
  have hinfo := (P.owned _ q hq).2
  rw [hdiv] at hinfo
  rw [hinfo] at ho
  exact ho

theorem slot_kept (P : Paging K roots label s) (G : Grows o label label' c s s')
    {n : ℕ} {q : Place ℤ Index} (h : label n = some q) (ho : q.owner ≠ o) (i : Index) :
    slot s'.mem n i = slot s.mem n i :=
  entry_congr _ _ _ i.isLt (P.table_kept G h ho)

/-- The address spaces of other owners are unchanged. -/
theorem leaf_kept (P : Paging K roots label s) (G : Grows o label label' c s s')
    {o' : ℤ} {r : ℕ} (hr : roots o' = some r) (ho : o' ≠ o) (va : ℕ) :
    leafWord s'.mem r va = leafWord s.mem r va :=
  P.forest.leaf_congr (P.forest.root o' r hr) (by simp) fun _ _ i hm => P.slot_kept G hm ho i

theorem walk_kept (P : Paging K roots label s) (G : Grows o label label' c s s')
    {o' : ℤ} {r n : ℕ} {p : List Index} (hr : roots o' = some r) (hp : p.length ≤ 3)
    (hw : walk scheme (slot s.mem) r p = some n) :
    walk scheme (slot s'.mem) r p = some n :=
  P.forest.walk_mono (P.forest.root o' r hr) (by simpa using hp)
    (fun m q i hm hq hne => G.links m _ i hm hq hne) hw

end Paging

theorem UserFrame.mono {o : ℤ} {label label' : Labels} {c : ℕ} {s s' : KState} {a : ℕ}
    (h : UserFrame label s a) (G : Grows o label label' c s s') : UserFrame label' s' a := by
  obtain ⟨hnone,pid,hpid,hinfo⟩ := h
  have hused : a / 4096 ∉ freePages s := by
    rw [mem_freePages, hinfo]
    exact fun hx => info_ne_free _ hx.2
  refine ⟨?_,pid,hpid,by rw [G.pageinfo_used hused, hinfo]⟩
  cases hl : label' a with
  | none => rfl
  | some q =>
    rcases G.fresh a q hl with h | ⟨-,-,-,f,hf,rfl⟩
    · rw [hnone] at h
      cases h
    · have hdiv : f*4096 / 4096 = f := by omega
      rw [hdiv] at hused
      exact absurd hf hused

theorem Leaf.congr_page {label : Labels} {s : KState} {va va' e : ℕ} (h : Leaf label s va e) (hp : vpage va' = vpage va) :
    Leaf label s va' e := by
  cases h with
  | empty => exact .empty
  | kernel a hf hlow => exact .kernel a hf (hp ▸ hlow)
  | console hlow => exact .console (hp ▸ hlow)
  | user a hf hu => exact .user a hf hu

theorem Leaf.imp {label label' : Labels} {s s' : KState} {va e : ℕ} (h : Leaf label s va e)
    (hu : ∀ a, UserFrame label s a → UserFrame label' s' a) : Leaf label' s' va e := by
  cases h with
  | empty => exact .empty
  | kernel a hf hlow => exact .kernel a hf hlow
  | console hlow => exact .console hlow
  | user a hf h => exact .user a hf (hu a h)

theorem Leaf.mono {o : ℤ} {label label' : Labels} {c : ℕ} {s s' : KState} {va e : ℕ}
    (h : Leaf label s va e) (G : Grows o label label' c s s') : Leaf label' s' va e :=
  h.imp fun _ hu => hu.mono G

namespace Paging

variable {K : KernelImage} {roots : ℤ → Option ℕ} {o : ℤ} {label label' : Labels} {c : ℕ}
  {s s' : KState}

/-- The part of the invariant that does not mention the words of `o`. -/
theorem owned_grow (P : Paging K roots label s) (G : Grows o label label' c s s')
    {n : ℕ} {q : Place ℤ Index} (h : label' n = some q) :
    n < 0x200000 ∧ s'.pageinfo (n / 4096) = ⟨q.owner,1⟩ := by
  rcases G.fresh n q h with hl | ⟨-,ho,hinfo,f,hf,rfl⟩
  · obtain ⟨hlt,hinfo⟩ := P.owned n q hl
    exact ⟨hlt,by rw [G.pageinfo_used (P.table_used hl), hinfo]⟩
  · have hlt := ((mem_freePages s f).1 hf).1
    exact ⟨by omega,by rw [hinfo, ho]⟩

theorem marked_grow (P : Paging K roots label s) (G : Grows o label label' c s s')
    (pn : ℕ) (hpn : pn < 512) (h : (pageinfo_init_entry K (pn*4096)).owner ≠ PO_FREE) :
    s'.pageinfo pn = pageinfo_init_entry K (pn*4096) := by
  have hm := P.marked pn hpn h
  have hused : pn ∉ freePages s := by
    rw [mem_freePages, hm]
    intro hx
    rw [hx.2] at h
    exact h rfl
  rw [G.pageinfo_used hused, hm]

theorem pages_grow (P : Paging K roots label s) (G : Grows o label label' c s s')
    (ho : ProcOwner o) (pn : ℕ) (hpn : pn < 512)
    (h : (pageinfo_init_entry K (pn*4096)).owner = PO_FREE) :
    s'.pageinfo pn = freeInfo ∨ ∃ pid, ProcOwner pid ∧ s'.pageinfo pn = ⟨pid,1⟩ := by
  rcases G.pageinfo pn with hp | ⟨-,hp⟩
  · rw [hp]
    exact P.pages pn hpn h
  · exact Or.inr ⟨o,ho,hp⟩

/-- Growth keeps the invariant when the forest is rebuilt and each word of `o`
is an old word or a proper new one. -/
theorem grow (P : Paging K roots label s) (G : Grows o label label' c s s')
    (ho : ProcOwner o) (F : Forest scheme roots (slot s'.mem) label')
    (hleaf : ∀ r va, roots o = some r → leafWord s'.mem r va = leafWord s.mem r va ∨
      Leaf label' s' va (leafWord s'.mem r va)) : Paging K roots label' s' where
  forest := F
  owned _ _ h := P.owned_grow G h
  owners n q h := by
    rcases G.fresh n q h with hl | ⟨-,hq,-⟩
    · exact P.owners n q hl
    · exact Or.inr (hq ▸ ho)
  kernel_root := P.kernel_root
  kernel_leaf va := by
    have hne : PO_KERNEL ≠ o := by
      have := ho.1
      simp only [PO_KERNEL]
      omega
    rw [P.leaf_kept G P.kernel_root hne, P.kernel_leaf]
  leaves o' r va hr hk := by
    by_cases hoo : o' = o
    · subst hoo
      rcases hleaf r va hr with h | h
      · rw [h]
        exact (P.leaves o' r va hr hk).mono G
      · exact h
    · rw [P.leaf_kept G hr hoo]
      exact (P.leaves o' r va hr hk).mono G
  marked := P.marked_grow G
  pages := P.pages_grow G ho

/-- A page is taken and nothing is labelled: no word changes. -/
theorem take (P : Paging K roots label s) (G : Grows o label label c s s')
    (ho : ProcOwner o)
    (hslots : ∀ n q i, label n = some q → slot s'.mem n i = slot s.mem n i) :
    Paging K roots label s' :=
  P.grow G ho (P.forest.frame hslots) fun r _ hr =>
    Or.inl (P.forest.leaf_congr (P.forest.root o r hr) (by simp) fun m _ i hm => hslots m _ i hm)

end Paging

end WeensyOS.PagingInvariant
