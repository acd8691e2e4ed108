import WeensyOS.ForkCopies

/-!
# The invariant of the whole kernel

Between two exceptions the roots of the forest are the kernel's table and the
tables of the live processes. Everything the invariant says is independent of
saved registers, clocks and the active page table.
-/

set_option autoImplicit false

namespace WeensyOS.KernelInvariant
open WeensyOS.FlatMemory WeensyOS.KernelState WeensyOS.PageTables WeensyOS.PageAllocator
open WeensyOS.RadixForest WeensyOS.TableWords WeensyOS.FreePages WeensyOS.PagingInvariant
open WeensyOS.TableCopies

/-- A process that has been started and got a page table. -/
def live (s : KState) (pid : ℕ) : Prop :=
  (s.processes pid).p_state ≠ .P_FREE ∧ (s.processes pid).p_pagetable ≠ NULL

instance (s : KState) (pid : ℕ) : Decidable (live s pid) := by
  unfold live
  infer_instance

def Slot (pid : ℕ) : Prop := 0 < pid ∧ pid < NPROC

def rootsOf (K : KernelImage) (s : KState) (o : ℤ) : Option ℕ :=
  if o = PO_KERNEL then some K.kernel_pagetable
  else if 0 < o ∧ o < 16 ∧ live s o.toNat then some (s.processes o.toNat).p_pagetable
  else none

section Roots

variable {K : KernelImage} {s s' : KState} {pid r : ℕ}

theorem Slot.owner (h : Slot pid) : ProcOwner pid := by
  obtain ⟨hpos,hlt⟩ := h
  simp only [NPROC] at hlt
  exact ⟨by omega,by omega⟩

theorem Slot.ne_kernel (h : Slot pid) : (pid : ℤ) ≠ PO_KERNEL := by
  have := h.owner.1
  simp only [PO_KERNEL]
  omega

@[simp] theorem rootsOf_kernel : rootsOf K s PO_KERNEL = some K.kernel_pagetable := if_pos rfl

theorem rootsOf_slot (h : Slot pid) :
    rootsOf K s pid = if live s pid then some (s.processes pid).p_pagetable else none := by
  obtain ⟨hpos,hlt⟩ := h.owner
  rw [rootsOf, if_neg h.ne_kernel, Int.toNat_natCast]
  simp [hlt, show 0 < pid by omega]

theorem rootsOf_live (h : Slot pid) (hlive : live s pid) :
    rootsOf K s pid = some (s.processes pid).p_pagetable := by
  rw [rootsOf_slot h, if_pos hlive]

theorem rootsOf_some {o : ℤ} (h : rootsOf K s o = some r) (ho : o ≠ PO_KERNEL) :
    ∃ pid : ℕ, o = pid ∧ Slot pid ∧ live s pid ∧ (s.processes pid).p_pagetable = r := by
  rw [rootsOf, if_neg ho] at h
  split at h
  · rename_i hcond
    obtain ⟨hpos,hlt,hlive⟩ := hcond
    have hn : NPROC = 16 := rfl
    exact ⟨o.toNat,by omega,⟨by omega,by omega⟩,hlive,Option.some.inj h⟩
  · cases h

/-- Roots depend on the live processes and their page tables only. -/
theorem rootsOf_congr (h : ∀ pid, Slot pid → (live s' pid ↔ live s pid) ∧
    (live s pid → (s'.processes pid).p_pagetable = (s.processes pid).p_pagetable)) :
    rootsOf K s' = rootsOf K s := by
  funext o
  by_cases hk : o = PO_KERNEL
  · rw [hk, rootsOf_kernel, rootsOf_kernel]
  · by_cases ho : 0 < o ∧ o < 16
    · have hn : NPROC = 16 := rfl
      obtain ⟨hlive,htable⟩ := h o.toNat ⟨by omega,by omega⟩
      simp only [rootsOf, if_neg hk, hlive]
      by_cases hl : live s o.toNat
      · rw [htable hl]
      · simp only [hl, and_false, if_false]
    · have hno : ∀ p, ¬(0 < o ∧ o < 16 ∧ p) := fun p hp => ho ⟨hp.1,hp.2.1⟩
      simp only [rootsOf, if_neg hk, hno, if_false]

/-- A process that comes to life adds its own root. -/
theorem rootsOf_root {i : ℕ} (hi : Slot i) (hother : ∀ j, j ≠ i → s'.processes j = s.processes j)
    (hlive : live s' i) :
    rootsOf K s' = Function.update (rootsOf K s) i (some (s'.processes i).p_pagetable) := by
  funext o
  by_cases ho : o = i
  · subst ho
    rw [rootsOf_live hi hlive, Function.update_self]
  · rw [Function.update_of_ne ho]
    by_cases hk : o = PO_KERNEL
    · rw [hk, rootsOf_kernel, rootsOf_kernel]
    · by_cases hrange : 0 < o ∧ o < 16
      · have hproc := hother o.toNat (by omega)
        have hlive : live s' o.toNat ↔ live s o.toNat := by rw [live, live, hproc]
        simp only [rootsOf, hlive, hproc]
      · have hno : ∀ p, ¬(0 < o ∧ o < 16 ∧ p) := fun p hp => hrange ⟨hp.1,hp.2.1⟩
        simp only [rootsOf, if_neg hk, hno, if_false]

end Roots

structure KInv (K : KernelImage) (label : Labels) (s : KState) : Prop where
  paging : Paging K (rootsOf K s) label s
  low : ∀ pid, Slot pid → live s pid → ∀ va, vpage va < 256 →
    leafWord s.mem (s.processes pid).p_pagetable va ≠ 0
  slot0 : (s.processes 0).p_state = .P_FREE
  pids : ∀ pid < NPROC, (s.processes pid).p_pid = pid
  used : ∀ pn < 512, ∀ pid, Slot pid → s.pageinfo pn = ⟨pid,1⟩ →
    (s.processes pid).p_state ≠ .P_FREE
  current_slot : Slot s.current
  current_live : live s s.current

/-- Memory, ownership, page tables and the set of free slots are the same. -/
structure Quiet (s s' : KState) : Prop where
  mem : s'.mem = s.mem
  pageinfo : s'.pageinfo = s.pageinfo
  procs : ∀ pid, ((s'.processes pid).p_state = .P_FREE ↔ (s.processes pid).p_state = .P_FREE) ∧
    (s'.processes pid).p_pagetable = (s.processes pid).p_pagetable ∧
    (s'.processes pid).p_pid = (s.processes pid).p_pid

section Quiet

variable {K : KernelImage} {label : Labels} {s s' s'' : KState}

theorem Quiet.refl (s : KState) : Quiet s s := ⟨rfl,rfl,fun _ => ⟨Iff.rfl,rfl,rfl⟩⟩

theorem Quiet.trans (Q : Quiet s s') (Q' : Quiet s' s'') : Quiet s s'' where
  mem := Q'.mem.trans Q.mem
  pageinfo := Q'.pageinfo.trans Q.pageinfo
  procs pid := by
    obtain ⟨h1,h2,h3⟩ := Q.procs pid
    obtain ⟨h1',h2',h3'⟩ := Q'.procs pid
    exact ⟨h1'.trans h1,h2'.trans h2,h3'.trans h3⟩

theorem Quiet.symm (Q : Quiet s s') : Quiet s' s where
  mem := Q.mem.symm
  pageinfo := Q.pageinfo.symm
  procs pid := by
    obtain ⟨h1,h2,h3⟩ := Q.procs pid
    exact ⟨h1.symm,h2.symm,h3.symm⟩

theorem Quiet.setRegisters (s : KState) (i : ℕ) (reg : x86_64_registers) :
    Quiet s (s.setRegisters i reg) where
  mem := rfl
  pageinfo := rfl
  procs pid := by
    by_cases h : pid = i
    · subst h
      simp [KState.setRegisters, KState.setProc]
    · simp [KState.setRegisters, KState.setProc, h]

theorem Quiet.setState (s : KState) (i : ℕ) (st : procstate)
    (h : st = .P_FREE ↔ (s.processes i).p_state = .P_FREE) : Quiet s (s.setState i st) where
  mem := rfl
  pageinfo := rfl
  procs pid := by
    by_cases hp : pid = i
    · subst hp
      simpa [KState.setState, KState.setProc] using h
    · simp [KState.setState, KState.setProc, hp]

theorem Quiet.setRax (s : KState) (i : ℕ) (r : ℤ) : Quiet s (s.setRax i r) :=
  Quiet.setRegisters s i _

theorem Quiet.live (Q : Quiet s s') (pid : ℕ) : live s' pid ↔ live s pid := by
  obtain ⟨h1,h2,-⟩ := Q.procs pid
  rw [KernelInvariant.live, KernelInvariant.live, ne_eq, h1, h2]

theorem Quiet.rootsOf (Q : Quiet s s') : rootsOf K s' = rootsOf K s :=
  rootsOf_congr fun pid _ => ⟨Q.live pid,fun _ => (Q.procs pid).2.1⟩

theorem Quiet.lookup (Q : Quiet s s') (r va : ℕ) :
    virtual_memory_lookup s'.mem r va = virtual_memory_lookup s.mem r va := by
  rw [Q.mem]

theorem KInv.quiet (I : KInv K label s) (Q : Quiet s s') (hslot : Slot s'.current)
    (hlive : live s' s'.current) : KInv K label s' where
  paging := by
    rw [Q.rootsOf]
    exact Paging.congr I.paging Q.mem Q.pageinfo
  low pid hp hl va hva := by
    rw [Q.mem, (Q.procs pid).2.1]
    exact I.low pid hp ((Q.live pid).1 hl) va hva
  slot0 := (Q.procs 0).1.2 I.slot0
  pids pid hp := by rw [(Q.procs pid).2.2, I.pids pid hp]
  used pn hpn pid hp h := by
    rw [ne_eq, (Q.procs pid).1]
    rw [Q.pageinfo] at h
    exact I.used pn hpn pid hp h
  current_slot := hslot
  current_live := hlive

/-- The usual case: the same process stays current. -/
theorem KInv.same (I : KInv K label s) (Q : Quiet s s') (hcur : s'.current = s.current) :
    KInv K label s' :=
  I.quiet Q (hcur ▸ I.current_slot) (by rw [hcur]; exact (Q.live _).2 I.current_live)

end Quiet

namespace KInv

variable {K : KernelImage} {label : Labels} {s : KState} {pid : ℕ}

theorem root (I : KInv K label s) (hp : Slot pid) (hl : live s pid) :
    label (s.processes pid).p_pagetable = some ⟨pid,[]⟩ :=
  I.paging.forest.root pid _ (rootsOf_live hp hl)

theorem kernel_root (I : KInv K label s) : label K.kernel_pagetable = some ⟨PO_KERNEL,[]⟩ :=
  I.paging.forest.root _ _ rootsOf_kernel

/-- No process uses the kernel's table. -/
theorem own_table (I : KInv K label s) (hp : Slot pid) (hl : live s pid) :
    (s.processes pid).p_pagetable ≠ K.kernel_pagetable := by
  intro h
  have hroot := I.root hp hl
  rw [h, I.kernel_root, Option.some.injEq, Place.mk.injEq] at hroot
  exact hp.ne_kernel hroot.1.symm

theorem lookup (I : KInv K label s) (hp : Slot pid) (hl : live s pid) (va : ℕ) :
    virtual_memory_lookup s.mem (s.processes pid).p_pagetable va =
      leafMapping (leafWord s.mem (s.processes pid).p_pagetable va) va :=
  virtual_memory_lookup_eq I.paging.forest (I.root hp hl) va

theorem leaf (I : KInv K label s) (hp : Slot pid) (hl : live s pid) (va : ℕ) :
    Leaf label s va (leafWord s.mem (s.processes pid).p_pagetable va) :=
  I.paging.leaves pid _ va (rootsOf_live hp hl) hp.ne_kernel

theorem lowLeaves (I : KInv K label s) (hp : Slot pid) (hl : live s pid) :
    LowLeaves label s (s.processes pid).p_pagetable where
  leaf va _ := I.leaf hp hl va
  present va hva := I.low pid hp hl va hva

end KInv

end WeensyOS.KernelInvariant
