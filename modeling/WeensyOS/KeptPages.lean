import WeensyOS.PageAccounts

/-!
# Pages that an exception leaves alone

While processes ask only for pages of the user window, an exception writes to
free pages and to pages of the current process and of its new child. A store
of user code writes to the console or to a page of the process that executes.
-/

set_option autoImplicit false

namespace WeensyOS.KeptPages
open WeensyOS.FlatMemory WeensyOS.KernelState WeensyOS.PageTables WeensyOS.PageAllocator
open WeensyOS.Exceptions WeensyOS.Boot WeensyOS.RadixForest
open WeensyOS.TableWords WeensyOS.FreePages WeensyOS.PagingInvariant WeensyOS.PageMaps
open WeensyOS.TableCopies WeensyOS.ForkCopies WeensyOS.KernelInvariant WeensyOS.KernelSteps
open WeensyOS.ForkResult WeensyOS.AllocResult WeensyOS.Isolation
open WeensyOS.BootResult WeensyOS.BootRun WeensyOS.Effects WeensyOS.Runs WeensyOS.PrivateRuns
open WeensyOS.PageAccounts

variable {K : KernelImage} {label label' : Labels} {s s' t u : KState}
  {reg : x86_64_registers} {out : Outcome} {pid pn : ℕ}

/-- A property that exceptions and stores keep among isolated processes is kept. -/
theorem window_keeps {P : Labels → KState → Prop} (X : Executing K label s)
    (S : Isolated (rootsOf K s) label s) (hP : P label s)
    (hstep : ∀ reg label label' t s₁ s₂ out, Executing K label t →
      Isolated (rootsOf K t) label t → Handling K reg label label' t s₁ s₂ out → P label t →
      P label' out.state)
    (hstore : ∀ label t m va c, Executing K label t → Isolated (rootsOf K t) label t →
      user_store va c t = some { t with mem := m } → TablesKept label t m → P label t →
      P label { t with mem := m })
    (C : Continues K InWindow s out) : ∃ label', KInv K label' out.state ∧
      Isolated (rootsOf K out.state) label' out.state ∧ P label' out.state ∧
      ∀ t, out = .user t → Executing K label' t := by
  suffices h : ∃ label', KInv K label' out.state ∧
      (Isolated (rootsOf K out.state) label' out.state ∧ P label' out.state) ∧
      ∀ t, out = .user t → Executing K label' t by
    obtain ⟨label',I,⟨S',hP'⟩,hx⟩ := h
    exact ⟨label',I,S',hP',hx⟩
  refine continues_keeps (P := fun label t => Isolated (rootsOf K t) label t ∧ P label t) X
    ⟨S,hP⟩ ?_ ?_ C
  · intro reg label label' t s₁ s₂ out hwin X H h
    refine ⟨?_,hstep _ _ _ _ _ _ _ X h.1 H h.2⟩
    obtain ⟨u,C,Q,-⟩ := H.effect.change H.inv.current_live
    have S₁ := isolated_quiet h.1 H.entered.quiet
    have S₂ := isolated_quiet (change_isolated C H.inv S₁ (window_request hwin H.entered)) Q
    exact isolated_quiet S₂ (Leaves.quiet H.leaves).1
  · intro label t m va c X hst T h
    exact ⟨isolated_stored h.1 X.inv T,hstore _ _ _ _ _ X h.1 hst T h.2⟩

section Steps

/-- Pages in use that belong neither to the current process nor to a free slot. -/
structure Bystander (s : KState) (pn : ℕ) : Prop where
  used : s.pageinfo pn ≠ freeInfo
  other : (s.pageinfo pn).owner ≠ s.current
  childless : ∀ i, free_slot s = some i → (s.pageinfo pn).owner ≠ i

theorem Bystander.quiet (B : Bystander s pn) (Q : Quiet s t) (hcur : t.current = s.current)
    (hslot : free_slot t = free_slot s) : Bystander t pn where
  used := by
    rw [Q.pageinfo]
    exact B.used
  other := by
    rw [Q.pageinfo, hcur]
    exact B.other
  childless i hi := by
    rw [Q.pageinfo]
    exact B.childless i (hslot ▸ hi)

theorem change_kept (H : Change K reg label s label' t) (I : KInv K label s)
    (B : Bystander s pn) : Agree s.mem t.mem (pn*4096) 4096 := by
  cases H with
  | none => exact Agree.refl _ _ _
  | page hno A => exact I.paging.page_kept A.grows B.used B.other
  | null hslot => exact Agree.refl _ _ _
  | child hslot F => exact I.paging.page_kept F.grows B.used (B.childless _ hslot)

theorem handling_kept (H : Handling K reg label label' s t u out) (B : Bystander t pn) :
    Agree s.mem out.state.mem (pn*4096) 4096 := by
  obtain ⟨v,C,Q,-⟩ := H.effect.change H.inv.current_live
  have h := change_kept C H.inv B
  rw [H.entered.quiet.mem] at h
  rw [(Leaves.quiet H.leaves).1.mem, Q.mem]
  exact h

/-- What user code can write to. -/
theorem store_page (X : Executing K label s) (S : Isolated (rootsOf K s) label s) {va : ℕ}
    {c : UInt8} (h : user_store va c s = some s') : ∃ a k, k < 4096 ∧ Frame a ∧
      s' = { s with mem := Function.update s.mem (a+k) c } ∧
      (a = console ∨ s.pageinfo (a / 4096) = ⟨s.current,1⟩) := by
  obtain ⟨a,hf,-,hw,hs'⟩ := user_store_cases X h
  have I := X.inv
  have hroot := rootsOf_live (K := K) I.current_slot I.current_live
  refine ⟨a,va % 4096,Nat.mod_lt va (by decide),hf,hs',?_⟩
  by_cases hva : vpage va < 256
  · left
    have hlow := S.low _ _ I.current_slot.owner hroot va hva
    rw [kernelWord, if_pos hva] at hlow
    by_cases hcon : vpage va = 0xB8
    · rw [if_pos hcon] at hlow
      exact Nat.add_right_cancel (hw.symm.trans hlow)
    · rw [if_neg hcon] at hlow
      have heq := hw.symm.trans hlow
      have ha := hf.1
      omega
  · right
    have hne : leafWord s.mem (currentTable s) va ≠ 0 := by
      rw [hw]
      exact Nat.succ_ne_zero _
    obtain ⟨-,a',ha',hown⟩ := S.high _ _ I.current_slot.owner hroot va (by omega) hne
    have haa : a' = a := Nat.add_right_cancel (ha'.symm.trans hw)
    rw [← haa]
    exact hown.2.2

theorem store_kept (X : Executing K label s) (S : Isolated (rootsOf K s) label s) {va : ℕ}
    {c : UInt8} (h : user_store va c s = some s') (hcon : pn*4096 ≠ console)
    (hother : (s.pageinfo pn).owner ≠ s.current) : Agree s.mem s'.mem (pn*4096) 4096 := by
  obtain ⟨a,k,hk,hf,rfl,hpage⟩ := store_page X S h
  have ha := hf.1
  have hne : a ≠ pn*4096 := by
    rintro rfl
    rcases hpage with h | h
    · exact hcon h
    · have hdiv : pn*4096 / 4096 = pn := by omega
      rw [hdiv] at h
      rw [h] at hother
      exact hother rfl
  clear hpage hcon
  intro j hj
  have hbyte : pn*4096+j ≠ a+k := by omega
  exact Function.update_of_ne hbyte ..

end Steps

section Marked

/-- Pages of the kernel itself are never handed out. -/
theorem marked_bystander (I : KInv K label s) (hpn : pn < 512)
    (h : (pageinfo_init_entry K (pn*4096)).owner ≠ PO_FREE) : Bystander s pn := by
  have hinfo := I.paging.marked pn hpn h
  have hnot : ∀ i : ℕ, (s.pageinfo pn).owner ≠ i := by
    intro i hi
    rw [hinfo] at hi
    rcases init_entry_cases K (pn*4096) with h' | h' | h'
    · rw [h'] at h
      exact h rfl
    · rw [h'] at hi
      simp only [PO_RESERVED] at hi
      omega
    · rw [h'] at hi
      simp only [PO_KERNEL] at hi
      omega
  refine ⟨?_,hnot _,fun i _ => hnot i⟩
  intro hfree
  rw [hinfo] at hfree
  rw [hfree] at h
  exact h rfl

/-- Pages that `pageinfo_init` marks keep their bytes, the console apart. -/
theorem marked_kept (X : Executing K label s) (S : Isolated (rootsOf K s) label s)
    (C : Continues K InWindow s out) (hpn : pn < 512)
    (hmark : (pageinfo_init_entry K (pn*4096)).owner ≠ PO_FREE) (hcon : pn*4096 ≠ console) :
    Agree s.mem out.state.mem (pn*4096) 4096 := by
  suffices h : ∃ label', KInv K label' out.state ∧
      Isolated (rootsOf K out.state) label' out.state ∧
      Agree s.mem out.state.mem (pn*4096) 4096 ∧ ∀ t, out = .user t → Executing K label' t by
    exact h.choose_spec.2.2.1
  refine window_keeps (P := fun _ t => Agree s.mem t.mem (pn*4096) 4096) X S
    (Agree.refl _ _ _) ?_ ?_ C
  · intro reg label label' t s₁ s₂ out X S H h
    exact h.trans (handling_kept H (marked_bystander H.inv hpn hmark))
  · intro label t m va c X S hst T h
    exact h.trans (store_kept X S hst hcon (marked_bystander X.inv hpn hmark).other)

end Marked

end WeensyOS.KeptPages
