import WeensyOS.SoftReboot
import WeensyOS.AllocRuns

/-!
# What a fresh page shows

A page request maps the lowest free page and stores nothing there. The caller
sees the same permissions whatever happened before, and in the new page the
bytes that its frame held.
-/

set_option autoImplicit false

namespace WeensyOS.FreshPages
open WeensyOS.FlatMemory WeensyOS.KernelState WeensyOS.PageTables WeensyOS.PageAllocator
open WeensyOS.Exceptions WeensyOS.Boot WeensyOS.CheckedRuns WeensyOS.PairedRuns
open WeensyOS.TableWords WeensyOS.FreePages WeensyOS.PagingInvariant WeensyOS.PageMaps
open WeensyOS.TableCopies WeensyOS.KernelInvariant WeensyOS.KernelChecks WeensyOS.KernelSteps
open WeensyOS.ForkResult WeensyOS.AllocResult WeensyOS.BootResult WeensyOS.BootRun
open WeensyOS.Effects WeensyOS.Runs WeensyOS.PrivateRuns WeensyOS.SelfChecks
open WeensyOS.Exhaustion WeensyOS.AllocRuns WeensyOS.TwinRuns WeensyOS.SoftReboot

variable {K : KernelImage} {label label' : Labels} {s s' t t' : KState}
  {reg : x86_64_registers} {f g c pid va : ℕ} {res : ℤ}

/-- What a process can see at an address: the permissions and the byte. -/
def view (s : KState) (pid va : ℕ) : Option (ℕ × UInt8) :=
  let vam := translation s pid va
  if vam.perm &&& PTE_U ≠ 0 then some (vam.perm,s.mem vam.pa) else none

/-- The console page, as the tables decode the address. -/
abbrev OnConsole (va : ℕ) : Prop := va % 2^48 / PAGESIZE = console / PAGESIZE

/-- The process sees the same in both states, the console apart. -/
def SameView (pid : ℕ) (s t : KState) : Prop :=
  ∀ va, ¬OnConsole va → view t pid va = view s pid va

/-- The page that the allocator hands out next. -/
structure FirstFree (s : KState) (f : ℕ) : Prop where
  page : f < NPAGES
  free : s.pageinfo f = ⟨PO_FREE,0⟩
  least : ∀ g < f, s.pageinfo g ≠ ⟨PO_FREE,0⟩

theorem firstFree_unique (F : FirstFree s f) (G : FirstFree s g) : f = g := by
  rcases Nat.lt_trichotomy f g with h | h | h
  · exact absurd F.free (G.least f h)
  · exact h
  · exact absurd G.free (F.least g h)

theorem view_quiet (Q : Quiet s s') (pid va : ℕ) : view s' pid va = view s pid va := by
  have h : translation s' pid va = translation s pid va := by
    rw [translation, (Q.procs pid).2.1, Q.mem]
  simp only [view, h, Q.mem]

section Request

variable (I : KInv K label s)
include I

/-- A page that a process can access is neither free nor a page table. -/
theorem user_frame (hp : Slot pid) (hl : live s pid) (hu : UserPage s pid va) : ∃ a,
    Frame a ∧ translation s pid va = ⟨(a / 4096 : ℕ),a+va % 4096,7⟩ ∧
      a / 4096 ∉ freePages s ∧ label a = none := by
  have hlook := I.lookup hp hl va
  have hleaf := I.leaf hp hl va
  generalize leafWord s.mem (s.processes pid).p_pagetable va = e at hlook hleaf
  cases hleaf with
  | empty =>
    rw [UserPage, translation, hlook, leafMapping_zero] at hu
    exact absurd rfl hu
  | kernel a hf hlow =>
    rw [UserPage, translation, hlook, leafMapping_frame hf (Or.inl rfl)] at hu
    exact absurd (show 3 &&& PTE_U = 0 from rfl) hu
  | console hlow =>
    have hf : Frame console := ⟨by decide,by decide⟩
    refine ⟨console,hf,?_,fun hfree => ?_,console_unlabelled I⟩
    · rw [translation, hlook, leafMapping_frame hf (Or.inr rfl)]
    · have hentry : pageinfo_init_entry K (0xB8*4096) = ⟨PO_RESERVED,1⟩ := rfl
      have hmarked := I.paging.marked 0xB8 (by decide) (by rw [hentry]; decide)
      have hinfo := ((mem_freePages s _).1 hfree).2
      have hpage : console / 4096 = 0xB8 := rfl
      rw [hpage, hmarked, hentry] at hinfo
      exact absurd (congrArg physical_pageinfo.owner hinfo) (by decide)
  | user a hf huser =>
    refine ⟨a,hf,?_,fun hfree => ?_,huser.1⟩
    · rw [translation, hlook, leafMapping_frame hf (Or.inr rfl)]
    · obtain ⟨o,-,hinfo⟩ := huser.2
      have hinfo' := ((mem_freePages s _).1 hfree).2
      rw [hinfo] at hinfo'
      exact info_ne_free _ hinfo'

theorem alloc_view (A : Allocated K f 0 label label' c s t) (va : ℕ) :
    view (t.setRax s.current 0) s.current va = if vpage va = vpage (request s)
      then some (7,s.mem (f*4096+va % 4096)) else view s s.current va := by
  have hp := I.current_slot
  have hl := I.current_live
  have htrans := alloc_translation I A hp hl va 0
  have hmem : (t.setRax s.current 0).mem = t.mem := rfl
  by_cases hnew : vpage va = vpage (request s)
  · have hW : 7 &&& PTE_U ≠ 0 := by decide
    rw [if_pos ⟨rfl,rfl,hnew⟩] at htrans
    simp only [if_pos hnew, view, htrans, hmem, if_pos hW,
      A.content _ (Nat.mod_lt va (by decide))]
  · rw [if_neg fun h => hnew h.2.2] at htrans
    simp only [if_neg hnew, view, htrans, hmem]
    by_cases hu : UserPage s s.current va
    · obtain ⟨a,hf,ha,hused,hnone⟩ := user_frame I hp hl hu
      have halign := hf.1
      have haddr : a / 4096*4096 = a := by omega
      have hbyte := A.grows.bytes (a / 4096) hused (fun q hq => by
        rw [haddr, hnone] at hq
        cases hq) (va % 4096) (Nat.mod_lt va (by decide))
      rw [haddr] at hbyte
      rw [if_pos hu, if_pos hu, ha, hbyte]
    · rw [if_neg hu, if_neg hu]

end Request

/-- The two ways in which a page request is handled. -/
theorem request_effect (E : Effect K reg label s label' s')
    (hno : reg.reg_intno = INT_SYS_PAGE_ALLOC) :
    (freePages s = ∅ ∧ s' = { s with pagetable_owner := s.current }.setRax s.current FAILED) ∨
      ∃ f c res t, (res = 0 ∨ res = -1) ∧ (Mappable s → res = 0) ∧
        Allocated K f res label label' c s t ∧ s' = t.setRax s.current res := by
  cases E with
  | refused h hempty => exact Or.inl ⟨hempty,rfl⟩
  | @alloc f c res label' t h hva hcases hmap A =>
    exact Or.inr ⟨f,c,res,t,hcases,fun h => hmap h.1 h.2,A,rfl⟩
  | getpid h => exact absurd (hno.symm.trans h) (by decide)
  | yield h => exact absurd (hno.symm.trans h) (by decide)
  | timer h => exact absurd (hno.symm.trans h) (by decide)
  | fault h _ => exact absurd (hno.symm.trans h) (by decide)
  | noSlot h _ => exact absurd (hno.symm.trans h) (by decide)
  | rootless h _ _ => exact absurd (hno.symm.trans h) (by decide)
  | unfinished h _ _ _ _ => exact absurd (hno.symm.trans h) (by decide)
  | forked h _ _ _ _ => exact absurd (hno.symm.trans h) (by decide)

/-- Without a free page the result is -1. -/
theorem refused_result (s : KState) :
    result ({ s with pagetable_owner := s.current }.setRax s.current FAILED) = toRegister FAILED :=
  result_setRax (t := { s with pagetable_owner := s.current }) rfl FAILED

/-- A page request returns to the caller. -/
theorem request_resumed (X : Executing K label s) (hno : reg.reg_intno = INT_SYS_PAGE_ALLOC)
    (h : exception K reg s = .ok (.user s')) : ∃ label' s₁ s₂, Entered reg s s₁ ∧
      KInv K label s₁ ∧ KernelMapped K s₁ ∧ Effect K reg label s₁ label' s₂ ∧
      s' = resumed s₂ s₂.current := by
  obtain ⟨label',s₁,s₂,H⟩ := exception_cases X h
  have hcur : s₂.current = s₁.current := (H.effect.change H.inv.current_live).choose_spec.2.2
  have hstate := H.effect.state_kept H.inv (by rw [hno]; decide)
  have hrun : (s₂.processes s₂.current).p_state = .P_RUNNABLE := by
    rw [hcur, hstate]
    exact entered_runnable X H.entered
  have hout := H.back (by rw [Switches, hno]; decide) hrun
  exact ⟨label',s₁,s₂,H.entered,H.inv,H.mapped,H.effect,Outcome.user.inj hout⟩

theorem resumed_quiet (s : KState) (pid : ℕ) : Quiet s (resumed s pid) :=
  ⟨rfl,rfl,fun _ => ⟨Iff.rfl,rfl,rfl⟩⟩

/-- What a request that returns 0 makes visible. -/
theorem request_view (X : Executing K label s) (hno : reg.reg_intno = INT_SYS_PAGE_ALLOC)
    (h : exception K reg s = .ok (.user s')) (hzero : result s' = 0) : ∃ f, FirstFree s f ∧
      ∀ va, view s' s.current va = if vpage va = vpage reg.reg_rdi.toNat
        then some (7,s.mem (f*4096+va % 4096)) else view s s.current va := by
  obtain ⟨label',s₁,s₂,E,I,-,F,rfl⟩ := request_resumed X hno h
  have Q₁ := E.quiet
  have Q := resumed_quiet s₂ s₂.current
  have hres : result s₂ = 0 := hzero
  rcases request_effect F hno with ⟨-,rfl⟩ | ⟨f,c,res,t,hcases,-,A,rfl⟩
  · rw [refused_result] at hres
    exact absurd hres (by decide)
  · rw [result_setRax A.grows.current] at hres
    rcases hcases with rfl | rfl
    · obtain ⟨hlt,hfree⟩ := (mem_freePages s₁ f).1 A.fresh
      refine ⟨f,⟨hlt,?_,fun g hg hgfree => ?_⟩,fun va => ?_⟩
      · rw [← Q₁.pageinfo]
        exact hfree
      · rw [← Q₁.pageinfo] at hgfree
        have := A.least g ((mem_freePages s₁ g).2 ⟨hg.trans hlt,hgfree⟩)
        omega
      · rw [view_quiet Q, ← E.current, alloc_view I A, entered_request E, Q₁.mem, view_quiet Q₁]
    · exact absurd hres (by decide)

/-- A request that can be served returns 0. -/
theorem request_zero (X : Executing K label s) (hno : reg.reg_intno = INT_SYS_PAGE_ALLOC)
    (hindex : index123 reg.reg_rdi.toNat ≠ -1) (hcount : 4 ≤ freeCount s)
    (h : exception K reg s = .ok (.user s')) : result s' = 0 := by
  obtain ⟨label',s₁,s₂,E,I,-,F,rfl⟩ := request_resumed X hno h
  have hsame : freeCount s₁ = freeCount s := freeCount_congr E.quiet.pageinfo
  change result s₂ = 0
  rcases request_effect F hno with ⟨hempty,-⟩ | ⟨f,c,res,t,-,hzero,A,rfl⟩
  · have := (freeCount_eq_zero s₁).2 hempty
    omega
  · have htables := tablesMissing_le s₁.mem (currentTable s₁) (request s₁)
    rw [result_setRax A.grows.current, hzero ⟨by rw [entered_request E]; exact hindex,by omega⟩]
    rfl

section Window

variable (hva : reg.reg_rdi.toNat % PAGESIZE = 0) (hlow : PROC_START_ADDR ≤ reg.reg_rdi.toNat)
  (hhigh : reg.reg_rdi.toNat < MEMSIZE_VIRTUAL)
include hva hlow hhigh

theorem request_page (va : ℕ) : vpage va = vpage reg.reg_rdi.toNat ↔
    va % 2^48 / PAGESIZE = reg.reg_rdi.toNat / PAGESIZE := by
  simp only [PROC_START_ADDR, MEMSIZE_VIRTUAL, PAGESIZE] at *
  rw [vpage_small reg.reg_rdi.toNat (by omega), vpage]

/-- A byte of the requested page. -/
theorem request_byte {k : ℕ} (hk : k < PAGESIZE) : ¬OnConsole (reg.reg_rdi.toNat+k) ∧
    vpage (reg.reg_rdi.toNat+k) = vpage reg.reg_rdi.toNat ∧
    (reg.reg_rdi.toNat+k) % 4096 = k := by
  simp only [PROC_START_ADDR, MEMSIZE_VIRTUAL, PAGESIZE, OnConsole, console] at *
  rw [vpage_small _ (by omega), vpage_small _ (by omega)]
  omega

/-- The views after the call agree where the two frames do. -/
theorem same_view_iff (hview : SameView pid s t)
    (hs : ∀ va, view s' pid va = if vpage va = vpage reg.reg_rdi.toNat
      then some (7,s.mem (f*4096+va % 4096)) else view s pid va)
    (ht : ∀ va, view t' pid va = if vpage va = vpage reg.reg_rdi.toNat
      then some (7,t.mem (g*4096+va % 4096)) else view t pid va) :
    SameView pid s' t' ↔ ∀ k < PAGESIZE, t.mem (g*PAGESIZE+k) = s.mem (f*PAGESIZE+k) := by
  constructor
  · intro h k hk
    obtain ⟨hcon,hpage,hoff⟩ := request_byte hva hlow hhigh hk
    have hsame := h _ hcon
    rw [hs, ht, if_pos hpage, if_pos hpage, hoff, Option.some.injEq, Prod.mk.injEq] at hsame
    exact hsame.2
  · intro h va hcon
    rw [hs, ht]
    by_cases hpage : vpage va = vpage reg.reg_rdi.toNat
    · have hbyte := h (va % 4096) (Nat.mod_lt va (by decide))
      simp only [PAGESIZE] at hbyte
      rw [if_pos hpage, if_pos hpage, hbyte]
    · rw [if_neg hpage, if_neg hpage]
      exact hview va hcon

end Window

/-- After a request that succeeds in both states the caller sees no difference outside the new
page, the new page has the same permissions, and it shows the bytes of the first free frame. -/
theorem page_alloc_view_iff (hK : Loadable K) (R : Run K Any (.user s)) (R' : Run K Any (.user t))
    (hcur : t.current = s.current) (hview : SameView s.current s t)
    (hno : reg.reg_intno = INT_SYS_PAGE_ALLOC) (hva : reg.reg_rdi.toNat % PAGESIZE = 0)
    (hlow : PROC_START_ADDR ≤ reg.reg_rdi.toNat) (hhigh : reg.reg_rdi.toNat < MEMSIZE_VIRTUAL)
    (hs : exception K reg s = .ok (.user s')) (ht : exception K reg t = .ok (.user t'))
    (hszero : result s' = 0) (htzero : result t' = 0) :
    ∃ f g, FirstFree s f ∧ FirstFree t g ∧
      (∀ va, ¬OnConsole va → va % 2^48 / PAGESIZE ≠ reg.reg_rdi.toNat / PAGESIZE →
        view t' s.current va = view s' s.current va) ∧
      (∀ k < PAGESIZE, view s' s.current (reg.reg_rdi.toNat+k) = some (7,s.mem (f*PAGESIZE+k)) ∧
        view t' s.current (reg.reg_rdi.toNat+k) = some (7,t.mem (g*PAGESIZE+k))) ∧
      (SameView s.current s' t' ↔
        ∀ k < PAGESIZE, t.mem (g*PAGESIZE+k) = s.mem (f*PAGESIZE+k)) := by
  obtain ⟨label,X⟩ := run_executing hK R
  obtain ⟨label',X'⟩ := run_executing hK R'
  obtain ⟨f,F,hsview⟩ := request_view X hno hs hszero
  obtain ⟨g,G,htview⟩ := request_view X' hno ht htzero
  rw [hcur] at htview
  refine ⟨f,g,F,G,fun va hcon hother => ?_,fun k hk => ?_,
    same_view_iff hva hlow hhigh hview hsview htview⟩
  · have hpage := mt (request_page hva hlow hhigh va).1 hother
    rw [hsview, htview, if_neg hpage, if_neg hpage]
    exact hview va hcon
  · obtain ⟨-,hpage,hoff⟩ := request_byte hva hlow hhigh hk
    rw [hsview, htview, if_pos hpage, if_pos hpage, hoff]
    exact ⟨rfl,rfl⟩

section Leak

/-- Two boots look the same to a process when the memories differed in free pages only. -/
theorem twins_view {command : Option String} {m₁ m₂ : Memory} {V : ℕ → Prop}
    (D : Twins K command m₁ m₂ label V s t) (hp : Slot pid) (hl : live s pid)
    (hm : ∀ x, x / 4096 ∉ freePages s → m₂ x = m₁ x) : SameView pid s t := by
  intro va _
  have htrans : translation t pid va = translation s pid va :=
    D.same.translations pid hp.2 hl.1 va
  simp only [view, htrans]
  by_cases hu : UserPage s pid va
  · obtain ⟨a,hf,ha,hused,-⟩ := user_frame D.booted.inv hp hl hu
    have halign := hf.1
    have hpage : (a+va % 4096) / 4096 = a / 4096 := by omega
    have hbyte : t.mem (a+va % 4096) = s.mem (a+va % 4096) := by
      by_cases hV : V (a+va % 4096)
      · exact D.twin.written _ hV
      · obtain ⟨h₁,h₂⟩ := D.twin.kept _ hV
        rw [h₁, h₂]
        exact hm _ (by rw [hpage]; exact hused)
    rw [if_pos hu, if_pos hu, ha, hbyte]
  · rw [if_neg hu, if_neg hu]

/-- The request of the sample process. -/
abbrev sampleRequest : x86_64_registers := syscall INT_SYS_PAGE_ALLOC 0x102000

theorem sample_request (m : KState) : ∃ label s s',
    kernel sampleKernel (some "fork") m = .ok (.user s) ∧ Executing sampleKernel label s ∧
      s.current = 1 ∧ exception sampleKernel sampleRequest s = .ok (.user s') ∧ result s' = 0 := by
  obtain ⟨label,s,hboot,S,hcur,hcount,-⟩ := sample_solo m
  have hwin : InWindow s sampleRequest := fun _ => ⟨by decide,by decide,by decide⟩
  obtain ⟨label',s₁,s₂,s',hrun,-⟩ := solo_call S (Or.inr rfl) hwin
  exact ⟨label,s,s',hboot,S.executing,hcur,hrun,
    request_zero S.executing rfl (by decide) (by omega) hrun⟩

theorem fresh_page_shown : ∃ s s' f, kernel sampleKernel (some "fork") powerOn = .ok (.user s) ∧
    exception sampleKernel sampleRequest s = .ok (.user s') ∧ FirstFree s f ∧
    ∀ k < PAGESIZE, view s' s.current (sampleRequest.reg_rdi.toNat+k) =
      some (7,s.mem (f*PAGESIZE+k)) := by
  obtain ⟨label,s,s',hboot,-,-,hs,hzero⟩ := sample_request powerOn
  obtain ⟨f,g,F,-,-,hnew,-⟩ := page_alloc_view_iff sample_loadable (.boot hboot) (.boot hboot) rfl
    (fun _ _ => rfl) rfl (by decide) (by decide) (by decide) hs hs hzero hzero
  exact ⟨s,s',f,hboot,hs,F,fun k hk => (hnew k hk).1⟩

/-- One byte that an earlier boot has left in a free page shows up in the new page. -/
theorem leftover_byte_seen : ∃ m s t s' t', kernel sampleKernel (some "fork") powerOn =
      .ok (.user s) ∧ kernel sampleKernel (some "fork") { powerOn with mem := m } = .ok (.user t) ∧
    t.current = s.current ∧ SameView s.current s t ∧
    exception sampleKernel sampleRequest s = .ok (.user s') ∧
    exception sampleKernel sampleRequest t = .ok (.user t') ∧ result s' = 0 ∧ result t' = 0 ∧
    ¬SameView s.current s' t' := by
  obtain ⟨label₁,s,s',hboot,X,hcur,hs,hszero⟩ := sample_request powerOn
  obtain ⟨f,F,hsview⟩ := request_view X rfl hs hszero
  generalize hm : Function.update powerOn.mem (f*4096) 1 = m
  obtain ⟨label₂,t,t',hboot',X',hcur',ht,htzero⟩ := sample_request { powerOn with mem := m }
  obtain ⟨g,G,htview⟩ := request_view X' rfl ht htzero
  obtain ⟨y,hy,label,V,s₀,t₀,hs₀,ht₀,D⟩ := Both.left
    (kernel_both sample_loadable (some "fork") powerOn { powerOn with mem := m }) hboot
  rw [hboot', ht₀, Except.ok.injEq, Outcome.user.injEq] at hy
  rw [Outcome.user.injEq] at hs₀
  subst hs₀
  subst hy
  have hsame : t.current = s.current := hcur'.trans hcur.symm
  have I := D.booted.inv
  have hfree : f ∈ freePages s := (mem_freePages s f).2 ⟨F.page,F.free⟩
  have hview : SameView s.current s t := by
    refine twins_view D I.current_slot I.current_live fun x hx => ?_
    have hne : x ≠ f*4096 := by
      rintro rfl
      rw [Nat.mul_div_cancel _ (by decide)] at hx
      exact hx hfree
    rw [← hm]
    exact Function.update_of_ne hne _ _
  have hgf : g = f := by
    refine firstFree_unique ⟨G.page,?_,fun i hi => ?_⟩ F
    · rw [← D.books.info g G.page]
      exact G.free
    · rw [← D.books.info i (hi.trans G.page)]
      exact G.least i hi
  refine ⟨m,s,t,s',t',hboot,hboot',hsame,hview,hs,ht,hszero,htzero,fun hall => ?_⟩
  rw [hsame] at htview
  have hbyte := (same_view_iff (by decide) (by decide) (by decide) hview hsview htview).1 hall 0
    (by decide)
  rw [hgf] at hbyte
  have hunwritten : ¬V (f*4096) := fun h => D.books.used _ h (by
    rw [Nat.mul_div_cancel _ (by decide)]
    exact hfree)
  have hkept := D.twin.kept _ hunwritten
  have hs₀ : s.mem (f*4096) = 0 := hkept.1
  have ht₀ : t.mem (f*4096) = m (f*4096) := hkept.2
  simp only [PAGESIZE, add_zero] at hbyte
  rw [hs₀, ht₀, ← hm, Function.update_self] at hbyte
  exact absurd hbyte (by decide)

end Leak

end WeensyOS.FreshPages
