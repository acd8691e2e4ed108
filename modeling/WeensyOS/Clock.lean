import WeensyOS.BootRun
import WeensyOS.Runs

/-!
# The clock

`ticks` counts the timer interrupts: the timer adds one, and nothing else
touches it, neither the way to the first process nor any other exception. The
static variables of `memshow_virtual_animate` are its own in the same way.
-/

set_option autoImplicit false

namespace WeensyOS.Clock
open WeensyOS.FlatMemory WeensyOS.KernelState WeensyOS.PageTables WeensyOS.PageAllocator
open WeensyOS.Checks WeensyOS.Exceptions WeensyOS.Boot WeensyOS.CheckedRuns
open WeensyOS.KernelInvariant WeensyOS.KernelSteps WeensyOS.Effects WeensyOS.Runs

section Walks

variable {σ β : Type} [MachineMemory σ] {f : σ → β} {alloc : Option (Allocator σ)}
  {s s' : σ} {va perm pt : ℕ}

/-- What neither stores nor the allocator of page tables change. -/
structure Untouched (f : σ → β) (alloc : Option (Allocator σ)) : Prop where
  store : ∀ s m, f (setMem s m) = f s
  alloc : ∀ a, alloc = some a → ∀ s, f (a s).2 = f s

theorem entry_untouched (U : Untouched f alloc) {i : ℕ} {x : Option ℕ}
    (h : lookup_l4pagetable_entry va perm alloc i pt s = .ok (x,s')) : f s' = f s := by
  cases alloc with
  | none =>
    simp only [lookup_l4pagetable_entry] at h
    split at h
    · cases h
      rfl
    · split at h <;> cases h <;> rfl
  | some a =>
    simp only [lookup_l4pagetable_entry] at h
    split at h
    · cases h
      rfl
    · split at h
      · cases h
        rfl
      · split at h
        · cases h
          exact U.alloc a rfl s
        · obtain ⟨-,h⟩ := (seq_ok_iff _ _ _).1 h
          cases h
          exact (U.store _ _).trans (U.alloc a rfl s)

theorem walk_untouched (U : Untouched f alloc) (levels : List ℕ) {l4 : ℕ}
    (h : lookup_l4pagetable_loop va perm alloc levels pt s = .ok (l4,s')) : f s' = f s := by
  induction levels generalizing pt s with
  | nil =>
    cases h
    rfl
  | cons l levels ih =>
    obtain ⟨⟨found,s₁⟩,hentry,hrest⟩ := (bind_ok_iff _ _ _).1 h
    have hfirst := entry_untouched U hentry
    cases found with
    | none =>
      cases hrest
      exact hfirst
    | some pe =>
      obtain ⟨-,hrest⟩ := (seq_ok_iff _ _ _).1 hrest
      exact (ih hrest).trans hfirst

theorem map_loop_untouched (U : Untouched f alloc) (n : ℕ) {pa l4 : ℕ} {last res : ℤ}
    (h : virtual_memory_map_loop pt perm alloc n va pa last l4 s = .ok (res,s')) : f s' = f s := by
  induction n generalizing va pa l4 last s with
  | zero =>
    cases h
    rfl
  | succ n ih =>
    -- what is left of the turn once the level-4 table is known
    have hrest : ∀ l4' (s₁ : σ),
        (if perm &&& PTE_P ≠ 0 ∧ l4' ≠ NULL then
          virtual_memory_map_loop pt perm alloc n ((va+PAGESIZE) % 2^64)
            ((pa+PAGESIZE) % 2^64) (index123 va) l4'
            (setMem s₁ (setEntry (mem s₁) l4' (L4PAGEINDEX va) (pa ||| perm)))
        else if l4' ≠ NULL then
          virtual_memory_map_loop pt perm alloc n ((va+PAGESIZE) % 2^64)
            ((pa+PAGESIZE) % 2^64) (index123 va) l4'
            (setMem s₁ (setEntry (mem s₁) l4' (L4PAGEINDEX va) perm))
        else if perm &&& PTE_P ≠ 0 then Except.ok (-1,s₁)
        else virtual_memory_map_loop pt perm alloc n ((va+PAGESIZE) % 2^64)
          ((pa+PAGESIZE) % 2^64) (index123 va) l4' s₁) = .ok (res,s') → f s' = f s₁ := by
      intro l4' s₁ hrun
      split at hrun
      · exact (ih hrun).trans (U.store _ _)
      · split at hrun
        · exact (ih hrun).trans (U.store _ _)
        · split at hrun
          · cases hrun
            rfl
          · exact ih hrun
    simp only [virtual_memory_map_loop] at h
    split at h
    · obtain ⟨⟨l4',s₁⟩,hlook,hrun⟩ := (bind_ok_iff _ _ _).1 h
      exact (hrest l4' s₁ hrun).trans (walk_untouched U [0,1,2] hlook)
    · exact hrest l4 s h

/-- Mapping a range changes memory, by stores and by what the allocator does. -/
theorem map_untouched (U : Untouched f alloc) {pa sz : ℕ} {res : ℤ}
    (h : virtual_memory_map pt va pa sz perm alloc s = .ok (res,s')) : f s' = f s := by
  simp only [virtual_memory_map, seq_ok_iff] at h
  split at h
  · simp only [seq_ok_iff] at h
    exact map_loop_untouched U _ h.2.2.2.2.2.2.2.2
  · simp only [seq_ok_iff] at h
    exact map_loop_untouched U _ h.2.2.2.2.2

end Walks

variable {K : KernelImage} {s s' : KState} {reg : x86_64_registers} {out : Outcome} {pid : ℕ}

section Statics

/-- The clock and the static variables of `memshow_virtual_animate`. -/
def statics (s : KState) : UInt32 × UInt32 × ℕ := (s.ticks,s.last_ticks,s.showing)

theorem statics_mem (s : KState) (m : Memory) : statics { s with mem := m } = statics s := rfl

theorem assign_statics (addr : ℕ) (o : ℤ) (s : KState) :
    statics (assign_physical_page addr o s).2 = statics s := by
  rw [assign_physical_page]
  split <;> rfl

theorem get_free_addr_statics (o : ℤ) (s : KState) : statics (get_free_addr o s).2 = statics s := by
  rw [get_free_addr]
  induction addrs 0 MEMSIZE_PHYSICAL with
  | nil => rfl
  | cons addr rest ih =>
    rw [get_free_addr_loop]
    split
    · have h := assign_statics addr o s
      rcases hassign : assign_physical_page addr o s with ⟨r,s₁⟩
      rw [hassign] at h
      simp only
      split <;> exact h
    · exact ih

theorem pagetable_alloc_statics (s : KState) : statics (pagetable_alloc s).2 = statics s := by
  have h := get_free_addr_statics s.pagetable_owner s
  rw [pagetable_alloc]
  generalize get_free_addr s.pagetable_owner s = x at h ⊢
  obtain ⟨pt,s₁⟩ := x
  by_cases hpt : pt = NULL
  · simp only [if_pos hpt]
    exact h
  · simp only [if_neg hpt]
    exact (statics_mem s₁ _).trans h

theorem kernel_untouched : Untouched statics (some pagetable_alloc) where
  store _ _ := rfl
  alloc _ h s := Option.some.inj h ▸ pagetable_alloc_statics s

theorem stores_untouched : Untouched statics none where
  store _ _ := rfl
  alloc _ h := by cases h

theorem copy_pagetable_statics {pt r : ℕ} {o : ℤ} (h : copy_pagetable pt o s = .ok (r,s')) :
    statics s' = statics s := by
  have hloop : ∀ (l : List ℕ) {r : ℕ} {s s' : KState},
      copy_pagetable_loop pt r l s = .ok s' → statics s' = statics s := by
    intro l r
    induction l with
    | nil =>
      intro s s' h
      cases h
      rfl
    | cons va l ih =>
      intro s s' h
      rw [copy_pagetable_loop] at h
      simp only at h
      split at h
      · obtain ⟨⟨res,s₁⟩,hmap,hrest⟩ := (bind_ok_iff _ _ _).1 h
        simp only at hrest
        split at hrest
        · cases hrest
        · exact (ih hrest).trans (map_untouched kernel_untouched hmap)
      · exact ih h
  have halloc := pagetable_alloc_statics { s with pagetable_owner := o }
  rcases hget : pagetable_alloc { s with pagetable_owner := o } with ⟨r₁,s₁⟩
  rw [hget] at halloc
  simp only [copy_pagetable, hget] at h
  split at h
  · cases h
    exact halloc
  · obtain ⟨s₂,hrun,hrest⟩ := (bind_ok_iff _ _ _).1 h
    cases hrest
    exact (hloop _ hrun).trans halloc

theorem set_pagetable_statics {pt : ℕ} (h : set_pagetable K pt s = .ok s') : statics s' = statics s := by
  simp only [set_pagetable, seq_ok_iff] at h
  cases h.2.2.2.2.2
  rfl

theorem run_statics (h : run K pid s = .ok out) : statics out.state = statics s := by
  obtain ⟨-,h⟩ := (seq_ok_iff _ _ _).1 h
  obtain ⟨s₁,hset,hout⟩ := (bind_ok_iff _ _ _).1 h
  cases hout
  have hticks := set_pagetable_statics hset
  exact hticks

theorem schedule_statics (h : schedule K s = .ok out) : statics out.state = statics s := by
  rw [schedule] at h
  split at h
  · exact run_statics h
  · cases h
    rfl

theorem return_statics (h : exception_leave K s = .ok out) : statics out.state = statics s := by
  rw [exception_leave] at h
  split at h
  · exact run_statics h
  · exact schedule_statics h

theorem page_alloc_statics (h : sys_page_alloc s = .ok s') : statics s' = statics s := by
  have hget := get_free_addr_statics (s.processes s.current).p_pid s
  rw [sys_page_alloc] at h
  rcases hpa : get_free_addr (s.processes s.current).p_pid s with ⟨pa,s₁⟩
  rw [hpa] at hget
  simp only [hpa] at h
  split at h
  · obtain ⟨⟨res,s₂⟩,hmap,hrest⟩ := (bind_ok_iff _ _ _).1 h
    cases hrest
    exact (map_untouched kernel_untouched hmap).trans hget
  · cases h
    exact hget

theorem fork_loop_statics {i : ℕ} (l : List ℕ) {copied : Bool}
    (h : fork_loop i l s = .ok (copied,s')) : statics s' = statics s := by
  induction l generalizing s with
  | nil =>
    cases h
    rfl
  | cons va l ih =>
    rw [fork_loop] at h
    simp only at h
    split at h
    · have hget := get_free_addr_statics i s
      rcases hpa : get_free_addr i s with ⟨pa,s₁⟩
      rw [hpa] at hget
      simp only [hpa] at h
      split at h
      · cases h
        exact hget
      · obtain ⟨⟨res,s₂⟩,hmap,hrest⟩ := (bind_ok_iff _ _ _).1 h
        have hmap' := (map_untouched kernel_untouched hmap).trans hget
        simp only at hrest
        split at hrest
        · cases hrest
          exact hmap'
        · exact (ih hrest).trans hmap'
    · exact ih h

theorem fork_statics (h : fork s = .ok s') : statics s' = statics s := by
  rw [fork] at h
  split at h
  · rw [fork_into] at h
    obtain ⟨⟨r,s₁⟩,hcopy,hrest⟩ := (bind_ok_iff _ _ _).1 h
    have hfirst := copy_pagetable_statics hcopy
    simp only at hrest
    split at hrest
    · cases hrest
      exact hfirst
    · obtain ⟨⟨copied,s₂⟩,hloop,hlast⟩ := (bind_ok_iff _ _ _).1 hrest
      have hsecond := (fork_loop_statics _ hloop).trans hfirst
      simp only at hlast
      split at hlast <;> cases hlast <;> exact hsecond
  · cases h
    rfl

theorem animate_statics (h : memshow_virtual_animate s = .ok s') :
    s'.ticks = s.ticks ∧ s'.showing < NPROC := by
  rw [memshow_virtual_animate] at h
  generalize hs₁ : (if s.last_ticks = 0 ∨ s.ticks-s.last_ticks ≥ HZ/2
    then { s with last_ticks := s.ticks, showing := s.showing+1 } else s) = s₁ at h
  have hfirst : s₁.ticks = s.ticks := by
    rw [← hs₁]
    split <;> rfl
  simp only at h
  split at h
  · obtain ⟨-,h⟩ := (seq_ok_iff _ _ _).1 h
    cases h
    exact ⟨hfirst,Nat.mod_lt _ (by decide)⟩
  · cases h
    exact ⟨hfirst,Nat.mod_lt _ (by decide)⟩

theorem enter_ticks (h : exception_enter K reg s = .ok s') : s'.ticks = s.ticks := by
  rw [exception_enter] at h
  obtain ⟨s₁,hset,hrest⟩ := (bind_ok_iff _ _ _).1 h
  have hfirst : s₁.ticks = s.ticks := congrArg Prod.fst (set_pagetable_statics hset)
  split at hrest
  · obtain ⟨-,hani⟩ := (seq_ok_iff _ _ _).1 hrest
    exact (animate_statics hani).1.trans hfirst
  · cases hrest
    exact hfirst

theorem switch_statics (h : exception_switch reg s = .ok s') : statics s' =
    (if reg.reg_intno = INT_TIMER then s.ticks+1 else s.ticks,s.last_ticks,s.showing) := by
  have hother : ∀ {n : UInt64} {x : UInt32 × UInt32 × ℕ}, reg.reg_intno = n → n ≠ INT_TIMER →
      x = statics s →
      x = (if reg.reg_intno = INT_TIMER then s.ticks+1 else s.ticks,s.last_ticks,s.showing) :=
    fun hn hne hx => by rw [hn, if_neg hne, hx, statics]
  rw [exception_switch] at h
  split at h
  · cases h
  split at h
  · rename_i hno
    cases h
    exact hother hno (by decide) rfl
  split at h
  · rename_i hno
    cases h
    exact hother hno (by decide) rfl
  split at h
  · rename_i hno
    exact hother hno (by decide) (page_alloc_statics h)
  split at h
  · rename_i hno
    exact hother hno (by decide) (fork_statics h)
  split at h
  · rename_i hno
    cases h
    rw [if_pos hno]
    rfl
  split at h
  · rename_i hno
    split at h
    · cases h
    · cases h
      exact hother hno (by decide) rfl
  · cases h

theorem exception_statics (h : exception K reg s = .ok out) : ∃ s₁,
    exception_enter K reg s = .ok s₁ ∧ statics out.state =
      (if reg.reg_intno = INT_TIMER then s₁.ticks+1 else s₁.ticks,s₁.last_ticks,s₁.showing) := by
  obtain ⟨s₁,henter,hhandle⟩ := (bind_ok_iff _ _ _).1 h
  rw [exception_handle_eq] at hhandle
  obtain ⟨s₂,hswitch,hout⟩ := (bind_ok_iff _ _ _).1 hhandle
  have hlast : statics out.state = statics s₂ := by
    split at hout
    · exact schedule_statics hout
    · exact return_statics hout
  exact ⟨s₁,henter,hlast.trans (switch_statics hswitch)⟩

/-- Each timer interrupt that is handled counts once. -/
theorem exception_ticks (h : exception K reg s = .ok out) :
    out.state.ticks = if reg.reg_intno = INT_TIMER then s.ticks+1 else s.ticks := by
  obtain ⟨s₁,henter,hout⟩ := exception_statics h
  have hticks : out.state.ticks = if reg.reg_intno = INT_TIMER then s₁.ticks+1 else s₁.ticks :=
    congrArg Prod.fst hout
  rw [hticks, enter_ticks henter]

/-- The number of the process that is shown stays that of a slot. -/
theorem exception_showing (hs : s.showing < NPROC) (h : exception K reg s = .ok out) :
    out.state.showing < NPROC := by
  obtain ⟨s₁,henter,hout⟩ := exception_statics h
  have hshowing : out.state.showing = s₁.showing := congrArg (fun x => x.2.2) hout
  rw [hshowing]
  rw [exception_enter] at henter
  obtain ⟨s₂,hset,hrest⟩ := (bind_ok_iff _ _ _).1 henter
  split at hrest
  · obtain ⟨-,hani⟩ := (seq_ok_iff _ _ _).1 hrest
    exact (animate_statics hani).2
  · cases hrest
    have hsame : s₁.showing = s.showing := congrArg (fun x => x.2.2) (set_pagetable_statics hset)
    rwa [hsame]

end Statics

section Boot

theorem store_bytes_statics (src : ℕ → UInt8) (n : ℕ) {va : ℕ}
    (h : store_bytes src va n s = .ok s') : statics s' = statics s := by
  induction n generalizing src va s with
  | zero =>
    cases h
    rfl
  | succ n ih =>
    obtain ⟨s₁,hstore,hrest⟩ := (bind_ok_iff _ _ _).1 h
    have hfirst : statics s₁ = statics s := by
      rw [store_byte] at hstore
      split at hstore <;> cases hstore
      rfl
    exact (ih _ hrest).trans hfirst

theorem load_pages_statics {p : ℕ} {loaded : Bool} (l : List ℕ)
    (h : program_load_pages p none l s = .ok (loaded,s')) : statics s' = statics s := by
  induction l generalizing s with
  | nil =>
    cases h
    rfl
  | cons addr l ih =>
    rw [program_load_pages] at h
    have hassign := assign_statics addr (s.processes p).p_pid s
    rcases hpage : assign_physical_page addr (s.processes p).p_pid s with ⟨r,s₁⟩
    rw [hpage] at hassign
    simp only [hpage] at h
    split at h
    · cases h
      exact hassign
    · obtain ⟨⟨res,s₂⟩,hmap,hrest⟩ := (bind_ok_iff _ _ _).1 h
      have hmap' := (map_untouched stores_untouched hmap).trans hassign
      simp only at hrest
      split at hrest
      · cases hrest
        exact hmap'
      · exact (ih hrest).trans hmap'

theorem load_segment_statics {p : ℕ} {ph : elf_program} {src : ℕ → UInt8} {r : ℤ}
    (h : program_load_segment K p ph src none s = .ok (r,s')) : statics s' = statics s := by
  simp only [program_load_segment] at h
  obtain ⟨⟨loaded,s₁⟩,hpages,hrest⟩ := (bind_ok_iff _ _ _).1 h
  have hfirst := load_pages_statics _ hpages
  simp only at hrest
  split at hrest
  · cases hrest
    exact hfirst
  · obtain ⟨s₂,hset,hrest⟩ := (bind_ok_iff _ _ _).1 hrest
    obtain ⟨s₃,hcopy,hrest⟩ := (bind_ok_iff _ _ _).1 hrest
    obtain ⟨s₄,hclear,hrest⟩ := (bind_ok_iff _ _ _).1 hrest
    obtain ⟨s₅,hset',hrest⟩ := (bind_ok_iff _ _ _).1 hrest
    cases hrest
    calc statics s'
      _ = statics s₄ := set_pagetable_statics hset'
      _ = statics s₃ := store_bytes_statics _ _ hclear
      _ = statics s₂ := store_bytes_statics _ _ hcopy
      _ = statics s₁ := set_pagetable_statics hset
      _ = statics s := hfirst

theorem load_loop_statics {p : ℕ} {image : ramimage} {r : ℤ} (l : List elf_program)
    (h : program_load_loop K p image none l s = .ok (r,s')) : statics s' = statics s := by
  induction l generalizing s with
  | nil =>
    cases h
    rfl
  | cons ph l ih =>
    rw [program_load_loop] at h
    split at h
    · obtain ⟨⟨r₁,s₁⟩,hsegment,hrest⟩ := (bind_ok_iff _ _ _).1 h
      have hfirst := load_segment_statics hsegment
      simp only at hrest
      split at hrest
      · cases hrest
        exact hfirst
      · exact (ih hrest).trans hfirst
    · exact ih h

theorem load_statics {p program : ℕ} {r : ℤ} (h : program_load K p program none s = .ok (r,s')) :
    statics s' = statics s := by
  rw [program_load] at h
  split at h
  · cases h
  · obtain ⟨-,h⟩ := (seq_ok_iff _ _ _).1 h
    obtain ⟨⟨r₁,s₁⟩,hloop,hrest⟩ := (bind_ok_iff _ _ _).1 h
    have hfirst := load_loop_statics _ hloop
    simp only at hrest
    split at hrest <;> cases hrest <;> exact hfirst

theorem setup_statics {program : ℕ} (h : process_setup K pid program s = .ok s') :
    statics s' = statics s := by
  simp only [process_setup] at h
  obtain ⟨⟨pt,s₁⟩,hcopy,h⟩ := (bind_ok_iff _ _ _).1 h
  obtain ⟨⟨r,s₂⟩,hload,h⟩ := (bind_ok_iff _ _ _).1 h
  obtain ⟨-,h⟩ := (seq_ok_iff _ _ _).1 h
  obtain ⟨⟨r',s₃⟩,hmap,h⟩ := (bind_ok_iff _ _ _).1 h
  cases h
  have hfirst := copy_pagetable_statics hcopy
  have hsecond := load_statics hload
  have hlast := map_untouched kernel_untouched hmap
  exact hlast.trans ((get_free_addr_statics _ _).trans (hsecond.trans hfirst))

theorem kernel_init_statics (h : kernel_init K s = .ok s') : statics s' = statics s := by
  obtain ⟨s₁,hinit,h⟩ := (bind_ok_iff _ _ _).1 h
  obtain ⟨⟨r₁,s₂⟩,hlow,h⟩ := (bind_ok_iff _ _ _).1 h
  obtain ⟨⟨r₂,s₃⟩,hconsole,h⟩ := (bind_ok_iff _ _ _).1 h
  obtain ⟨⟨r₃,s₄⟩,hphysical,hcr3⟩ := (bind_ok_iff _ _ _).1 hinit
  cases h
  cases hcr3
  have hfirst := map_untouched stores_untouched hphysical
  have hsecond := map_untouched stores_untouched hlow
  exact (map_untouched stores_untouched hconsole).trans (hsecond.trans hfirst)

/-- The first process starts with the static variables as they were at the start of the kernel. -/
theorem kernel_statics {command : Option String} (h : kernel K command s = .ok out) :
    statics out.state = statics s := by
  have hfold : ∀ (l : List (ℕ × ℕ)) {s s' : KState},
      l.foldlM (fun s p => process_setup K p.1 p.2 s) s = .ok s' → statics s' = statics s := by
    intro l
    induction l with
    | nil =>
      intro s s' h
      cases h
      rfl
    | cons p l ih =>
      intro s s' h
      rw [List.foldlM_cons] at h
      obtain ⟨s₁,hsetup,hrest⟩ := (bind_ok_iff _ _ _).1 h
      exact (ih hrest).trans (setup_statics hsetup)
  obtain ⟨s₁,hinit,h⟩ := (bind_ok_iff _ _ _).1 h
  obtain ⟨s₂,hsetup,hrun⟩ := (bind_ok_iff _ _ _).1 h
  exact (run_statics hrun).trans ((hfold _ hsetup).trans (kernel_init_statics hinit))

theorem kernel_ticks {command : Option String} (h : kernel K command s = .ok out) :
    out.state.ticks = s.ticks := congrArg Prod.fst (kernel_statics h)

theorem kernel_showing {command : Option String} (h : kernel K command s = .ok out) :
    out.state.showing = s.showing := congrArg (fun x => x.2.2) (kernel_statics h)

end Boot

end WeensyOS.Clock
