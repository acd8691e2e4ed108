import WeensyOS.BootResult

/-!
# When booting succeeds

A command that starts one process boots if the segments of its program lie in
physical memory and share no page. The allocator takes the lowest free pages
first, so the pages of the segments are still free when they are loaded.
-/

set_option autoImplicit false

namespace WeensyOS.BootRun
open WeensyOS.FlatMemory WeensyOS.KernelState WeensyOS.PageTables WeensyOS.Exceptions
open WeensyOS.Boot WeensyOS.CheckedRuns WeensyOS.TableWords WeensyOS.FreePages
open WeensyOS.PagingInvariant WeensyOS.TableCopies WeensyOS.KernelInvariant
open WeensyOS.KernelChecks WeensyOS.KernelSteps WeensyOS.Isolation WeensyOS.KernelTables
open WeensyOS.ProgramLoading WeensyOS.BootResult

variable {K : KernelImage} {roots : ℤ → Option ℕ} {label : Labels} {pid r : ℕ}
  {s₀ s s' : KState}

/-- The pages of a segment. -/
abbrev segmentPages (ph : elf_program) : List ℕ := addrs ph.p_va (ph.p_va+ph.p_memsz)

/-- A segment that fits into physical memory. -/
structure Fits (ph : elf_program) : Prop where
  placed : Placed ph
  file : ph.p_filesz ≤ ph.p_memsz
  within : ph.p_va+ph.p_memsz ≤ MEMSIZE_PHYSICAL

/-- Segments without a common page. -/
def Apart (ph ph' : elf_program) : Prop :=
  ∀ va ∈ segmentPages ph, ∀ va' ∈ segmentPages ph', va / 4096 ≠ va' / 4096

def loadable (image : ramimage) : List elf_program :=
  image.e_program.filter fun ph => ph.p_type = ELF_PTYPE_LOAD

/-- The program can be loaded into empty user memory. -/
structure FitsImage (image : ramimage) : Prop where
  magic : image.e_magic = ELF_MAGIC
  fits : ∀ ph ∈ loadable image, Fits ph
  apart : (loadable image).Pairwise Apart

theorem load_loop_run (L : Loader roots pid r s₀) (image : ramimage) (l : List elf_program)
    (hfits : ∀ ph ∈ l, ph.p_type = ELF_PTYPE_LOAD → Fits ph)
    (hapart : (l.filter fun ph => ph.p_type = ELF_PTYPE_LOAD).Pairwise Apart) {s : KState}
    (W : Loading K roots label pid r s₀ s)
    (hfree : ∀ ph ∈ l, ph.p_type = ELF_PTYPE_LOAD → ∀ va ∈ segmentPages ph,
      va / 4096 ∈ freePages s) :
    ∃ s', program_load_loop K pid image none l s = .ok (0,s') ∧
      Loading K roots label pid r s₀ s' ∧
      ∀ x, leafWord s'.mem r x ≠ 0 → leafWord s.mem r x ≠ 0 ∨
        ∃ ph ∈ l, ph.p_type = ELF_PTYPE_LOAD ∧ vpage x ∈ (segmentPages ph).map vpage := by
  induction l generalizing s with
  | nil => exact ⟨s,rfl,W,fun _ h => Or.inl h⟩
  | cons ph l ih =>
    by_cases hload : ph.p_type = ELF_PTYPE_LOAD
    · have hph := hfits ph (by simp) hload
      obtain ⟨s₁,hseg,W₁,hleaf,hinfo⟩ := load_segment_run L hph.placed
        (fun k => image.bytes (ph.p_offset+k)) W hph.file hph.within (hfree ph (by simp) hload)
      rw [List.filter_cons_of_pos (by simpa using hload), List.pairwise_cons] at hapart
      obtain ⟨s',hrest,W',hleaf'⟩ := ih (fun x hx => hfits x (by simp [hx])) hapart.2 W₁
        fun x hx hxl va hva => by
          have hold := hfree x (by simp [hx]) hxl va hva
          have hother : va / 4096 ∉ (segmentPages ph).map (· / 4096) := fun h => by
            obtain ⟨va',hva',heq⟩ := List.mem_map.1 h
            exact hapart.1 x (List.mem_filter.2 ⟨hx,by simpa using hxl⟩) va' hva' va hva heq
          rw [mem_freePages] at hold ⊢
          rw [hinfo _ hother]
          exact hold
      refine ⟨s',?_,W',fun x hx => ?_⟩
      · simp only [program_load_loop, if_pos hload, hseg, bind, Except.bind, lt_self_iff_false,
          if_false, hrest]
      · rcases hleaf' x hx with h | ⟨ph',hmem,h⟩
        · rw [hleaf x] at h
          split at h
          · rename_i hin
            exact Or.inr ⟨ph,by simp,hload,hin⟩
          · exact Or.inl h
        · exact Or.inr ⟨ph',by simp [hmem],h⟩
    · rw [List.filter_cons_of_neg (by simpa using hload)] at hapart
      obtain ⟨s',hrest,W',hleaf'⟩ := ih (fun x hx => hfits x (by simp [hx])) hapart W
        fun x hx => hfree x (by simp [hx])
      refine ⟨s',?_,W',fun x hx => ?_⟩
      · rw [program_load_loop, if_neg hload, hrest]
      · rcases hleaf' x hx with h | ⟨ph',hmem,h⟩
        · exact Or.inl h
        · exact Or.inr ⟨ph',List.mem_cons_of_mem _ hmem,h⟩

/-- While low pages are left, the allocator takes no page of user memory. -/
theorem high_kept (hlowest : Lowest s s') (hlow : 0 < lowFree s') {pn : ℕ} (hpn : 256 ≤ pn)
    (hfree : pn ∈ freePages s) : pn ∈ freePages s' := by
  obtain ⟨g,hg⟩ := Finset.card_pos.1 hlow
  rw [Finset.mem_filter] at hg
  by_contra h
  have := hlowest.below pn hfree h g hg.1
  omega

/-- Pages of user memory are free at first. -/
theorem initial_high
    (hpages : ∀ pn < 512, s.pageinfo pn = pageinfo_init_entry K (pn*4096)) {pn : ℕ}
    (hlo : 256 ≤ pn) (hhi : pn < 512) : pn ∈ freePages s := by
  have hend := K.end_below_stack
  have hreserved : physical_memory_isreserved (pn*4096) = false := by
    simp only [physical_memory_isreserved, decide_eq_false_iff_not, IOPHYSMEM, EXTPHYSMEM]
    omega
  have hkernel : ¬((KERNEL_START_ADDR ≤ pn*4096 ∧ pn*4096 < K.kernel_end) ∨
      pn*4096 = KERNEL_STACK_TOP-PAGESIZE) := by
    simp only [KERNEL_START_ADDR, KERNEL_STACK_TOP, PAGESIZE] at hend ⊢
    omega
  rw [mem_freePages, hpages pn hhi]
  refine ⟨hhi,?_⟩
  simp only [pageinfo_init_entry, hreserved, Bool.false_eq_true, if_false, if_neg hkernel]
  rfl

/-- A command that starts one process, with a program that fits. -/
theorem kernel_run {command : Option String} {program : ℕ} {image : ramimage}
    (hcommand : boot_programs command = [(1,program)])
    (himage : K.ramimages[program]? = some image) (hfits : FitsImage image) (s : KState) :
    ∃ label s', kernel K command s = .ok (.user s') ∧ Booted K label s' ∧ 55 ≤ freeCount s' ∧
      (∀ pid, Slot pid → pid ≠ 1 → (s'.processes pid).p_state = .P_FREE) ∧
      ∀ va, 256 ≤ vpage va → leafWord s'.mem (s'.processes 1).p_pagetable va ≠ 0 →
        vpage va = 767 ∨ ∃ ph ∈ loadable image, vpage va ∈ (segmentPages ph).map vpage := by
  obtain ⟨m,hinit,B,hprocs,hpages⟩ := initial_booting K s
  have hlow := initial_low hpages
  have hp : Slot 1 := ⟨by decide,by decide⟩
  have hstate : ((initial K s m).processes 1).p_state = .P_FREE := by rw [hprocs 1 (by decide)]
  obtain ⟨r,label₁,s₁,R,hsetup⟩ := setup_root B hp hstate (by omega) program
  have hlow₁ := R.low
  have hfits' : ∀ ph ∈ image.e_program, ph.p_type = ELF_PTYPE_LOAD → Fits ph :=
    fun ph hph hload => hfits.fits ph (List.mem_filter.2 ⟨hph,by simpa using hload⟩)
  obtain ⟨s₂,hloop,W,hleaf⟩ := load_loop_run R.loader image image.e_program hfits' hfits.apart
    R.loading fun ph hph hload va hva => by
      have hf := hfits' ph hph hload
      have hlo := hf.placed.2.1
      have hhi := hf.within
      obtain ⟨k,rfl,hlt⟩ := (mem_addrs _ _ _).1 hva
      simp only [PROC_START_ADDR, MEMSIZE_PHYSICAL] at hlo hhi
      exact high_kept R.lowest (by omega) (by omega)
        (initial_high hpages (by omega) (by omega))
  obtain ⟨label',s₃,hfinish,B',hlow',hother,hrun,htable,-,-,-,hstack⟩ :=
    setup_stack B hp R W (by omega)
    { (s₂.processes 1).p_registers with reg_rip := image.e_entry }
  have hload : program_load K 1 program none s₁ = .ok (0,s₂.setRegisters 1
      { (s₂.processes 1).p_registers with reg_rip := image.e_entry }) := by
    simp only [program_load, himage, hfits.magic, kassert, if_true, bind, Except.bind, hloop,
      lt_self_iff_false, if_false]
  have hdone : process_setup K 1 program (initial K s m) = .ok s₃ := by
    rw [hsetup, hload]
    simp only [Except.bind, kassert, ge_iff_le, le_refl, if_true]
    exact hfinish
  have hlive : live s₃ 1 := ⟨by rw [hrun]; simp,(B'.runnable 1 hp (by rw [hrun]; simp)).2⟩
  have P₃ : Paging K (rootsOf K s₃) label' { s₃ with current := 1 } :=
    Paging.congr B'.paging rfl rfl
  have hroot := rootsOf_live (K := K) hp hlive
  have hset : set_pagetable K (s₃.processes 1).p_pagetable { s₃ with current := 1 } =
      .ok { s₃ with current := 1, cr3 := (s₃.processes 1).p_pagetable } :=
    (set_pagetable_iff P₃ (P₃.forest.root _ _ hroot)).2
      ⟨low_handlers P₃ hroot (B'.isolated.low _ _ hp.owner hroot),rfl⟩
  have hout : run K 1 s₃ = .ok (.user { s₃ with current := 1, cr3 := (s₃.processes 1).p_pagetable }) := by
    simp only [run, hrun, kassert, if_true, bind, Except.bind, hset]
  obtain ⟨s₄,heq,B₄,-,hprocs₄,hinfo₄,hmem₄⟩ := booting_run B' hout
  refine ⟨label',s₄,?_,B₄,?_,fun pid hpid hne => ?_,fun va hva hne => ?_⟩
  · rw [kernel, hinit, hcommand]
    simp only [List.foldlM_cons, List.foldlM_nil, bind, Except.bind, hdone, pure, Except.pure]
    rw [hout, heq]
  · have hle := lowFree_le s₃
    rw [freeCount_congr hinfo₄]
    omega
  · rw [hprocs₄, hother pid hne, hprocs pid hpid.2]
  · rw [hprocs₄, hmem₄, htable] at hne
    rcases hstack va hva hne with h | h
    · rcases hleaf va h with h' | ⟨ph,hph,hl,hv⟩
      · exact absurd (R.empty va hva) h'
      · exact Or.inr ⟨ph,List.mem_filter.2 ⟨hph,by simpa using hl⟩,hv⟩
    · exact Or.inl h

section Sample

/-- The segments of a small program: code, and a page of zeros. -/
def sampleImage : ramimage where
  e_magic := ELF_MAGIC
  e_entry := 0x100000
  e_program := [⟨ELF_PTYPE_LOAD,0x1000,0x100000,0xC57,0xC57⟩,⟨ELF_PTYPE_LOAD,0x2000,0x101000,0,0x18⟩]
  bytes k := UInt8.ofNat k

/-- A kernel of the usual layout with six such programs. -/
def sampleKernel : KernelImage where
  start_data := 0x45000
  kernel_end := 0x5C010
  kernel_pagetables := 0x57000
  default_int_handler := 0x4009C
  virtual_memory_map := 0x422BC
  ramimages := List.replicate 6 sampleImage
  text_start := by decide
  data_aligned := rfl
  tables_aligned := rfl
  tables_in_data := by decide
  tables_end := by decide
  end_below_stack := by decide
  handler_in_text := ⟨by decide,by decide⟩
  map_in_text := ⟨by decide,by decide⟩

/-- Memory before the first boot. -/
def powerOn : KState :=
  ⟨fun _ => 0,fun _ => ⟨0,0⟩,fun _ => ⟨0,.zero,.P_FREE,0⟩,0,-1,0,0,0,0⟩

theorem sample_loadable : Loadable sampleKernel := by
  intro image himage ph hph _
  rw [List.eq_of_mem_replicate himage] at hph
  simp only [sampleImage, List.mem_cons, List.not_mem_nil, or_false] at hph
  rcases hph with rfl | rfl
  · exact ⟨by decide,by decide,by decide⟩
  · exact ⟨by decide,by decide,by decide⟩

theorem sample_pages : (loadable sampleImage).map segmentPages = [[0x100000],[0x101000]] := by
  decide

theorem sample_fits : FitsImage sampleImage := by
  have hload : loadable sampleImage = sampleImage.e_program := rfl
  refine ⟨rfl,?_,?_⟩
  · rw [hload]
    simp only [sampleImage, List.mem_cons, List.not_mem_nil, or_false, forall_eq_or_imp, forall_eq]
    exact ⟨⟨⟨by decide,by decide,by decide⟩,by decide,by decide⟩,
      ⟨⟨by decide,by decide,by decide⟩,by decide,by decide⟩⟩
  · rw [hload]
    simp only [sampleImage, List.pairwise_cons, List.mem_singleton, forall_eq, List.not_mem_nil,
      List.Pairwise.nil, and_true, Apart]
    refine ⟨?_,fun _ h => (by cases h)⟩
    decide

/-- The sample kernel boots, with three pages of user memory mapped. -/
theorem sample_boot (s : KState) : ∃ label s',
    kernel sampleKernel (some "fork") s = .ok (.user s') ∧ Booted sampleKernel label s' ∧
      55 ≤ freeCount s' ∧
      (∀ pid, Slot pid → pid ≠ 1 → (s'.processes pid).p_state = .P_FREE) ∧
      ∀ va, 256 ≤ vpage va → leafWord s'.mem (s'.processes 1).p_pagetable va ≠ 0 →
        vpage va = 767 ∨ vpage va = 256 ∨ vpage va = 257 := by
  have hcommand : boot_programs (some "fork") = [(1,4)] := rfl
  obtain ⟨label,s',hrun,B,hfree,hslots,hleaf⟩ := kernel_run (K := sampleKernel)
    hcommand rfl sample_fits s
  refine ⟨label,s',hrun,B,hfree,hslots,fun va hva hne => (hleaf va hva hne).imp id ?_⟩
  rintro ⟨ph,hph,hv⟩
  have hpages : segmentPages ph ∈ (loadable sampleImage).map segmentPages :=
    List.mem_map_of_mem hph
  rw [sample_pages] at hpages
  simp only [List.mem_cons, List.not_mem_nil, or_false] at hpages
  have h256 : vpage 0x100000 = 256 := by decide
  have h257 : vpage 0x101000 = 257 := by decide
  rcases hpages with h | h
  · rw [h, List.map_singleton, List.mem_singleton, h256] at hv
    exact Or.inl hv
  · rw [h, List.map_singleton, List.mem_singleton, h257] at hv
    exact Or.inr hv

end Sample

end WeensyOS.BootRun
