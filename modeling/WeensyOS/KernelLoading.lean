import WeensyOS.BootLoader

/-!
# The kernel in memory

What the boot loader leaves of a kernel that `mkbootdisk` put on the disk: every
segment with its bytes and zeros, and nothing outside the sectors it touches.
-/

set_option autoImplicit false

namespace WeensyOS.KernelLoading
open WeensyOS.FlatMemory WeensyOS.KernelState WeensyOS.Boot WeensyOS.DiskImage
open WeensyOS.BootLoader

section Headers

variable {kernel disk : List UInt8} {m m' : Memory}

/-- The kernel file by its offsets. -/
def fileBytes (kernel : List UInt8) : Memory := fun i => kernel.getD i 0

def phoff (kernel : List UInt8) : ℕ := loadLE (fileBytes kernel) 0x20 8

def phnum (kernel : List UInt8) : ℕ := loadLE (fileBytes kernel) 0x38 2

/-- The program header `j` of the file. -/
def program (kernel : List UInt8) (j : ℕ) : elf_program :=
  elf_program_at (fileBytes kernel) (phoff kernel+56*j)

/-- A kernel file whose program headers are in its first page. -/
structure KernelFile (kernel : List UInt8) : Prop where
  sectors : kernel.length < 2^27*512
  magic : loadLE (fileBytes kernel) 0 4 = ELF_MAGIC
  headers : phoff kernel+56*phnum kernel ≤ PAGESIZE
  loadable : ∀ j < phnum kernel, SectorLoadable kernel (program kernel j)
  apart : ∀ i < phnum kernel, ∀ j < phnum kernel, i ≠ j →
    ∀ x, Span (program kernel i) x → ¬Span (program kernel j) x
  scratch : ∀ j < phnum kernel, ∀ x, Span (program kernel j) x → x < ELFHDR ∨ ELFHDR+PAGESIZE ≤ x

/-- The header page is in the scratch space. -/
def HeaderPage (kernel : List UInt8) (m : Memory) : Prop :=
  ∀ i < PAGESIZE, m (ELFHDR+i) = fileBytes kernel i

theorem HeaderPage.load (H : HeaderPage kernel m) {a n : ℕ} (h : a+n ≤ PAGESIZE) :
    loadLE m (ELFHDR+a) n = loadLE (fileBytes kernel) a n := by
  apply load_moved
  intro k hk
  rw [Nat.add_assoc]
  exact H _ (by omega)

theorem HeaderPage.program (H : HeaderPage kernel m) {a : ℕ} (h : a+56 ≤ PAGESIZE) :
    elf_program_at m (ELFHDR+a) = elf_program_at (fileBytes kernel) a := by
  simp only [elf_program_at, Nat.add_assoc]
  rw [H.load (by omega), H.load (by omega), H.load (by omega), H.load (by omega), H.load (by omega)]

/-- The first read brings the header page. -/
theorem header_read (D : KernelDisk kernel disk) {fuel : ℕ} (hfuel : disk.length < fuel)
    (m : Memory) : ∃ m', boot_readseg fuel disk m ELFHDR 1 PAGESIZE PAGESIZE = .ok m' ∧
      HeaderPage kernel m' ∧ ∀ x, x < ELFHDR ∨ ELFHDR+PAGESIZE ≤ x → m' x = m x := by
  have hfilled := D.filled
  have hread := @boot_readseg_blit disk 8 ELFHDR PAGESIZE PAGESIZE 1 fuel (by decide) (by decide)
    (by decide) (by decide) (by decide) (by decide)
    (by show 512*9 ≤ disk.length; omega) (by omega) m
  rw [Nat.sub_self, blit_zero] at hread
  refine ⟨_,hread,?_,?_⟩
  · intro i hi
    have hplace : ELFHDR / 512*512+i = ELFHDR+i := rfl
    rw [← hplace, blit_here _ _ _ _ _ hi]
    exact D.bytes i
  · intro x hx
    exact blit_other _ _ _ _ _ hx

end Headers

section Programs

variable {kernel disk : List UInt8} {m m' : Memory}

/-- The segments from `i` on are loaded, and what lies outside them is kept. -/
structure LoadedFrom (kernel : List UInt8) (i : ℕ) (m m' : Memory) : Prop where
  header : HeaderPage kernel m'
  holds : ∀ j, i ≤ j → j < phnum kernel → Holds kernel m' (program kernel j)
  kept : ∀ x, (∀ j, i ≤ j → j < phnum kernel → ¬Span (program kernel j) x) → m' x = m x

theorem LoadedFrom.cons (F : KernelFile kernel) {i : ℕ} (hi : i < phnum kernel) {m₁ : Memory}
    (H : Holds kernel m₁ (program kernel i))
    (hkept : ∀ x, ¬Span (program kernel i) x → m₁ x = m x) (L : LoadedFrom kernel (i+1) m₁ m') :
    LoadedFrom kernel i m m' where
  header := L.header
  holds j hij hj := by
    rcases Nat.eq_or_lt_of_le hij with rfl | hlt
    · apply H.congr _ (F.loadable i hi).sizes
      intro x hx
      exact L.kept x fun j hlow hhigh => F.apart i hi j hhigh (by omega) x hx
    · exact L.holds j hlt hj
  kept x hx := by
    rw [L.kept x fun j hlow hhigh => hx j (by omega) hhigh]
    exact hkept x (hx i le_rfl hi)

theorem program_loop_loads (D : KernelDisk kernel disk) (F : KernelFile kernel)
    (hround : ∀ j < phnum kernel,
      (program kernel j).p_va+(program kernel j).p_filesz ≤ 2^64-512)
    {fuel : ℕ} (hfuel : disk.length < fuel) (k : ℕ) {i n : ℕ} (hi : i+k = phnum kernel)
    (hn : k < n) (H : HeaderPage kernel m) :
    ∃ m', program_loop fuel disk (ELFHDR+phoff kernel+56*phnum kernel) n m
        (ELFHDR+phoff kernel+56*i) = .ok m' ∧ LoadedFrom kernel i m m' := by
  have hheaders := F.headers
  have hpage : PAGESIZE = 4096 := rfl
  have hbase : ELFHDR = 0x10000 := rfl
  induction k generalizing i n m with
  | zero =>
    cases n with
    | zero => omega
    | succ n =>
      rw [program_loop, if_neg (by omega)]
      exact ⟨m,rfl,H,fun j hlow hhigh => by omega,fun x _ => rfl⟩
  | succ k ih =>
    cases n with
    | zero => omega
    | succ n =>
      have hlt : i < phnum kernel := by omega
      have hhead : elf_program_at m (ELFHDR+phoff kernel+56*i) = program kernel i := by
        rw [Nat.add_assoc]
        exact H.program (by omega)
      obtain ⟨m₁,hseg,H₁,hkept⟩ := segment_held D F.sectors (F.loadable i hlt) (hround i hlt)
        hfuel m
      have hpage₁ : HeaderPage kernel m₁ := by
        intro j hj
        rw [hkept, H j hj]
        intro hspan
        have := F.scratch i hlt _ hspan
        omega
      have hnext : (ELFHDR+phoff kernel+56*i+56) % 2^64 = ELFHDR+phoff kernel+56*(i+1) := by
        rw [Nat.mod_eq_of_lt (by omega)]
        ring
      obtain ⟨m',hrest,L⟩ := ih (i := i+1) (n := n) (by omega) (by omega) hpage₁
      refine ⟨m',?_,L.cons F hlt H₁ hkept⟩
      rw [program_loop, if_pos (by omega), hhead]
      simp only [hseg, bind, Except.bind]
      rw [hnext]
      exact hrest

/-- After the header page, `boot` runs over the program headers. -/
theorem boot_programs (D : KernelDisk kernel disk) (F : KernelFile kernel) {fuel : ℕ}
    (hfuel : disk.length < fuel) (m : Memory) : ∃ m₁, HeaderPage kernel m₁ ∧
      (∀ x, x < ELFHDR ∨ ELFHDR+PAGESIZE ≤ x → m₁ x = m x) ∧
      boot fuel disk m = program_loop fuel disk (ELFHDR+phoff kernel+56*phnum kernel) fuel m₁
        (ELFHDR+phoff kernel) >>= fun m' => .ok (m',loadLE m' (ELFHDR+0x18) 8) := by
  have hheaders := F.headers
  have hpage : PAGESIZE = 4096 := rfl
  have hbase : ELFHDR = 0x10000 := rfl
  obtain ⟨m₁,hread,H,hkept⟩ := header_read D hfuel m
  have hmagic : loadLE m₁ ELFHDR 4 = ELF_MAGIC := (H.load (a := 0) (by decide)).trans F.magic
  have hph : (ELFHDR+loadLE m₁ (ELFHDR+0x20) 8) % 2^64 = ELFHDR+phoff kernel := by
    rw [H.load (by decide)]
    exact Nat.mod_eq_of_lt (by rw [← phoff]; omega)
  have heph : (ELFHDR+phoff kernel+56*loadLE m₁ (ELFHDR+0x38) 2) % 2^64 =
      ELFHDR+phoff kernel+56*phnum kernel := by
    rw [H.load (by decide)]
    exact Nat.mod_eq_of_lt (by rw [← phnum]; omega)
  refine ⟨m₁,H,hkept,?_⟩
  rw [boot, hread]
  simp only [bind, Except.bind]
  rw [if_neg (fun h => h hmagic), hph, heph]

end Programs

/-- The loader ends with every segment of the kernel in memory and with every byte outside their
rounded spans and the scratch page as it was. -/
theorem boot_loads_kernel (bootsector kernel : List UInt8) (answers : List Answer) (d : Disk)
    (m : Memory) (hboot : bootsector.length ≤ 510) (F : KernelFile kernel)
    (hround : ∀ j < phnum kernel,
      (program kernel j).p_va+(program kernel j).p_filesz ≤ 2^64-512)
    (hdisk : mkbootdisk bootsector kernel answers = .ok d) (fuel : ℕ)
    (hfuel : d.out.length < fuel) :
    ∃ m', boot fuel d.out m = .ok (m',loadLE (fileBytes kernel) 0x18 8) ∧
      (∀ j < phnum kernel, ∀ p, p = program kernel j →
        (∀ i < p.p_filesz, kernel[p.p_offset+i]? = some (m' (p.p_va+i))) ∧
        ∀ i, p.p_filesz ≤ i → i < p.p_memsz → m' (p.p_va+i) = 0) ∧
      ∀ x, (∀ j < phnum kernel, ¬Span (program kernel j) x) →
        (x < ELFHDR ∨ ELFHDR+PAGESIZE ≤ x) → m' x = m x := by
  have D := mkbootdisk_disk hboot hdisk
  have hfilled := D.filled
  have hheaders := F.headers
  have hpage : PAGESIZE = 4096 := rfl
  obtain ⟨m₁,H,hkept,hrun⟩ := boot_programs D F hfuel m
  obtain ⟨m',hloop,L⟩ := program_loop_loads D F hround hfuel (phnum kernel) (i := 0) (n := fuel)
    (Nat.zero_add _) (by omega) H
  rw [Nat.mul_zero, Nat.add_zero] at hloop
  rw [hloop] at hrun
  refine ⟨m',?_,?_,?_⟩
  · rw [hrun]
    simp only [bind, Except.bind]
    rw [L.header.load (by decide)]
  · rintro j hj p rfl
    have hinside := (F.loadable j hj).inside
    obtain ⟨hfile,hbss⟩ := L.holds j (Nat.zero_le j) hj
    refine ⟨fun i hi => ?_,hbss⟩
    rw [hfile i hi, List.getD_eq_getElem _ _ (by omega), List.getElem?_eq_getElem]
  · intro x hx hscratch
    rw [L.kept x fun j _ hj => hx j hj]
    exact hkept x hscratch

section Samples

def littleEndian (v n : ℕ) : List UInt8 := (List.range n).map fun k => UInt8.ofNat (v / 256^k)

/-- A kernel file with one segment at the start of the file. -/
def oneSegment (va filesz memsz : ℕ) : List UInt8 :=
  [0x7F,0x45,0x4C,0x46]++zeros 28++littleEndian 64 8++zeros 16++littleEndian 1 2++zeros 6++
    littleEndian 1 4++zeros 12++littleEndian va 8++zeros 8++littleEndian filesz 8++
    littleEndian memsz 8++zeros 8

/-- A kernel file by what its header says. -/
theorem single_file {kernel : List UInt8} (va filesz memsz : ℕ) (hlen : kernel.length = 120)
    (hmagic : loadLE (fileBytes kernel) 0 4 = ELF_MAGIC) (hphoff : phoff kernel = 64)
    (hphnum : phnum kernel = 1) (hprogram : program kernel 0 = ⟨1,0,va,filesz,memsz⟩)
    (haligned : va % 512 = 0) (hsizes : filesz ≤ memsz) (hinside : filesz ≤ 120)
    (hfits : va+memsz < 2^64) (hscratch : 0x11000 ≤ va) : KernelFile kernel := by
  have hzero : ∀ j < phnum kernel, j = 0 := fun j hj => by omega
  refine ⟨by omega,hmagic,by rw [hphoff, hphnum]; decide,fun j hj => ?_,
    fun i hi j hj hij => absurd ((hzero i hi).trans (hzero j hj).symm) hij,fun j hj x hx => ?_⟩
  · rw [hzero j hj, hprogram]
    refine ⟨?_,hsizes,?_,hfits⟩
    · show 0 % 512 = va % 512
      omega
    · show 0+filesz ≤ kernel.length
      omega
  · rw [hzero j hj, hprogram] at hx
    have hlow : va / 512*512 ≤ x := hx.1
    right
    show 0x10000+4096 ≤ x
    omega

theorem sample_file : KernelFile (oneSegment 0x40000 64 100) :=
  single_file 0x40000 64 100 (by decide +kernel) (by decide +kernel) (by decide +kernel)
    (by decide +kernel) (by decide +kernel) (by decide) (by decide) (by decide) (by decide)
    (by decide)

/-- The first byte of the file at the start of the segment, and a zero at its end. -/
theorem sample_kernel_loaded : ∃ d m', mkbootdisk [0xEB,0xFE] (oneSegment 0x40000 64 100)
    (List.replicate 1146 (.wrote 4096)) = .ok d ∧
    boot (d.out.length+1) d.out (fun _ => 1) = .ok (m',0) ∧
    m' 0x40000 = 0x7F ∧ m' 0x40063 = 0 ∧ m' 0x40200 = 1 := by
  obtain ⟨d,hd⟩ := mkbootdisk_complete [0xEB,0xFE] (oneSegment 0x40000 64 100) (by decide)
    (n := 1146) (by decide +kernel)
  have hone : phnum (oneSegment 0x40000 64 100) = 1 := by decide +kernel
  have hprogram : program (oneSegment 0x40000 64 100) 0 = ⟨1,0,0x40000,64,100⟩ := by decide +kernel
  obtain ⟨m',hrun,hsegments,hkept⟩ := boot_loads_kernel [0xEB,0xFE] (oneSegment 0x40000 64 100) _ d
    (fun _ => 1) (by decide) sample_file (fun j hj => by
      have hj0 : j = 0 := by omega
      rw [hj0, hprogram]
      decide) hd (d.out.length+1) (Nat.lt_succ_self _)
  obtain ⟨hfile,hbss⟩ := hsegments 0 (by omega) _ hprogram.symm
  have hentry : loadLE (fileBytes (oneSegment 0x40000 64 100)) 0x18 8 = 0 := by decide +kernel
  rw [hentry] at hrun
  refine ⟨d,m',hd,hrun,?_,hbss 99 (by decide) (by decide),?_⟩
  · have hfirst := hfile 0 (by decide)
    have hbyte : (oneSegment 0x40000 64 100)[0]? = some 0x7F := by decide +kernel
    exact (Option.some.inj (hbyte.symm.trans hfirst)).symm
  · apply hkept 0x40200
    · intro j hj hspan
      have hj0 : j = 0 := by omega
      rw [hj0, hprogram] at hspan
      exact absurd hspan.2 (by decide)
    · right
      decide

/-- At the top of the address space the pointer wraps before it reaches the end. -/
theorem read_loop_spins {disk : List UInt8} {end_ptr : ℕ} (hend : 2^64-512 < end_ptr) (fuel : ℕ)
    (m : Memory) (ptr : ℕ) (src_sect : UInt32) (hptr : ptr % 512 = 0) (htop : ptr < 2^64)
    (m' : Memory) : read_loop disk end_ptr fuel m ptr src_sect ≠ .ok m' := by
  induction fuel generalizing m ptr src_sect with
  | zero =>
    intro h
    cases h
  | succ fuel ih =>
    rw [read_loop, if_pos (by omega)]
    intro h
    cases hread : boot_readsect disk m ptr src_sect with
    | error e =>
      rw [hread] at h
      cases h
    | ok m₁ =>
      rw [hread] at h
      refine ih m₁ _ _ ?_ ?_ h
      · show (ptr+512) % 2^64 % 512 = 0
        omega
      · exact Nat.mod_lt _ (by decide)

theorem last_sector_spins (fuel : ℕ) (disk : List UInt8) (m m' : Memory) (src_sect : UInt32) :
    boot_readseg fuel disk m (2^64-512) src_sect 1 1 ≠ .ok m' := by
  intro h
  rw [boot_readseg] at h
  cases hread : read_loop disk ((2^64-512+1) % 2^64) fuel m ((2^64-512) / SECTORSIZE*SECTORSIZE)
      src_sect with
  | error e =>
    simp only [hread] at h
    cases h
  | ok m₁ =>
    exact read_loop_spins (by decide) fuel m _ src_sect (by decide) (by decide) m₁ hread

theorem last_sector_file : KernelFile (oneSegment (2^64-512) 1 1) :=
  single_file (2^64-512) 1 1 (by decide +kernel) (by decide +kernel)
    (by decide +kernel) (by decide +kernel) (by decide +kernel) (by decide) (by decide) (by decide)
    (by decide) (by decide)

/-- A segment in the last sector of the address space is never loaded. -/
theorem last_sector_never_loaded : ¬∀ (bootsector kernel : List UInt8) (answers : List Answer)
    (d : Disk) (m : Memory), bootsector.length ≤ 510 → KernelFile kernel →
    mkbootdisk bootsector kernel answers = .ok d →
    ∃ n, ∀ fuel, n < fuel → ∃ r, boot fuel d.out m = .ok r := by
  intro h
  have F := last_sector_file
  have hphoff : phoff (oneSegment (2^64-512) 1 1) = 64 := by decide +kernel
  have hphnum : phnum (oneSegment (2^64-512) 1 1) = 1 := by decide +kernel
  have hprogram : program (oneSegment (2^64-512) 1 1) 0 = ⟨1,0,2^64-512,1,1⟩ := by decide +kernel
  obtain ⟨d,hd⟩ := mkbootdisk_complete [] (oneSegment (2^64-512) 1 1) (by decide) (n := 1146)
    (by decide +kernel)
  obtain ⟨n,hn⟩ := h [] _ _ d (fun _ => 0) (by decide) F hd
  obtain ⟨r,hr⟩ := hn (n+d.out.length+1) (by omega)
  obtain ⟨m₁,H,-,hrun⟩ := boot_programs (mkbootdisk_disk (by decide) hd) F
    (show d.out.length < n+d.out.length+1 by omega) fun _ => 0
  have hhead : elf_program_at m₁ (ELFHDR+64) = ⟨1,0,2^64-512,1,1⟩ := by
    rw [H.program (by decide), ← hprogram, program, hphoff]
  rw [hrun, hphoff, hphnum, program_loop, if_pos (by decide), hhead] at hr
  cases hseg : boot_readseg (n+d.out.length+1) d.out m₁ (2^64-512)
      (UInt32.ofNat (0 / SECTORSIZE+1)) 1 1 with
  | error e =>
    simp only [hseg] at hr
    cases hr
  | ok m₂ => exact last_sector_spins _ _ _ _ _ hseg

end Samples
end WeensyOS.KernelLoading
