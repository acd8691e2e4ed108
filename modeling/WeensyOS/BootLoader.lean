import WeensyOS.Boot
import WeensyOS.DiskImage
import WeensyOS.PackedWords

/-!
# The boot loader

`boot` reads the kernel's headers from sector 1 on, then every segment by whole
sectors, and clears the rest of the segment. A sector of the disk is read at
its place in the output of `mkbootdisk`. The loops of the loader have fuel.
-/

set_option autoImplicit false

namespace WeensyOS.BootLoader
open WeensyOS.FlatMemory WeensyOS.KernelState WeensyOS.Boot WeensyOS.DiskImage
open WeensyOS.PackedWords

section Source

abbrev SECTORSIZE : ℕ := 512
abbrev ELFHDR : ℕ := 0x10000

inductive Fault where
  | sector   -- a sector behind the end of the disk
  | magic    -- `while (ELFHDR->e_magic != ELF_MAGIC)`
  | running  -- out of fuel
deriving DecidableEq

/-- The sector that the drive reads for the bytes at ports 0x1F3 to 0x1F6. -/
def sectorNumber (b0 b1 b2 b3 : UInt8) : ℕ :=
  b0.toNat+2^8*b1.toNat+2^16*b2.toNat+2^24*(b3.toNat % 16)

def boot_readsect (disk : List UInt8) (m : Memory) (dst : ℕ) (src_sect : UInt32) :
    Except Fault Memory :=
  let n := sectorNumber src_sect.toUInt8 (src_sect >>> 8).toUInt8 (src_sect >>> 16).toUInt8
    ((src_sect >>> 24) ||| 0xE0).toUInt8
  if SECTORSIZE*(n+1) ≤ disk.length then
    .ok (blit m dst SECTORSIZE fun i => disk.getD (SECTORSIZE*n+i) 0)
  else .error .sector

/-- `for (; ptr < end_ptr; ptr += SECTORSIZE, ++src_sect)` -/
def read_loop (disk : List UInt8) (end_ptr : ℕ) : ℕ → Memory → ℕ → UInt32 → Except Fault Memory
  | 0, _, _, _ => .error .running
  | fuel+1, m, ptr, src_sect =>
    if ptr < end_ptr then do
      let m ← boot_readsect disk m ptr src_sect
      read_loop disk end_ptr fuel m ((ptr+SECTORSIZE) % 2^64) (src_sect+1)
    else .ok m

/-- `for (; end_ptr < memsz; ++end_ptr)` -/
def clear_loop (m : Memory) (end_ptr memsz : ℕ) : Memory :=
  if end_ptr < memsz then clear_loop (Function.update m end_ptr 0) (end_ptr+1) memsz else m
termination_by memsz-end_ptr

def boot_readseg (fuel : ℕ) (disk : List UInt8) (m : Memory) (ptr : ℕ) (src_sect : UInt32)
    (filesz memsz : ℕ) : Except Fault Memory := do
  let end_ptr := (ptr+filesz) % 2^64
  let memsz := (memsz+ptr) % 2^64
  let m ← read_loop disk end_ptr fuel m (ptr / SECTORSIZE*SECTORSIZE) src_sect
  .ok (clear_loop m end_ptr memsz)

/-- The program header at `ph`. -/
def elf_program_at (m : Memory) (ph : ℕ) : elf_program where
  p_type := loadLE m ph 4
  p_offset := loadLE m (ph+0x08) 8
  p_va := loadLE m (ph+0x10) 8
  p_filesz := loadLE m (ph+0x20) 8
  p_memsz := loadLE m (ph+0x28) 8

/-- `for (; ph < eph; ++ph)` -/
def program_loop (fuel : ℕ) (disk : List UInt8) (eph : ℕ) : ℕ → Memory → ℕ → Except Fault Memory
  | 0, _, _ => .error .running
  | n+1, m, ph =>
    if ph < eph then do
      let p := elf_program_at m ph
      let m ← boot_readseg fuel disk m p.p_va (UInt32.ofNat (p.p_offset / SECTORSIZE+1))
        p.p_filesz p.p_memsz
      program_loop fuel disk eph n m ((ph+56) % 2^64)
    else .ok m

/-- The memory, and the address that the loader jumps to. -/
def boot (fuel : ℕ) (disk : List UInt8) (m : Memory) : Except Fault (Memory × ℕ) := do
  let m ← boot_readseg fuel disk m ELFHDR 1 PAGESIZE PAGESIZE
  if loadLE m ELFHDR 4 ≠ ELF_MAGIC then .error .magic
  else do
    let ph := (ELFHDR+loadLE m (ELFHDR+0x20) 8) % 2^64
    let eph := (ph+56*loadLE m (ELFHDR+0x38) 2) % 2^64
    let m ← program_loop fuel disk eph fuel m ph
    .ok (m,loadLE m (ELFHDR+0x18) 8)

end Source

section Sectors

variable {disk : List UInt8} {m : Memory} {ptr end_ptr memsz n : ℕ}

/-- The four bytes name every sector below 2^28. -/
theorem sectorNumber_eq {src_sect : UInt32} (h : src_sect.toNat < 2^28) :
    sectorNumber src_sect.toUInt8 (src_sect >>> 8).toUInt8 (src_sect >>> 16).toUInt8
      ((src_sect >>> 24) ||| 0xE0).toUInt8 = src_sect.toNat := by
  have h0 : src_sect.toUInt8.toNat = slice src_sect.toNat 0 8 := by
    simp [slice]
  have h1 : (src_sect >>> 8).toUInt8.toNat = slice src_sect.toNat 8 8 := by
    simp [slice, Nat.shiftRight_eq_div_pow]
  have h2 : (src_sect >>> 16).toUInt8.toNat = slice src_sect.toNat 16 8 := by
    simp [slice, Nat.shiftRight_eq_div_pow]
  have h3 : ((src_sect >>> 24) ||| 0xE0).toUInt8.toNat % 16 = slice src_sect.toNat 24 4 := by
    have hbyte : ((src_sect >>> 24) ||| 0xE0).toUInt8.toNat = slice src_sect.toNat 24 8 ||| 0xE0 := by
      simp [slice, Nat.shiftRight_eq_div_pow]
    show ((src_sect >>> 24) ||| 0xE0).toUInt8.toNat % 2^4 = _
    have hlow : slice src_sect.toNat 24 8 % 2^4 = slice src_sect.toNat 24 4 :=
      Nat.mod_mod_of_dvd _ (show 2^4 ∣ 2^8 by decide)
    rw [hbyte, Nat.or_mod_two_pow, hlow]
    exact Nat.or_zero _
  have hlow : slice src_sect.toNat 0 8+2^8*slice src_sect.toNat 8 8 = slice src_sect.toNat 0 16 :=
    slice_glue src_sect.toNat 0 8 8
  have hmiddle : slice src_sect.toNat 0 16+2^16*slice src_sect.toNat 16 8 =
      slice src_sect.toNat 0 24 := slice_glue src_sect.toNat 0 16 8
  have hall : slice src_sect.toNat 0 24+2^24*slice src_sect.toNat 24 4 =
      slice src_sect.toNat 0 28 := slice_glue src_sect.toNat 0 24 4
  rw [sectorNumber, h0, h1, h2, h3, hlow, hmiddle, hall, slice_whole h]

theorem clear_loop_blit (m : Memory) (end_ptr memsz : ℕ) :
    clear_loop m end_ptr memsz = blit m end_ptr (memsz-end_ptr) fun _ => 0 := by
  induction hn : memsz-end_ptr generalizing m end_ptr with
  | zero => rw [clear_loop, if_neg (by omega), blit_zero]
  | succ n ih =>
    rw [clear_loop, if_pos (by omega), ih _ _ (by omega)]
    exact blit_succ m end_ptr n fun _ => 0

theorem boot_readsect_blit {src_sect : UInt32} (h : src_sect.toNat < 2^28)
    (hdisk : 512*(src_sect.toNat+1) ≤ disk.length) : boot_readsect disk m ptr src_sect =
      .ok (blit m ptr 512 fun i => disk.getD (512*src_sect.toNat+i) 0) := by
  rw [boot_readsect, sectorNumber_eq h]
  exact if_pos hdisk

theorem next_sector (h : ptr+512*(n+1) < 2^64) : (ptr+512) % 2^64 = ptr+512 := by
  rw [Nat.mul_succ, ← Nat.add_assoc] at h
  exact Nat.mod_eq_of_lt (by omega)

/-- Whole sectors up to the first boundary that is not below `end_ptr`. -/
theorem read_loop_blit (n : ℕ) {src_sect : UInt32} (hptr : ptr % 512 = 0)
    (hbelow : ∀ k < n, ptr+512*k < end_ptr) (hend : end_ptr ≤ ptr+512*n)
    (htop : ptr+512*n < 2^64) (hsect : src_sect.toNat+n < 2^28)
    (hdisk : 512*(src_sect.toNat+n) ≤ disk.length) {fuel : ℕ} (hfuel : n < fuel) (m : Memory) :
    read_loop disk end_ptr fuel m ptr src_sect =
      .ok (blit m ptr (512*n) fun i => disk.getD (512*src_sect.toNat+i) 0) := by
  induction n generalizing fuel m ptr src_sect with
  | zero =>
    cases fuel with
    | zero => omega
    | succ fuel =>
      rw [read_loop, if_neg (by omega), Nat.mul_zero, blit_zero]
  | succ n ih =>
    cases fuel with
    | zero => omega
    | succ fuel =>
      have hfirst : ptr < end_ptr := hbelow 0 (by omega)
      have hwrap : (ptr+SECTORSIZE) % 2^64 = ptr+512 := next_sector htop
      have hnext : (src_sect+1).toNat = src_sect.toNat+1 := by
        rw [UInt32.toNat_add]
        exact Nat.mod_eq_of_lt (by
          show src_sect.toNat+1 < 2^32
          omega)
      rw [read_loop, if_pos hfirst, boot_readsect_blit (by omega) (by omega), hwrap]
      show read_loop disk end_ptr fuel _ (ptr+512) (src_sect+1) = _
      rw [ih (by omega) (fun k hk => by
        have := hbelow (k+1) (by omega)
        omega) (by omega) (by omega) (by omega) (by omega) (by omega), hnext]
      have hall := blit_append m ptr 512 (512*n) fun i => disk.getD (512*src_sect.toNat+i) 0
      have hlen : 512+512*n = 512*(n+1) := by omega
      have hsrc : (fun i => disk.getD (512*src_sect.toNat+(512+i)) 0) =
          fun i => disk.getD (512*(src_sect.toNat+1)+i) 0 := by
        funext i
        have hindex : 512*src_sect.toNat+(512+i) = 512*(src_sect.toNat+1)+i := by omega
        rw [hindex]
      rw [hlen, hsrc] at hall
      rw [hall]

/-- A segment from the sector `src_sect` on: `n` sectors, and zeros behind the file's bytes. -/
theorem boot_readseg_blit (n : ℕ) {ptr filesz memsz : ℕ} {src_sect : UInt32} {fuel : ℕ}
    (hsize : filesz ≤ memsz) (hfits : ptr+memsz < 2^64)
    (hbelow : ∀ k < n, ptr / 512*512+512*k < ptr+filesz)
    (hend : ptr+filesz ≤ ptr / 512*512+512*n) (htop : ptr / 512*512+512*n < 2^64)
    (hsect : src_sect.toNat+n < 2^28) (hdisk : 512*(src_sect.toNat+n) ≤ disk.length)
    (hfuel : n < fuel) (m : Memory) :
    boot_readseg fuel disk m ptr src_sect filesz memsz =
      .ok (blit (blit m (ptr / 512*512) (512*n) fun i => disk.getD (512*src_sect.toNat+i) 0)
        (ptr+filesz) (memsz-filesz) fun _ => 0) := by
  have hptr : (ptr+filesz) % 2^64 = ptr+filesz := Nat.mod_eq_of_lt (by omega)
  have hmem : (memsz+ptr) % 2^64 = ptr+memsz := by
    rw [Nat.add_comm]
    exact Nat.mod_eq_of_lt hfits
  have hlen : ptr+memsz-(ptr+filesz) = memsz-filesz := by omega
  have hread := read_loop_blit n (Nat.mul_mod_left _ _) hbelow hend htop hsect hdisk hfuel m
  simp only [boot_readseg, hptr, hmem, SECTORSIZE]
  rw [hread]
  show Except.ok (clear_loop _ _ _) = _
  rw [clear_loop_blit, hlen]

end Sectors

section Segments

variable {kernel disk : List UInt8} {m m' : Memory} {p : elf_program}

/-- The rounded memory span of a segment. -/
def Span (p : elf_program) (x : ℕ) : Prop :=
  p.p_va / 512*512 ≤ x ∧ (x < (p.p_va+p.p_filesz+511) / 512*512 ∨ x < p.p_va+p.p_memsz)

/-- A segment that can be loaded by whole sectors. -/
structure SectorLoadable (kernel : List UInt8) (p : elf_program) : Prop where
  congruent : p.p_offset % 512 = p.p_va % 512
  sizes : p.p_filesz ≤ p.p_memsz
  inside : p.p_offset+p.p_filesz ≤ kernel.length
  fits : p.p_va+p.p_memsz < 2^64

/-- The memory holds the segment: bytes of the file, then zeros. -/
structure Holds (kernel : List UInt8) (m : Memory) (p : elf_program) : Prop where
  file : ∀ i < p.p_filesz, m (p.p_va+i) = kernel.getD (p.p_offset+i) 0
  bss : ∀ i, p.p_filesz ≤ i → i < p.p_memsz → m (p.p_va+i) = 0

theorem Holds.congr (H : Holds kernel m p) (hm : ∀ x, Span p x → m' x = m x)
    (hsize : p.p_filesz ≤ p.p_memsz) : Holds kernel m' p where
  file i hi := by
    rw [hm _ ⟨by omega,Or.inr (by omega)⟩]
    exact H.file i hi
  bss i hlow hhigh := by
    rw [hm _ ⟨by omega,Or.inr (by omega)⟩]
    exact H.bss i hlow hhigh

/-- Reading one segment of the kernel from its disk. -/
theorem segment_held (D : KernelDisk kernel disk) (hkernel : kernel.length < 2^27*512)
    (L : SectorLoadable kernel p) (hround : p.p_va+p.p_filesz ≤ 2^64-512) {fuel : ℕ}
    (hfuel : disk.length < fuel) (m : Memory) :
    ∃ m', boot_readseg fuel disk m p.p_va (UInt32.ofNat (p.p_offset / SECTORSIZE+1))
        p.p_filesz p.p_memsz = .ok m' ∧
      Holds kernel m' p ∧ ∀ x, ¬Span p x → m' x = m x := by
  obtain ⟨hcong,hsizes,hinside,hfits⟩ := L
  have hroom := D.room
  have hwhole := D.whole
  obtain ⟨n,hn⟩ : ∃ n, n = (p.p_va % 512+p.p_filesz+511) / 512 := ⟨_,rfl⟩
  obtain ⟨sect,hs⟩ : ∃ sect, sect = p.p_offset / 512+1 := ⟨_,rfl⟩
  have hsect : (UInt32.ofNat sect).toNat = sect := by
    rw [UInt32.toNat_ofNat']
    exact Nat.mod_eq_of_lt (by omega)
  have hdisk : 512*(sect+n) ≤ disk.length := by omega
  have hrun := @boot_readseg_blit disk n p.p_va p.p_filesz p.p_memsz (UInt32.ofNat sect) fuel
    hsizes hfits (fun k hk => by omega) (by omega) (by omega) (by rw [hsect]; omega)
    (by rw [hsect]; exact hdisk) (by omega) m
  rw [hsect] at hrun
  rw [hs] at hrun
  refine ⟨_,hrun,⟨?_,?_⟩,?_⟩
  · intro i hi
    have hplace : p.p_va+i = p.p_va / 512*512+(p.p_va % 512+i) := by omega
    have hbyte : 512*(p.p_offset / 512+1)+(p.p_va % 512+i) = 512+(p.p_offset+i) := by omega
    rw [blit_other _ _ _ _ _ (Or.inl (by omega)), hplace, blit_here _ _ _ _ _ (by omega), hbyte,
      D.bytes]
  · intro i hlow hhigh
    have hplace : p.p_va+i = p.p_va+p.p_filesz+(i-p.p_filesz) := by omega
    rw [hplace, blit_here _ _ _ _ _ (by omega)]
  · intro x hx
    rw [Span] at hx
    rw [blit_other _ _ _ _ _ (by omega), blit_other _ _ _ _ _ (by omega)]

end Segments
end WeensyOS.BootLoader
