import Mathlib

/-!
# Boot disks

`mkbootdisk BOOTSECTOR KERNEL` writes the boot sector with its signature, the
kernel file in chunks of 4096 bytes, and zeros to the end of a sector and of
the disk. The operating system answers every `write`; a list holds its answers.
-/

set_option autoImplicit false

namespace WeensyOS.DiskImage

section Source

/-- How a `write` ends. -/
inductive Answer where
  | wrote (w : ℕ)
  | interrupted  -- -1 with `EINTR`
  | failed       -- -1 with another `errno`

inductive Fault where
  | usage    -- a message, and `exit(1)`
  | pending  -- no answer is left
deriving DecidableEq

/-- The output, the globals, and the answers of the `write` calls to come. -/
structure Disk where
  out : List UInt8
  maxoff : ℕ
  curoff : ℕ
  answers : List Answer

def diskwrite_loop (d : Disk) (data : List UInt8) : List Answer → Except Fault Disk
  | [] => if data = [] then .ok { d with answers := [] } else .error .pending
  | answer :: answers =>
    if data = [] then .ok { d with answers := answer :: answers }
    else match answer with
      | .interrupted => diskwrite_loop d data answers
      | .failed => .error .usage
      | .wrote w =>
        if w = 0 then .error .usage
        else diskwrite_loop
          { d with out := d.out++data.take w, curoff := d.curoff+min w data.length }
          (data.drop w) answers

def diskwrite (d : Disk) (data : List UInt8) : Except Fault Disk :=
  if d.maxoff ≠ 0 ∧ d.curoff+data.length > d.maxoff then .error .usage
  else diskwrite_loop d data d.answers

abbrev zeros (n : ℕ) : List UInt8 := List.replicate n 0

/-- `while ((n = fread(buf, 1, 4096, f)) > 0)` -/
def copy_loop (d : Disk) (pos : ℕ) (f : List UInt8) : Except Fault (Disk × ℕ) :=
  let buf := f.take 4096
  if 0 < buf.length then do
    let d ← diskwrite d buf
    copy_loop d (pos+buf.length) (f.drop 4096)
  else .ok (d,pos)
termination_by f.length
decreasing_by
  rw [List.length_take] at *
  rw [List.length_drop]
  omega

/-- `while (nsectors < 1024)` -/
def fill_loop (d : Disk) (nsectors : ℕ) : Except Fault Disk :=
  if nsectors < 1024 then do
    let d ← diskwrite d (zeros 512)
    fill_loop d (nsectors+1)
  else .ok d
termination_by 1024-nsectors

/-- `main` with the arguments `BOOTSECTOR KERNEL` -/
def mkbootdisk (bootsector kernel : List UInt8) (answers : List Answer) : Except Fault Disk :=
  let buf := bootsector.take 4096
  let n := buf.length
  if n > 510 then .error .usage
  else do
    let d ← diskwrite ⟨[],0,0,answers⟩ (buf++zeros (510-n)++[0x55,0xAA])
    let (d,pos) ← copy_loop d 0 kernel
    if pos % 512 ≠ 0 then do
      let d ← diskwrite d (zeros (512-pos % 512))
      fill_loop d (1+(pos+(512-pos % 512)) / 512)
    else fill_loop d (1+pos / 512)

end Source

section Output

variable {d d' : Disk} {data f : List UInt8} {pos pos' nsectors : ℕ}

/-- The output grows by `l`. -/
structure Appends (d d' : Disk) (l : List UInt8) : Prop where
  out : d'.out = d.out++l
  maxoff : d'.maxoff = d.maxoff

theorem Appends.trans {d'' : Disk} {l l' : List UInt8} (A : Appends d d' l)
    (A' : Appends d' d'' l') : Appends d d'' (l++l') where
  out := by rw [A'.out, A.out, List.append_assoc]
  maxoff := A'.maxoff.trans A.maxoff

/-- However the writes are cut, all data is written in order. -/
theorem diskwrite_loop_appends (answers : List Answer)
    (h : diskwrite_loop d data answers = .ok d') : Appends d d' data := by
  induction answers generalizing d data with
  | nil =>
    rw [diskwrite_loop] at h
    split_ifs at h with hdata
    cases h
    exact ⟨by rw [hdata, List.append_nil],rfl⟩
  | cons answer answers ih =>
    simp only [diskwrite_loop] at h
    split_ifs at h with hdata
    · cases h
      exact ⟨by rw [hdata, List.append_nil],rfl⟩
    · cases answer with
      | interrupted => exact ih h
      | failed => cases h
      | wrote w =>
        simp only at h
        split_ifs at h with hw
        have A := ih h
        refine ⟨?_,A.maxoff⟩
        rw [A.out, List.append_assoc, List.take_append_drop]

theorem diskwrite_appends (h : diskwrite d data = .ok d') : Appends d d' data := by
  rw [diskwrite] at h
  split_ifs at h
  exact diskwrite_loop_appends _ h

theorem copy_loop_appends (h : copy_loop d pos f = .ok (d',pos')) :
    Appends d d' f ∧ pos' = pos+f.length := by
  induction hn : f.length using Nat.strong_induction_on generalizing d pos f with
  | _ n ih =>
    rw [copy_loop] at h
    split_ifs at h with hbuf
    · cases hwrite : diskwrite d (f.take 4096) with
      | error e =>
        rw [hwrite] at h
        cases h
      | ok d₁ =>
        rw [hwrite] at h
        have hlen := congrArg List.length (List.take_append_drop 4096 f)
        rw [List.length_append] at hlen
        obtain ⟨A,hpos⟩ := ih _ (by omega) h rfl
        have A' := (diskwrite_appends hwrite).trans A
        rw [List.take_append_drop] at A'
        exact ⟨A',by omega⟩
    · cases h
      rw [List.length_take] at hbuf
      have hnil : f = [] := List.eq_nil_of_length_eq_zero (by omega)
      subst hnil
      exact ⟨⟨by rw [List.append_nil],rfl⟩,by omega⟩

theorem fill_loop_appends (h : fill_loop d nsectors = .ok d') :
    Appends d d' (zeros (512*(1024-nsectors))) := by
  induction hn : 1024-nsectors generalizing d nsectors with
  | zero =>
    rw [fill_loop, if_neg (by omega)] at h
    cases h
    exact ⟨by simp,rfl⟩
  | succ n ih =>
    rw [fill_loop, if_pos (by omega)] at h
    cases hwrite : diskwrite d (zeros 512) with
    | error e =>
      rw [hwrite] at h
      cases h
    | ok d₁ =>
      rw [hwrite] at h
      have A := (diskwrite_appends hwrite).trans (ih h (by omega))
      rw [zeros, zeros, ← List.replicate_add] at A
      have hmul : 512+512*n = 512*(n+1) := by omega
      rw [hmul] at A
      exact A

/-- A disk with a kernel behind its boot sector. -/
structure KernelDisk (kernel disk : List UInt8) : Prop where
  bytes : ∀ i, disk.getD (512+i) 0 = kernel.getD i 0
  whole : disk.length % 512 = 0
  room : 512+kernel.length ≤ disk.length
  filled : 512*1024 ≤ disk.length

theorem kernelDisk_intro {block kernel : List UInt8} {z : ℕ} (hblock : block.length = 512)
    (hwhole : (kernel.length+z) % 512 = 0) (hfilled : 512*1023 ≤ kernel.length+z) :
    KernelDisk kernel (block++kernel++zeros z) where
  bytes i := by
    rw [List.append_assoc, List.getD_append_right _ _ _ _ (by omega), hblock,
      Nat.add_sub_cancel_left]
    rcases Nat.lt_or_ge i kernel.length with hi | hi
    · exact List.getD_append _ _ _ _ hi
    · rw [List.getD_append_right _ _ _ _ hi, List.getD_eq_default kernel _ hi]
      rw [zeros, List.getD_eq_getElem?_getD, List.getElem?_replicate]
      split_ifs <;> rfl
  whole := by
    rw [List.length_append, List.length_append, List.length_replicate, hblock]
    omega
  room := by
    rw [List.length_append, List.length_append, hblock]
    omega
  filled := by
    rw [List.length_append, List.length_append, List.length_replicate, hblock]
    omega

/-- The first sector. -/
def bootBlock (bootsector : List UInt8) : List UInt8 :=
  bootsector++zeros (510-bootsector.length)++[0x55,0xAA]

theorem bootBlock_length {bootsector : List UInt8} (h : bootsector.length ≤ 510) :
    (bootBlock bootsector).length = 512 := by
  rw [bootBlock, List.length_append, List.length_append, List.length_replicate]
  show bootsector.length+(510-bootsector.length)+2 = 512
  omega

/-- The kernel file lies behind the boot sector, in whole sectors. -/
theorem mkbootdisk_disk {bootsector kernel : List UInt8} {answers : List Answer}
    (hboot : bootsector.length ≤ 510) (h : mkbootdisk bootsector kernel answers = .ok d) :
    KernelDisk kernel d.out := by
  have hblock := bootBlock_length hboot
  have htake : bootsector.take 4096 = bootsector := List.take_of_length_le (by omega)
  simp only [mkbootdisk, htake] at h
  rw [if_neg (by omega)] at h
  change diskwrite _ (bootBlock bootsector) >>= _ = _ at h
  cases hfirst : diskwrite ⟨[],0,0,answers⟩ (bootBlock bootsector) with
  | error e =>
    rw [hfirst] at h
    cases h
  | ok d₁ =>
    rw [hfirst] at h
    have A₁ := diskwrite_appends hfirst
    simp only [bind, Except.bind] at h
    cases hcopy : copy_loop d₁ 0 kernel with
    | error e =>
      rw [hcopy] at h
      cases h
    | ok r =>
      rw [hcopy] at h
      obtain ⟨d₂,pos⟩ := r
      obtain ⟨A₂,hpos⟩ := copy_loop_appends hcopy
      rw [Nat.zero_add] at hpos
      simp only at h
      split_ifs at h with hpad
      · cases hzeros : diskwrite d₂ (zeros (512-pos % 512)) with
        | error e =>
          rw [hzeros] at h
          cases h
        | ok d₃ =>
          rw [hzeros] at h
          have A := ((A₁.trans A₂).trans (diskwrite_appends hzeros)).trans (fill_loop_appends h)
          rw [A.out, List.nil_append, List.append_assoc (bootBlock bootsector++kernel), zeros, zeros,
            ← List.replicate_add]
          exact kernelDisk_intro hblock (by omega) (by omega)
      · have A := (A₁.trans A₂).trans (fill_loop_appends h)
        rw [A.out, List.nil_append]
        exact kernelDisk_intro hblock (by omega) (by omega)

end Output

section Complete

variable {d : Disk} {data : List UInt8} {n : ℕ}

/-- At least `n` complete writes are to come. -/
def Complete (d : Disk) (n : ℕ) : Prop :=
  d.maxoff = 0 ∧ ∃ m, n ≤ m ∧ d.answers = List.replicate m (.wrote 4096)

theorem diskwrite_complete (data : List UInt8) (h : Complete d (n+1)) (hdata : data.length ≤ 4096) :
    ∃ d', diskwrite d data = .ok d' ∧ Complete d' n := by
  obtain ⟨hmax,m,hm,hanswers⟩ := h
  rw [diskwrite, if_neg (fun h => h.1 hmax), hanswers]
  cases m with
  | zero => omega
  | succ m =>
    rw [List.replicate_succ]
    simp only [diskwrite_loop]
    by_cases hnil : data = []
    · rw [if_pos hnil]
      exact ⟨_,rfl,hmax,m+1,by omega,rfl⟩
    · rw [if_neg hnil, if_neg (by decide), List.drop_of_length_le hdata]
      cases m with
      | zero => exact ⟨_,rfl,hmax,0,by omega,rfl⟩
      | succ m =>
        rw [List.replicate_succ]
        simp only [diskwrite_loop, if_pos]
        exact ⟨_,rfl,hmax,m+1,by omega,rfl⟩

theorem Complete.mono {k : ℕ} (h : Complete d n) (hk : k ≤ n) : Complete d k := by
  obtain ⟨hmax,m,hm,hanswers⟩ := h
  exact ⟨hmax,m,hk.trans hm,hanswers⟩

theorem copy_loop_complete (f : List UInt8) (pos : ℕ) (h : Complete d (n+f.length)) :
    ∃ d', copy_loop d pos f = .ok (d',pos+f.length) ∧ Complete d' n := by
  induction hn : f.length using Nat.strong_induction_on generalizing d pos f with
  | _ len ih =>
    have htake := List.length_take (i := 4096) (l := f)
    have hdrop := List.length_drop (i := 4096) (l := f)
    rw [copy_loop]
    by_cases hbuf : 0 < (f.take 4096).length
    · rw [if_pos hbuf]
      obtain ⟨d₁,hwrite,C⟩ := diskwrite_complete (n := n+(f.drop 4096).length) (f.take 4096)
        (h.mono (by omega)) (by omega)
      obtain ⟨d',hrest,C'⟩ := ih _ (by omega) (f.drop 4096)
        (pos+(f.take 4096).length) C rfl
      rw [hwrite]
      refine ⟨d',?_,C'⟩
      have hpos : pos+(f.take 4096).length+(f.drop 4096).length = pos+len := by omega
      rw [← hpos]
      exact hrest
    · rw [if_neg hbuf]
      have hlen : len = 0 := by omega
      subst hlen
      exact ⟨d,rfl,h.mono (by omega)⟩

theorem fill_loop_complete {nsectors : ℕ} (h : Complete d (n+(1024-nsectors))) :
    ∃ d', fill_loop d nsectors = .ok d' := by
  induction hn : 1024-nsectors generalizing d nsectors with
  | zero =>
    rw [fill_loop, if_neg (by omega)]
    exact ⟨d,rfl⟩
  | succ k ih =>
    rw [fill_loop, if_pos (by omega)]
    obtain ⟨d₁,hwrite,C⟩ := diskwrite_complete (n := n+k) (zeros 512) (h.mono (by omega))
      (by simp)
    rw [hwrite]
    exact ih (C.mono (by omega)) (by omega)

/-- Complete writes make a disk. -/
theorem mkbootdisk_complete (bootsector kernel : List UInt8)
    (hboot : bootsector.length ≤ 510) {n : ℕ} (hn : kernel.length+1026 ≤ n) :
    ∃ d, mkbootdisk bootsector kernel (List.replicate n (.wrote 4096)) = .ok d := by
  have htake : bootsector.take 4096 = bootsector := List.take_of_length_le (by omega)
  have hblock := bootBlock_length hboot
  simp only [mkbootdisk, htake]
  rw [if_neg (by omega)]
  change ∃ d, diskwrite _ (bootBlock bootsector) >>= _ = _
  obtain ⟨d₁,hfirst,C₁⟩ := diskwrite_complete (n := 1025+kernel.length)
    (d := ⟨[],0,0,List.replicate n (.wrote 4096)⟩) (bootBlock bootsector) ⟨rfl,n,by omega,rfl⟩
    (by omega)
  obtain ⟨d₂,hcopy,C₂⟩ := copy_loop_complete kernel 0 C₁
  rw [hfirst]
  simp only [bind, Except.bind]
  rw [hcopy]
  simp only
  split_ifs with hpad
  · obtain ⟨d₃,hzeros,C₃⟩ := diskwrite_complete (n := 1024)
      (zeros (512-(0+kernel.length) % 512)) C₂ (by
        rw [List.length_replicate]
        omega)
    rw [hzeros]
    exact fill_loop_complete (n := 0) (C₃.mono (by omega))
  · exact fill_loop_complete (n := 0) (C₂.mono (by omega))

end Complete

end WeensyOS.DiskImage
