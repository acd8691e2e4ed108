import WeensyOS.TableWords
import WeensyOS.PlainFormats

/-!
# Memory dumps in the log

The functions of kernel.c that write the state of memory to the host's log,
at every `HZ`-th tick of the timer. The log is what the parallel port received.
-/

set_option autoImplicit false

namespace WeensyOS.LogDumps
open WeensyOS.FlatMemory WeensyOS.KernelState WeensyOS.PageTables
open WeensyOS.TextCursors WeensyOS.Printer WeensyOS.PrinterRuns WeensyOS.StringPrinter
open WeensyOS.PlainFormats WeensyOS.TableWords

section Source

abbrev Log := List UInt8

/-- Ways a dump stops: undefined behavior of the printer, or a failing assertion. -/
inductive Halt where
  | printer (fault : Fault)
  | kernel (panic : Panic)
deriving DecidableEq, Repr

def parallel_port_putc : Putc Log := fun c _ log => .ok (log++[c])

def log_printf (strs : UInt64 → Text) (format : Text) (val : List UInt64) (log : Log) :
    Except Halt Log :=
  (printer_vprintf parallel_port_putc strs format 0 val log).mapError .printer

/-- The C conversion of an `int8_t` to `uint8_t`. -/
def uint8 (x : ℤ) : ℤ := x % 2^8

/-- `"PM_DUMP"` -/
def pm_dump : List UInt8 := ['P','M','_','D','U','M','P'].map ascii

/-- `"VM_DUMP"` -/
def vm_dump : List UInt8 := ['V','M','_','D','U','M','P'].map ascii

/-- `"PM_DUMP %u "` -/
def pm_format : Text := ⟨pm_dump++[' ','%','u',' '].map ascii,by decide +kernel⟩

/-- `"VM_DUMP %s %u "` -/
def vm_format : Text := ⟨vm_dump++[' ','%','s',' ','%','u',' '].map ascii,by decide +kernel⟩

/-- `"%u %u "` -/
def two_format : Text := ⟨['%','u',' ','%','u',' '].map ascii,by decide +kernel⟩

/-- `"%u %u %u "` -/
def three_format : Text := ⟨['%','u',' ','%','u',' ','%','u',' '].map ascii,by decide +kernel⟩

/-- `"0 0 0 "` -/
def zeros_format : Text := ⟨['0',' ','0',' ','0',' '].map ascii,by decide +kernel⟩

/-- `"%d "` -/
def id_format : Text := ⟨['%','d',' '].map ascii,by decide +kernel⟩

def newline_format : Text := ⟨[ascii '\n'],by decide⟩

variable (s : KState)

/-- One pass of the loop of `memdump_physical`. -/
def memdump_physical_page (log : Log) (pn : ℕ) : Except Halt Log :=
  let owner := uint8 (s.pageinfo pn).owner
  log_printf noStrings two_format
    [UInt64.ofInt owner,UInt64.ofInt (s.pageinfo pn).refcount] log

def memdump_physical (log : Log) : Except Halt Log := do
  let log ← log_printf noStrings pm_format [s.ticks.toUInt64] log
  let log ← (List.range NPAGES).foldlM (memdump_physical_page s) log
  log_printf noStrings newline_format [] log

/-- One pass of the loop of `memdump_virtual`. -/
def memdump_virtual_page (pagetable : ℕ) (log : Log) (va : ℕ) : Except Halt Log :=
  let vam := virtual_memory_lookup s.mem pagetable va
  if vam.pn < 0 then log_printf noStrings zeros_format [] log
  else
    let owner := uint8 (s.pageinfo vam.pn.toNat).owner
    let refcount := uint8 (s.pageinfo vam.pn.toNat).refcount
    log_printf noStrings three_format
      [UInt64.ofInt owner,UInt64.ofInt refcount,UInt64.ofNat vam.perm] log

/-- The string at `name` is `strs name`. -/
def memdump_virtual (strs : UInt64 → Text) (pagetable : ℕ) (name : UInt64) (log : Log) :
    Except Halt Log := do
  let log ← log_printf strs vm_format [name,s.ticks.toUInt64] log
  (kassert (pagetable = PTE_ADDR pagetable) "(uintptr_t)pagetable == PTE_ADDR(pagetable)").mapError
    .kernel
  let log ← (addrs 0 MEMSIZE_VIRTUAL).foldlM (memdump_virtual_page s pagetable) log
  log_printf noStrings newline_format [] log

/-- The string at `a`, in a buffer of `size` bytes. -/
def cstring (m : Memory) (a size : ℕ) : Text :=
  ⟨((List.range size).map fun k => m (a+k)).takeWhile (· ≠ 0),fun h => by
    simpa using List.mem_takeWhile_imp h⟩

variable (stack : Memory) (buf : ℕ)

/-- One pass of the loop of `memdump_virtual_all`, with `char s[4]` at `buf` of the stack. -/
def memdump_virtual_process (log : Log) (i : ℕ) : Except Halt Log :=
  if (s.processes i).p_state ≠ .P_FREE then do
    let (stack,_) ← (vsnprintf noStrings id_format [UInt64.ofNat i] stack buf 4).mapError .printer
    memdump_virtual s (fun name => cstring stack name.toNat 4) (s.processes i).p_pagetable
      (UInt64.ofNat buf) log
  else .ok log

def memdump_virtual_all (log : Log) : Except Halt Log :=
  (List.range NPROC).foldlM (memdump_virtual_process s stack buf) log

/-- The two dumps of `exception`. -/
def memdump (log : Log) : Except Halt Log := do
  let log ← memdump_physical s log
  memdump_virtual_all s stack buf log

end Source

section Printing

/-- A bind whose first step succeeds. -/
theorem ok_bind {ε α β : Type} (a : α) (k : α → Except ε β) : (.ok a >>= k) = k a := rfl

variable {strs : UInt64 → Text} {f : Text} {r text : List UInt8} {i : ℕ} {args : List UInt64}

theorem play_port (text : List UInt8) (log : Log) :
    play parallel_port_putc (inColor 0 text) log = .ok (log++text) := by
  induction text generalizing log with
  | nil =>
    rw [List.append_nil]
    rfl
  | cons c text ih =>
    rw [inColor, List.map_cons, play_cons]
    change play parallel_port_putc (inColor 0 text) (log++[c]) = _
    rw [ih, List.append_assoc, List.singleton_append]

theorem log_printf_text (R : Renders strs f.val 0 args text) (log : Log) :
    log_printf strs f args log = .ok (log++text) := by
  rw [log_printf, printer_vprintf, R, play_port]
  rfl

theorem renders_stream {color : ℤ} (R : Renders strs f.val 0 args text) :
    stream strs f color args = .ok (inColor color text) := by
  rw [stream, printer_vprintf, R, play_collect, List.nil_append]

/-- Words with a blank behind each. -/
def blanked (ws : List (List UInt8)) : List UInt8 := ws.flatMap (·++[ascii ' '])

theorem blanked_cons (w : List UInt8) (ws : List (List UInt8)) :
    blanked (w :: ws) = w++ascii ' ' :: blanked ws := by
  rw [blanked, List.flatMap_cons, List.append_assoc]
  rfl

theorem blanked_append (ws ws' : List (List UInt8)) :
    blanked (ws++ws') = blanked ws++blanked ws' := List.flatMap_append

theorem blanked_flatMap {α : Type} (l : List α) (g : α → List (List UInt8)) :
    blanked (l.flatMap g) = l.flatMap fun x => blanked (g x) := List.flatMap_assoc

/-- A line of words, with a blank before the newline as well. -/
def lineOf (ws : List (List UInt8)) : List UInt8 := blanked ws++[ascii '\n']

theorem blank_clean : ascii ' ' ≠ 0 ∧ ascii ' ' ≠ ascii '%' := by decide

/-- `"%u "` -/
theorem renders_word {f : List UInt8} (A : At f i (['%','u',' '].map ascii++r)) {w : UInt64}
    {v : ℕ} {ws : List (List UInt8)} (hv : w.toNat % 2^32 = v)
    (R : Renders strs f (i+3) args (blanked ws)) :
    Renders strs f i (w :: args) (blanked (decimalText v :: ws)) := by
  rw [blanked_cons]
  exact renders_unsigned A hv (renders_char A.next.next blank_clean.1 blank_clean.2 R)

theorem small_register {x : ℤ} {v : ℕ} (h : x = v) (hv : v < 2^32) :
    (UInt64.ofInt x).toNat % 2^32 = v := by
  rw [h, UInt64.ofInt, UInt64.toNat_ofNat']
  omega

theorem foldlM_text {α : Type} {step : Log → α → Except Halt Log} {g : α → List UInt8}
    (l : List α) (h : ∀ x ∈ l, ∀ log, step log x = .ok (log++g x)) (log : Log) :
    l.foldlM step log = .ok (log++l.flatMap g) := by
  induction l generalizing log with
  | nil =>
    rw [List.flatMap_nil, List.append_nil]
    rfl
  | cons x l ih =>
    rw [List.foldlM_cons, h x List.mem_cons_self]
    change l.foldlM step (log++g x) = _
    rw [ih (fun y hy => h y (List.mem_cons_of_mem _ hy)), List.flatMap_cons, List.append_assoc]

theorem flatten_flatMap {α : Type} (l : List α) (g : α → List (List UInt8)) :
    (l.flatMap g).flatten = l.flatMap fun x => (g x).flatten := by
  rw [← List.flatMap_id, List.flatMap_assoc]
  simp only [List.flatMap_id]

end Printing

section Lookups

variable {s : KState}

theorem lookup_loop_perms (m : Memory) (va : ℕ) (levels : List ℕ) (pt pe perms : ℕ) :
    (virtual_memory_lookup_loop m va levels pt pe perms).2 ≤ perms := by
  induction levels generalizing pt pe perms with
  | nil => exact le_rfl
  | cons i levels ih =>
    rw [virtual_memory_lookup_loop]
    split_ifs
    · exact le_rfl
    · exact (ih _ _ _).trans Nat.and_le_left

/-- A mapping has permissions of three bits. -/
theorem lookup_cases (m : Memory) (pagetable va : ℕ) :
    virtual_memory_lookup m pagetable va = .unmapped ∨ ∃ pe perms, perms % 2 = 1 ∧ perms ≤ 7 ∧
      virtual_memory_lookup m pagetable va =
        ⟨PAGENUMBER pe,PTE_ADDR pe+PAGEOFFSET va,perms⟩ := by
  have hperms := lookup_loop_perms m va [0,1,2,3] pagetable 0 (PTE_W ||| PTE_U ||| PTE_P)
  by_cases hp : (virtual_memory_lookup_loop m va [0,1,2,3] pagetable 0
      (PTE_W ||| PTE_U ||| PTE_P)).2 &&& PTE_P ≠ 0
  · exact Or.inr ⟨_,_,(present_iff _).1 hp,hperms,if_pos hp⟩
  · exact Or.inl (if_neg hp)

theorem lookup_loop_below {m : Memory} (h : ∀ pt i, pt % 4096 = 0 → i < 512 →
    entry m pt i < 0x200000) (va : ℕ) (levels : List ℕ) {pt pe : ℕ} (perms : ℕ)
    (hpt : pt % 4096 = 0) (hpe : pe < 0x200000) :
    (virtual_memory_lookup_loop m va levels pt pe perms).1 < 0x200000 := by
  induction levels generalizing pt pe perms with
  | nil => exact hpe
  | cons i levels ih =>
    rw [virtual_memory_lookup_loop]
    split_ifs
    · exact hpe
    · refine ih _ ?_ (h pt _ hpt (pageindex_lt va i))
      rw [pte_addr_eq]
      omega

/-- Where no entry names a frame beyond physical memory, no lookup does. -/
theorem lookup_below {m : Memory} (h : ∀ pt i, pt % 4096 = 0 → i < 512 → entry m pt i < 0x200000)
    {pagetable va : ℕ} (hpt : pagetable % 4096 = 0)
    (hperm : (virtual_memory_lookup m pagetable va).perm ≠ 0) :
    (virtual_memory_lookup m pagetable va).pa < MEMSIZE_PHYSICAL := by
  have hpe := lookup_loop_below h va [0,1,2,3] (PTE_W ||| PTE_U ||| PTE_P) hpt
    (show 0 < 0x200000 by decide)
  rw [virtual_memory_lookup] at hperm ⊢
  simp only at hperm ⊢
  split_ifs at hperm ⊢
  · rw [pte_addr_eq, pageoffset_eq]
    simp only [MEMSIZE_PHYSICAL]
    omega
  · exact absurd rfl hperm

/-- A state that can be dumped: no negative counts, and page tables with mappings of physical
memory. -/
structure Dumpable (s : KState) : Prop where
  counts : ∀ pn < NPAGES, 0 ≤ (s.pageinfo pn).refcount ∧ (s.pageinfo pn).refcount < 2^7
  aligned : ∀ i < NPROC, (s.processes i).p_state ≠ .P_FREE →
    (s.processes i).p_pagetable % PAGESIZE = 0
  below : ∀ i < NPROC, (s.processes i).p_state ≠ .P_FREE → ∀ va ∈ addrs 0 MEMSIZE_VIRTUAL,
    (virtual_memory_lookup s.mem (s.processes i).p_pagetable va).perm ≠ 0 →
      (virtual_memory_lookup s.mem (s.processes i).p_pagetable va).pa < MEMSIZE_PHYSICAL

/-- What a lookup can give at a page of a process. -/
theorem Dumpable.lookup (D : Dumpable s) {i va : ℕ} (hi : i < NPROC)
    (hfree : (s.processes i).p_state ≠ .P_FREE) (hva : va ∈ addrs 0 MEMSIZE_VIRTUAL) :
    (virtual_memory_lookup s.mem (s.processes i).p_pagetable va).perm ≤ 7 ∧
    ((virtual_memory_lookup s.mem (s.processes i).p_pagetable va).pn < 0 ∨
      (virtual_memory_lookup s.mem (s.processes i).p_pagetable va).pn.toNat < NPAGES) := by
  have hbelow := D.below i hi hfree va hva
  rcases lookup_cases s.mem (s.processes i).p_pagetable va with h | ⟨pe,perms,hodd,hperms,h⟩
  · rw [h]
    exact ⟨Nat.zero_le _,Or.inl (by decide)⟩
  · rw [h] at hbelow ⊢
    have hpa : PTE_ADDR pe+PAGEOFFSET va < 0x200000 := hbelow fun hzero => by
      change perms = 0 at hzero
      omega
    rw [pte_addr_eq] at hpa
    have hpages : NPAGES = 512 := by norm_num
    have hpn : PAGENUMBER pe = (pe / 4096 : ℕ) := pagenumber_eq pe (by omega)
    refine ⟨hperms,Or.inr ?_⟩
    simp only [hpn, Int.toNat_natCast]
    omega

end Lookups

section Lines

/-- The `int8_t` owner of a page as `uint8_t`. -/
def ownerByte (s : KState) (pn : ℕ) : ℕ := (uint8 (s.pageinfo pn).owner).toNat

def physicalWords (s : KState) (pn : ℕ) : List (List UInt8) :=
  [decimalText (ownerByte s pn),decimalText (s.pageinfo pn).refcount.toNat]

/-- The numbers of a virtual page: owner, reference count and permissions. -/
def virtualNumbers (s : KState) (vam : vamapping) : List ℕ :=
  if vam.pn < 0 then [0,0,0]
  else [ownerByte s vam.pn.toNat,(s.pageinfo vam.pn.toNat).refcount.toNat,vam.perm]

def virtualWords (s : KState) (pagetable va : ℕ) : List (List UInt8) :=
  (virtualNumbers s (virtual_memory_lookup s.mem pagetable va)).map decimalText

def physicalLine (s : KState) : List UInt8 :=
  lineOf ([pm_dump,decimalText s.ticks.toNat]++(List.range NPAGES).flatMap (physicalWords s))

/-- The name ends in a blank of its own, which leaves an empty word. -/
def virtualLine (s : KState) (i : ℕ) : List UInt8 :=
  lineOf ([vm_dump,decimalText i,[],decimalText s.ticks.toNat]++
    (addrs 0 MEMSIZE_VIRTUAL).flatMap (virtualWords s (s.processes i).p_pagetable))

variable {s : KState} {log : Log} {i pn va : ℕ}

theorem uint8_range (x : ℤ) : uint8 x = (uint8 x).toNat ∧ (uint8 x).toNat < 2^8 := by
  have hlow : 0 ≤ x % 2^8 := Int.emod_nonneg x (by decide)
  have hhigh : x % 2^8 < 2^8 := Int.emod_lt_of_pos x (by decide)
  rw [uint8]
  omega

theorem uint8_small {x : ℤ} (hlow : 0 ≤ x) (hhigh : x < 2^7) : uint8 x = x :=
  Int.emod_eq_of_lt hlow (by omega)

theorem ticks_register (s : KState) : s.ticks.toUInt64.toNat % 2^32 = s.ticks.toNat := by
  rw [UInt32.toNat_toUInt64]
  exact Nat.mod_eq_of_lt s.ticks.toNat_lt

theorem physical_page_text (D : Dumpable s) (hpn : pn < NPAGES) (log : Log) :
    memdump_physical_page s log pn = .ok (log++blanked (physicalWords s pn)) := by
  obtain ⟨hlow,hhigh⟩ := D.counts pn hpn
  obtain ⟨howner,hbyte⟩ := uint8_range (s.pageinfo pn).owner
  apply log_printf_text
  refine renders_word (r := ['%','u',' '].map ascii) ⟨Nat.zero_le _,rfl⟩
    (small_register howner (hbyte.trans (by norm_num))) ?_
  refine renders_word (r := []) ⟨by decide,rfl⟩ (small_register (by omega) (by omega)) ?_
  exact renders_nil ⟨by decide,rfl⟩ _

theorem newline_text (log : Log) :
    log_printf noStrings newline_format [] log = .ok (log++[ascii '\n']) :=
  log_printf_text (renders_char ⟨Nat.zero_le _,rfl⟩ (by decide) (by decide)
    (renders_nil ⟨by decide,rfl⟩ _)) log

theorem physical_text (D : Dumpable s) (log : Log) :
    memdump_physical s log = .ok (log++physicalLine s) := by
  have hhead : ∀ log, log_printf noStrings pm_format [s.ticks.toUInt64] log =
      .ok (log++blanked [pm_dump,decimalText s.ticks.toNat]) := by
    intro log
    apply log_printf_text
    rw [blanked_cons]
    refine renders_plain (l := pm_dump) (r := [' ','%','u',' '].map ascii) ⟨Nat.zero_le _,rfl⟩
      (by decide +kernel) (by decide +kernel) ?_
    refine renders_char ⟨by decide,rfl⟩ blank_clean.1 blank_clean.2 ?_
    refine renders_word (r := []) ⟨by decide,rfl⟩ (ticks_register s) ?_
    exact renders_nil ⟨by decide,rfl⟩ _
  rw [memdump_physical, hhead, ok_bind, foldlM_text (List.range NPAGES) fun pn hpn =>
    physical_page_text D (List.mem_range.1 hpn), ok_bind, newline_text, physicalLine, lineOf,
    blanked_append, blanked_flatMap]
  simp only [List.append_assoc]

theorem virtual_page_text (D : Dumpable s) (hi : i < NPROC)
    (hfree : (s.processes i).p_state ≠ .P_FREE) (hva : va ∈ addrs 0 MEMSIZE_VIRTUAL) (log : Log) :
    memdump_virtual_page s (s.processes i).p_pagetable log va =
      .ok (log++blanked (virtualWords s (s.processes i).p_pagetable va)) := by
  obtain ⟨hperm,hpage⟩ := D.lookup hi hfree hva
  by_cases hpn : (virtual_memory_lookup s.mem (s.processes i).p_pagetable va).pn < 0
  · have hzeros : zeros_format.val = blanked ([0,0,0].map decimalText) := by decide +kernel
    rw [memdump_virtual_page, if_pos hpn, virtualWords, virtualNumbers, if_pos hpn, ← hzeros]
    apply log_printf_text
    have R : Renders noStrings zeros_format.val 0 [] (zeros_format.val++[]) :=
      renders_plain (r := []) ⟨Nat.zero_le _,rfl⟩ zeros_format.2 (by decide +kernel)
        (renders_nil ⟨by decide,rfl⟩ _)
    rw [List.append_nil] at R
    exact R
  · obtain ⟨hlow,hhigh⟩ := D.counts _ (hpage.resolve_left hpn)
    obtain ⟨howner,hbyte⟩ := uint8_range
      (s.pageinfo (virtual_memory_lookup s.mem (s.processes i).p_pagetable va).pn.toNat).owner
    rw [memdump_virtual_page, if_neg hpn, virtualWords, virtualNumbers, if_neg hpn]
    apply log_printf_text
    refine renders_word (r := ['%','u',' ','%','u',' '].map ascii) ⟨Nat.zero_le _,rfl⟩
      (small_register howner (hbyte.trans (by norm_num))) ?_
    refine renders_word (r := ['%','u',' '].map ascii) ⟨by decide,rfl⟩ ?_ ?_
    · rw [uint8_small hlow hhigh]
      exact small_register (by omega) (by omega)
    · refine renders_word (r := []) ⟨by decide,rfl⟩ ?_ (renders_nil ⟨by decide,rfl⟩ _)
      rw [UInt64.toNat_ofNat']
      omega

theorem virtual_text (D : Dumpable s) (hi : i < NPROC)
    (hfree : (s.processes i).p_state ≠ .P_FREE) {strs : UInt64 → Text} {name : UInt64}
    (hname : (strs name).val = decimalText i++[ascii ' ']) (log : Log) :
    memdump_virtual s strs (s.processes i).p_pagetable name log = .ok (log++virtualLine s i) := by
  have hlen : (strs name).val.length < 2^30 := by
    have hdec : (decimalText i).length ≤ 2 :=
      numeral_length _ (by decide) (by decide) (hi.trans (by decide))
    rw [hname, List.length_append, List.length_singleton]
    omega
  have hhead : ∀ log, log_printf strs vm_format [name,s.ticks.toUInt64] log =
      .ok (log++blanked [vm_dump,decimalText i,[],decimalText s.ticks.toNat]) := by
    intro log
    have htext : blanked [vm_dump,decimalText i,[],decimalText s.ticks.toNat] =
        vm_dump++ascii ' ' :: ((strs name).val++ascii ' ' :: blanked [decimalText s.ticks.toNat]) := by
      rw [blanked_cons, blanked_cons, blanked_cons, hname, List.append_assoc]
      rfl
    apply log_printf_text
    rw [htext]
    refine renders_plain (l := vm_dump) (r := [' ','%','s',' ','%','u',' '].map ascii)
      ⟨Nat.zero_le _,rfl⟩ (by decide +kernel) (by decide +kernel) ?_
    refine renders_char ⟨by decide,rfl⟩ blank_clean.1 blank_clean.2 ?_
    refine renders_string (r := [' ','%','u',' '].map ascii) ⟨by decide,rfl⟩ name hlen ?_
    refine renders_char ⟨by decide,rfl⟩ blank_clean.1 blank_clean.2 ?_
    refine renders_word (r := []) ⟨by decide,rfl⟩ (ticks_register s) ?_
    exact renders_nil ⟨by decide,rfl⟩ _
  have haligned : (s.processes i).p_pagetable = PTE_ADDR (s.processes i).p_pagetable := by
    have hmod : (s.processes i).p_pagetable % 4096 = 0 := D.aligned i hi hfree
    rw [pte_addr_eq]
    omega
  have hassert : (kassert ((s.processes i).p_pagetable = PTE_ADDR (s.processes i).p_pagetable)
      "(uintptr_t)pagetable == PTE_ADDR(pagetable)").mapError Halt.kernel = .ok () := by
    rw [kassert, if_pos haligned]
    rfl
  rw [memdump_virtual, hhead, ok_bind, hassert, ok_bind,
    foldlM_text (addrs 0 MEMSIZE_VIRTUAL) fun va hva => virtual_page_text D hi hfree hva, ok_bind,
    newline_text, virtualLine, lineOf, blanked_append, blanked_flatMap]
  simp only [List.append_assoc]

/-- A string read back from a buffer that it does not fill. -/
theorem cstring_putBytes {l : List UInt8} {size : ℕ} (hl : 0 ∉ l) (hlen : l.length < size)
    (m : Memory) (a : ℕ) : (cstring (putBytes m a (l++[0])) a size).val = l := by
  obtain ⟨k,rfl⟩ := Nat.exists_eq_add_of_lt hlen
  have hin : (List.range l.length).map (fun j => putBytes m a (l++[0]) (a+j)) = l := by
    apply List.ext_getElem
    · rw [List.length_map, List.length_range]
    · intro j hj hj'
      rw [List.getElem_map, List.getElem_range, putBytes_inside (by
        rw [List.length_append]
        omega), List.getElem_append_left hj']
  have hnul : putBytes m a (l++[0]) (a+l.length) = 0 := (putBytes_strlen hl m a).2
  have hsize : l.length+k+1 = l.length+(k+1) := rfl
  have hsplit : (List.range (l.length+k+1)).map (fun j => putBytes m a (l++[0]) (a+j)) =
      l++0 :: ((List.range k).map fun j => putBytes m a (l++[0]) (a+(l.length+(j+1)))) := by
    rw [hsize, List.range_add, List.map_append, hin, List.range_succ_eq_map, List.map_cons,
      List.map_cons, Nat.add_zero, hnul]
    simp
  rw [cstring]
  simp only [hsplit]
  rw [List.takeWhile_append_of_pos fun c hc => by
    simpa using fun hzero : c = 0 => hl (hzero ▸ hc)]
  simp

variable {stack : Memory} {buf : ℕ}

/-- The line of a process, or nothing for a free slot. -/
def processLines (s : KState) (i : ℕ) : List (List UInt8) :=
  if (s.processes i).p_state ≠ .P_FREE then [virtualLine s i] else []

theorem virtual_process_named {stack' : Memory} {n : ℤ}
    (h : vsnprintf noStrings id_format [UInt64.ofNat i] stack buf 4 = .ok (stack',n))
    (hfree : (s.processes i).p_state ≠ .P_FREE) (log : Log) :
    memdump_virtual_process s stack buf log i = memdump_virtual s
      (fun name => cstring stack' name.toNat 4) (s.processes i).p_pagetable (UInt64.ofNat buf)
      log := by
  have hmap : (Except.ok (stack',n) : Except Fault (Memory × ℤ)).mapError Halt.printer =
      .ok (stack',n) := rfl
  rw [memdump_virtual_process, if_pos hfree, h, hmap, ok_bind]

theorem virtual_process_text (D : Dumpable s) (hi : i < NPROC) (hbuf : buf+4 ≤ 2^64) (log : Log) :
    memdump_virtual_process s stack buf log i = .ok (log++(processLines s i).flatten) := by
  by_cases hfree : (s.processes i).p_state ≠ .P_FREE
  · have hsmall : i < 16 := hi
    have hid : int32 (UInt64.ofNat i).toNat = i := by
      rw [UInt64.toNat_ofNat', Nat.mod_eq_of_lt (by omega)]
      exact Conversions.int32_small (by omega) (by omega)
    have hclean : 0 ∉ decimalText i++[ascii ' '] := by
      rw [List.mem_append, not_or]
      exact ⟨Directives.numeral_clean (Or.inl rfl) i,by decide⟩
    have hdec : (decimalText i).length ≤ 2 :=
      numeral_length _ (by decide) (by decide) (hi.trans (by decide))
    have hlen : (decimalText i++[ascii ' ']).length ≤ 3 := by
      rw [List.length_append, List.length_singleton]
      omega
    have hstream : stream noStrings id_format 0 [UInt64.ofNat i] =
        .ok (inColor 0 (decimalText i++[ascii ' '])) :=
      renders_stream (renders_signed (r := [ascii ' ']) ⟨Nat.zero_le _,rfl⟩ hid
        (renders_char ⟨by decide,rfl⟩ blank_clean.1 blank_clean.2 (renders_nil ⟨by decide,rfl⟩ _)))
    have hchars : ∀ l, chars (inColor 0 l) = l := fun l => by
      rw [chars, inColor, List.map_map]
      exact List.map_id l
    have hprint := vsnprintf_block hbuf (by decide) hstream stack
    rw [hchars, List.take_of_length_le hlen] at hprint
    have hname : (UInt64.ofNat buf).toNat = buf := by
      rw [UInt64.toNat_ofNat']
      omega
    rw [virtual_process_named hprint hfree, virtual_text D hi hfree (by
      rw [hname]
      exact cstring_putBytes hclean (by omega) stack buf), processLines, if_pos hfree,
      List.flatten_singleton]
  · rw [memdump_virtual_process, if_neg hfree, processLines, if_neg hfree, List.flatten_nil,
      List.append_nil]

/-- The lines of a dump. -/
def dumpLines (s : KState) : List (List UInt8) :=
  physicalLine s :: (List.range NPROC).flatMap (processLines s)

/-- A dump writes its lines and does not stop. -/
theorem memdump_text (D : Dumpable s) (hbuf : buf+4 ≤ 2^64) (log : Log) :
    memdump s stack buf log = .ok (log++(dumpLines s).flatten) := by
  rw [memdump, physical_text D, ok_bind, memdump_virtual_all,
    foldlM_text (List.range NPROC) fun i hi => virtual_process_text D (List.mem_range.1 hi) hbuf,
    dumpLines, List.flatten_cons, List.append_assoc, flatten_flatMap]

end Lines
end WeensyOS.LogDumps
