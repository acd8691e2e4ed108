import WeensyOS.LogParser

/-!
# The log read back

The lines of a dump are words of ASCII. Reading them gives the lists of the
state that was dumped, and other lines change nothing but the panic flag.
-/

set_option autoImplicit false

namespace WeensyOS.LogRoundTrip
open WeensyOS.FlatMemory WeensyOS.KernelState WeensyOS.PageTables
open WeensyOS.TextCursors WeensyOS.Printer WeensyOS.Directives WeensyOS.PlainFormats
open WeensyOS.LogDumps
open WeensyOS.TableWords (entry_setEntry_if)
open WeensyOS.LogParser hiding PTE_U

variable {E : Encoding} {s : KState} {l : List UInt8} {line : Str}

section Decoding

/-- The bytes of one complete line and its text. -/
structure Reads (E : Encoding) (l : List UInt8) (line : Str) : Prop where
  complete : ∃ x, l = x++[ascii '\n']
  single : ∃ text, line = text++['\n'] ∧ '\n' ∉ text ∧ '\r' ∉ text
  decoded : E.decode l = some line

theorem decode_lines {ls : List (List UInt8)} {lines : List Str}
    (h : List.Forall₂ (Reads E) ls lines) : E.decode ls.flatten = some lines.flatten := by
  induction h with
  | nil => exact E.decode_nil
  | @cons l line ls lines R h ih =>
    obtain ⟨x,rfl⟩ := R.complete
    have hfirst := R.decoded
    have hbytes : ((x++[ascii '\n']) :: ls).flatten = x++ascii '\n' :: ls.flatten := by
      rw [List.flatten_cons, List.append_assoc]
      rfl
    rw [hbytes, E.decode_line, hfirst, ih]
    rfl

theorem readlines_lines {ls : List (List UInt8)} {lines : List Str}
    (h : List.Forall₂ (Reads E) ls lines) : readlines (translate lines.flatten) = lines := by
  have hplain : '\r' ∉ lines.flatten ∧ readlines lines.flatten = lines := by
    induction h with
    | nil => exact ⟨List.not_mem_nil,rfl⟩
    | @cons l line ls lines R h ih =>
      obtain ⟨text,rfl,hnewline,hreturn⟩ := R.single
      have hline : ((text++['\n']) :: lines).flatten = text++('\n' :: lines.flatten) := by
        rw [List.flatten_cons, List.append_assoc]
        rfl
      rw [hline, readlines_line hnewline, ih.2, List.mem_append, List.mem_cons]
      refine ⟨?_,rfl⟩
      rintro (hmem | hmem | hmem)
      · exact hreturn hmem
      · exact absurd hmem (by decide)
      · exact ih.1 hmem
  rw [translate_plain hplain.1, hplain.2]

theorem init_lines {ls : List (List UInt8)} {lines : List Str}
    (h : List.Forall₂ (Reads E) ls lines) :
    MemMapTimeline.init E ls.flatten = lines.foldlM MemMapTimeline.read_line {} := by
  rw [MemMapTimeline.init, decode_lines h]
  simp only [readlines_lines h]

end Decoding

section Words

/-- A word of ASCII without blanks. -/
def Word (w : List UInt8) : Prop :=
  ∀ c ∈ w, c < 128 ∧ c ≠ ascii ' ' ∧ c ≠ ascii '\n' ∧ c ≠ ascii '\r'

theorem asChar_ne {c : UInt8} (hc : c < 128) {d : Char} (h : c ≠ ascii d) :
    asChar c ≠ d := by
  rintro rfl
  apply h
  rw [UInt8.lt_iff_toNat_lt] at hc
  have hc' : c.toNat < 128 := hc
  have hvalid : c.toNat.isValidChar := Or.inl (by omega)
  apply UInt8.toNat_inj.1
  rw [ascii, asChar, Char.toNat_ofNat, if_pos hvalid]
  simp

theorem word_decimal (v : ℕ) : Word (decimalText v) := by
  have hdigit : ∀ d < 10, digitsOf 10 d < 128 ∧ digitsOf 10 d ≠ ascii ' ' ∧
      digitsOf 10 d ≠ ascii '\n' ∧ digitsOf 10 d ≠ ascii '\r' := by decide +kernel
  intro c hc
  obtain ⟨d,hd,rfl⟩ := numeral_mem (by decide) hc
  exact hdigit d hd

theorem word_nil : Word [] := fun _ h => absurd h List.not_mem_nil

theorem word_names : Word pm_dump ∧ Word vm_dump := by
  have hall : (∀ c ∈ pm_dump, c < 128 ∧ c ≠ ascii ' ' ∧ c ≠ ascii '\n' ∧ c ≠ ascii '\r') ∧
      ∀ c ∈ vm_dump, c < 128 ∧ c ≠ ascii ' ' ∧ c ≠ ascii '\n' ∧ c ≠ ascii '\r' := by
    decide +kernel
  exact hall

theorem decode_str (h : ∀ c ∈ l, c < 128) : E.decode l = some (str l) := by
  induction l with
  | nil => exact E.decode_nil
  | cons c l ih =>
    rw [E.decode_ascii c l (h c List.mem_cons_self), ih fun d hd => h d (List.mem_cons_of_mem _ hd)]
    rfl

variable {ws : List (List UInt8)}

theorem str_lineOf (ws : List (List UInt8)) :
    str (lineOf ws) = (ws.map str).flatMap (·++[' '])++['\n'] := by
  have hblank : str [ascii ' '] = [' '] ∧ str [ascii '\n'] = ['\n'] := by decide +kernel
  rw [lineOf, blanked, str, List.map_append, List.map_flatMap, List.flatMap_map, ← str, hblank.2]
  congr 2
  funext w
  rw [List.map_append, ← str, ← str, hblank.1]

theorem lineOf_prefix (w : List UInt8) (ws : List (List UInt8)) :
    str w <+: str (lineOf (w :: ws)) := by
  rw [str_lineOf, List.map_cons, List.flatMap_cons, List.append_assoc, List.append_assoc]
  exact List.prefix_append _ _

theorem lineOf_reads (E : Encoding) (h : ∀ w ∈ ws, Word w) :
    Reads E (lineOf ws) (str (lineOf ws)) := by
  have hchars : ∀ c ∈ blanked ws, c < 128 ∧ c ≠ ascii '\n' ∧ c ≠ ascii '\r' := by
    intro c hc
    obtain ⟨w,hw,hc⟩ := List.mem_flatMap.1 hc
    rcases List.mem_append.1 hc with hc | hc
    · obtain ⟨h₁,-,h₂,h₃⟩ := h w hw c hc
      exact ⟨h₁,h₂,h₃⟩
    · rw [List.mem_singleton] at hc
      subst hc
      decide
  have hnone : ∀ d : Char, (∀ c ∈ blanked ws, c ≠ ascii d) → d ∉ str (blanked ws) := by
    intro d hne hmem
    obtain ⟨c,hc,heq⟩ := List.mem_map.1 hmem
    exact asChar_ne (hchars c hc).1 (hne c hc) heq
  refine ⟨⟨_,rfl⟩,⟨str (blanked ws),?_,?_,?_⟩,?_⟩
  · rw [lineOf, str, List.map_append]
    rfl
  · exact hnone '\n' fun c hc => (hchars c hc).2.1
  · exact hnone '\r' fun c hc => (hchars c hc).2.2
  · apply decode_str
    intro c hc
    rcases List.mem_append.1 hc with hc | hc
    · exact (hchars c hc).1
    · rw [List.mem_singleton] at hc
      subst hc
      decide

/-- The words of a dumped line: what is left of its head, the numbers, and the newline. -/
theorem words_dump {head : List (List UInt8)} (hhead : ∀ w ∈ head, Word w) (n : ℕ)
    (numbers : ℕ → List ℕ) :
    words (str (lineOf (head++(List.range n).flatMap fun j => (numbers j).map decimalText))) =
      (head.map str).filter (· ≠ [])++
        (List.range n).flatMap (fun j => (numbers j).map fun v => str (decimalText v))++
        [['\n']] := by
  have hword : ∀ w ∈ head++(List.range n).flatMap fun j => (numbers j).map decimalText, Word w := by
    intro w hw
    rcases List.mem_append.1 hw with hw | hw
    · exact hhead w hw
    · obtain ⟨j,-,hw⟩ := List.mem_flatMap.1 hw
      obtain ⟨v,-,rfl⟩ := List.mem_map.1 hw
      exact word_decimal v
  have hkept : ((List.range n).flatMap fun j => (numbers j).map fun v => str (decimalText v)).filter
      (· ≠ []) = (List.range n).flatMap fun j => (numbers j).map fun v => str (decimalText v) := by
    rw [List.filter_eq_self]
    intro t ht
    obtain ⟨j,-,ht⟩ := List.mem_flatMap.1 ht
    obtain ⟨v,-,rfl⟩ := List.mem_map.1 ht
    exact decide_eq_true (decimal_nonempty v)
  rw [str_lineOf, words_line, List.map_append, List.filter_append, List.map_flatMap]
  · simp only [List.map_map]
    rw [← hkept]
    rfl
  · intro t ht
    obtain ⟨w,hw,rfl⟩ := List.mem_map.1 ht
    intro hmem
    obtain ⟨c,hc,heq⟩ := List.mem_map.1 hmem
    obtain ⟨h₁,h₂,-⟩ := hword w hw c hc
    exact asChar_ne h₁ h₂ heq

end Words

section Dumps

/-- The tick of a dump. -/
def tickOf (s : KState) : ℤ := s.ticks.toNat

/-- The owner, as `uint8_t`, and the reference count of every physical page. -/
def physicalState (s : KState) : List PMEntry :=
  (List.range 512).map fun pn => ⟨(s.pageinfo pn).owner % 2^8,(s.pageinfo pn).refcount⟩

/-- What `virtual_memory_lookup` and `pageinfo` give for a page of a process. -/
def virtualEntry (s : KState) (vam : vamapping) : VMEntry :=
  if vam.pn < 0 then ⟨0,0,0,0⟩
  else ⟨(s.pageinfo vam.pn.toNat).owner % 2^8,(s.pageinfo vam.pn.toNat).refcount,
    (vam.perm &&& PTE_U : ℕ),vam.perm⟩

def virtualState (s : KState) (i : ℕ) : List VMEntry :=
  (List.range 768).map fun k =>
    virtualEntry s (virtual_memory_lookup s.mem (s.processes i).p_pagetable (k*PAGESIZE))

/-- The state of memory with the processes below `n`. -/
def snapshotBelow (s : KState) (n : ℕ) : MemMapInstance where
  pm_state := some (physicalState s)
  vm_state := fun id =>
    if 0 ≤ id ∧ id < n ∧ (s.processes id.toNat).p_state ≠ .P_FREE then
      some (virtualState s id.toNat)
    else none

/-- The physical pages, and the virtual pages of exactly the processes in use. -/
def snapshot (s : KState) : MemMapInstance := snapshotBelow s NPROC

variable {T : MemMapTimeline} {i : ℕ}

/-- The next slot counts only when it is in use. -/
theorem snapshotBelow_other {n : ℕ} {id : ℤ} (h : id = n → (s.processes n).p_state = .P_FREE) :
    (snapshotBelow s (n+1)).vm_state id = (snapshotBelow s n).vm_state id := by
  have hiff : (0 ≤ id ∧ id < (n+1 : ℕ) ∧ (s.processes id.toNat).p_state ≠ .P_FREE) ↔
      0 ≤ id ∧ id < n ∧ (s.processes id.toNat).p_state ≠ .P_FREE := by
    constructor
    · rintro ⟨h₁,h₂,h₃⟩
      have hne : id ≠ n := by
        rintro rfl
        exact h₃ (h rfl)
      exact ⟨h₁,by omega,h₃⟩
    · rintro ⟨h₁,h₂,h₃⟩
      exact ⟨h₁,by omega,h₃⟩
  simp only [snapshotBelow, hiff]

theorem index_eq {α : Type} {l : List α} {j : ℕ} {x : α} (h : l[j]? = some x) :
    index l j = .ok x := by
  rw [index, h]

theorem ownerByte_eq (s : KState) (pn : ℕ) : ((ownerByte s pn : ℕ) : ℤ) = (s.pageinfo pn).owner % 2^8 :=
  (uint8_range _).1.symm

/-- The words of the line of the physical pages. -/
theorem physical_words (s : KState) : words (str (physicalLine s)) =
    [str pm_dump,str (decimalText s.ticks.toNat)]++(List.range 512).flatMap (fun pn =>
      [ownerByte s pn,(s.pageinfo pn).refcount.toNat].map fun v => str (decimalText v))++
      [['\n']] := by
  have hname : str pm_dump ≠ [] := by decide +kernel
  have hhead : ∀ w ∈ [pm_dump,decimalText s.ticks.toNat], Word w := by
    intro w hw
    rcases List.mem_pair.1 hw with rfl | rfl
    · exact word_names.1
    · exact word_decimal _
  have hwords := words_dump hhead 512 fun pn => [ownerByte s pn,(s.pageinfo pn).refcount.toNat]
  simp only [List.map_cons, List.map_nil, List.filter_cons, decide_eq_true hname,
    decide_eq_true (decimal_nonempty s.ticks.toNat), if_true, List.filter_nil] at hwords
  exact hwords

theorem physical_entry_read (D : Dumpable s) {pn : ℕ} (hpn : pn < 512) :
    pm_entry (words (str (physicalLine s))) pn =
      .ok ⟨(s.pageinfo pn).owner % 2^8,(s.pageinfo pn).refcount⟩ := by
  have hslice := slice_pieces (n := 512) (k := 2) (g := fun pn =>
    [ownerByte s pn,(s.pageinfo pn).refcount.toNat].map fun v => str (decimalText v))
    (fun _ => rfl) hpn [str pm_dump,str (decimalText s.ticks.toNat)] [['\n']]
  have hcount : (((s.pageinfo pn).refcount.toNat : ℕ) : ℤ) = (s.pageinfo pn).refcount :=
    Int.toNat_of_nonneg (D.counts pn hpn).1
  rw [← physical_words] at hslice
  change slice _ (2*pn+2) (2*pn+4) = [_,_] at hslice
  rw [pm_entry, hslice]
  change (do
    let owner ← int (str (decimalText _))
    let refcount ← int (str (decimalText _))
    Except.ok (PMEntry.mk owner refcount)) = _
  rw [int_decimal, ok_bind, int_decimal, ok_bind, ownerByte_eq, hcount]

/-- The first line of a dump. -/
theorem physical_read (D : Dumpable s) (hnew : T.mem_data (tickOf s) = none) :
    T.read_line (str (physicalLine s)) = .ok (T.setItem (tickOf s) (snapshotBelow s 0)) := by
  have hprefix : PM_PREFIX <+: str (physicalLine s) := by
    have hname : str pm_dump = PM_PREFIX := by decide +kernel
    rw [← hname]
    exact lineOf_prefix pm_dump _
  have hitem : T.item (tickOf s) = {} := by
    rw [MemMapTimeline.item, hnew]
    rfl
  have hlen : ((words (str (physicalLine s))).length : ℤ)-3 = 512*2 := by
    rw [physical_words, List.length_append, List.length_append, flatMap_length (k := 2) fun _ => rfl]
    simp only [List.length_cons, List.length_nil]
    norm_num
  have htick : index (words (str (physicalLine s))) 1 = .ok (str (decimalText s.ticks.toNat)) := by
    rw [physical_words]
    exact index_eq rfl
  have hempty : ({ pm_state := some (physicalState s) } : MemMapInstance) = snapshotBelow s 0 := by
    rw [snapshotBelow, MemMapInstance.mk.injEq]
    refine ⟨rfl,?_⟩
    funext id
    rw [if_neg fun h => by omega]
  rw [MemMapTimeline.read_line, if_pos hprefix, MemMapTimeline.read_pm]
  simp only [htick, hlen, pyassert, if_true, ok_bind, int_decimal,
    mapM_ok _ fun pn hpn => physical_entry_read D (List.mem_range.1 hpn)]
  change (T.item (tickOf s)).set_pm_state (physicalState s) >>= _ = _
  rw [hitem]
  change Except.ok (T.setItem (tickOf s) { pm_state := some (physicalState s) }) = _
  rw [hempty]

/-- The numbers of the virtual page `k`. -/
def pageNumbers (s : KState) (i k : ℕ) : List ℕ :=
  virtualNumbers s (virtual_memory_lookup s.mem (s.processes i).p_pagetable (k*PAGESIZE))

theorem pageNumbers_length (s : KState) (i k : ℕ) : (pageNumbers s i k).length = 3 := by
  rw [pageNumbers, virtualNumbers]
  split_ifs
  · rfl
  · rfl

theorem addrs_virtual : addrs 0 MEMSIZE_VIRTUAL = (List.range 768).map fun k => k*PAGESIZE := by
  have hcount : (MEMSIZE_VIRTUAL-0+(PAGESIZE-1)) / PAGESIZE = 768 := by norm_num
  rw [addrs, hcount]
  simp only [Nat.zero_add]

theorem virtual_words (s : KState) (i : ℕ) : words (str (virtualLine s i)) =
    [str vm_dump,str (decimalText i),str (decimalText s.ticks.toNat)]++
      (List.range 768).flatMap (fun k => (pageNumbers s i k).map fun v => str (decimalText v))++
      [['\n']] := by
  have hname : str vm_dump ≠ [] := by decide +kernel
  have hblank : ¬str [] ≠ [] := not_not.2 rfl
  have hhead : ∀ w ∈ [vm_dump,decimalText i,[],decimalText s.ticks.toNat], Word w := by
    intro w hw
    simp only [List.mem_cons, List.not_mem_nil, or_false] at hw
    rcases hw with rfl | rfl | rfl | rfl
    · exact word_names.2
    · exact word_decimal _
    · exact word_nil
    · exact word_decimal _
  have hwords := words_dump hhead 768 (pageNumbers s i)
  simp only [List.map_cons, List.map_nil, List.filter_cons, decide_eq_true hname,
    decide_eq_true (decimal_nonempty s.ticks.toNat), decide_eq_true (decimal_nonempty i),
    decide_eq_false hblank, if_true, Bool.false_eq_true, if_false, List.filter_nil] at hwords
  have hline : virtualLine s i = lineOf ([vm_dump,decimalText i,[],decimalText s.ticks.toNat]++
      (List.range 768).flatMap fun k => (pageNumbers s i k).map decimalText) := by
    rw [virtualLine, addrs_virtual, List.flatMap_map]
    rfl
  rw [hline]
  exact hwords

theorem virtual_entry_read (D : Dumpable s) (hi : i < NPROC)
    (hfree : (s.processes i).p_state ≠ .P_FREE) {k : ℕ} (hk : k < 768) :
    vm_entry (words (str (virtualLine s i))) k = .ok (virtualEntry s
      (virtual_memory_lookup s.mem (s.processes i).p_pagetable (k*PAGESIZE))) := by
  have hslice := slice_pieces (n := 768) (k := 3)
    (g := fun k => (pageNumbers s i k).map fun v => str (decimalText v))
    (fun k => by rw [List.length_map, pageNumbers_length]) hk
    [str vm_dump,str (decimalText i),str (decimalText s.ticks.toNat)] [['\n']]
  have hva : k*PAGESIZE ∈ addrs 0 MEMSIZE_VIRTUAL := by
    rw [addrs_virtual]
    exact List.mem_map.2 ⟨k,List.mem_range.2 hk,rfl⟩
  have hpage := (D.lookup hi hfree hva).2
  rw [← virtual_words] at hslice
  change slice _ (3*k+3) (3*k+6) = _ at hslice
  have hread : ∀ a b c : ℕ, pageNumbers s i k = [a,b,c] →
      vm_entry (words (str (virtualLine s i))) k = .ok ⟨a,b,(c &&& PTE_U : ℕ),c⟩ := by
    intro a b c h
    rw [h] at hslice
    change slice _ (3*k+3) (3*k+6) = [_,_,_] at hslice
    rw [vm_entry, hslice]
    simp only [int_decimal, ok_bind]
    rfl
  by_cases hpn : (virtual_memory_lookup s.mem (s.processes i).p_pagetable (k*PAGESIZE)).pn < 0
  · rw [virtualEntry, if_pos hpn, hread 0 0 0 (if_pos hpn)]
    rfl
  · have hcount := Int.toNat_of_nonneg (D.counts _ (hpage.resolve_left hpn)).1
    rw [virtualEntry, if_neg hpn, hread _ _ _ (if_neg hpn), ownerByte_eq, hcount]

theorem snapshot_added (hfree : (s.processes i).p_state ≠ .P_FREE) :
    (snapshotBelow s i).add_vm_state i (virtualState s i) = .ok (snapshotBelow s (i+1)) := by
  have hnew : (snapshotBelow s i).vm_state i = none := if_neg fun h => by omega
  have hvm : Function.update (snapshotBelow s i).vm_state i (some (virtualState s i)) =
      (snapshotBelow s (i+1)).vm_state := by
    funext id
    by_cases hsame : id = i
    · subst hsame
      have hthere : (snapshotBelow s (i+1)).vm_state i = some (virtualState s i) :=
        if_pos ⟨by omega,by omega,hfree⟩
      rw [Function.update_self, hthere]
    · rw [Function.update_of_ne hsame, snapshotBelow_other fun h => absurd h hsame]
  rw [MemMapInstance.add_vm_state, pyassert, if_pos hnew, ok_bind, hvm]
  rfl

/-- The line of a process in use adds its pages to the state of the tick. -/
theorem virtual_read (D : Dumpable s) (hi : i < NPROC)
    (hfree : (s.processes i).p_state ≠ .P_FREE) (T : MemMapTimeline) :
    (T.setItem (tickOf s) (snapshotBelow s i)).read_line (str (virtualLine s i)) =
      .ok (T.setItem (tickOf s) (snapshotBelow s (i+1))) := by
  have hprefix : VM_PREFIX <+: str (virtualLine s i) := by
    have hname : str vm_dump = VM_PREFIX := by decide +kernel
    rw [← hname]
    exact lineOf_prefix vm_dump _
  have hother : ¬PM_PREFIX <+: str (virtualLine s i) := by
    intro h
    exact absurd (List.prefix_of_prefix_length_le h hprefix (by decide)) (by decide +kernel)
  have hlen : ((words (str (virtualLine s i))).length : ℤ)-4 = 768*3 := by
    rw [virtual_words, List.length_append, List.length_append, flatMap_length (k := 3) fun k => by
      rw [List.length_map, pageNumbers_length]]
    simp only [List.length_cons, List.length_nil]
    norm_num
  have hid : index (words (str (virtualLine s i))) 1 = .ok (str (decimalText i)) := by
    rw [virtual_words]
    exact index_eq rfl
  have htick : index (words (str (virtualLine s i))) 2 = .ok (str (decimalText s.ticks.toNat)) := by
    rw [virtual_words]
    exact index_eq rfl
  rw [MemMapTimeline.read_line, if_neg hother, if_pos hprefix, MemMapTimeline.read_vm]
  simp only [htick, hid, hlen, pyassert, if_true, ok_bind, int_decimal,
    mapM_ok _ fun k hk => virtual_entry_read D hi hfree (List.mem_range.1 hk)]
  change ((T.setItem (tickOf s) (snapshotBelow s i)).item (tickOf s)).add_vm_state i
    (virtualState s i) >>= _ = _
  rw [MemMapTimeline.item_setItem, snapshot_added hfree, ok_bind]
  exact congrArg Except.ok (T.setItem_setItem _ _ _)

theorem processes_read (D : Dumpable s) (T : MemMapTimeline) {n : ℕ} (hn : n ≤ NPROC) :
    (((List.range n).flatMap (processLines s)).map str).foldlM MemMapTimeline.read_line
      (T.setItem (tickOf s) (snapshotBelow s 0)) =
        .ok (T.setItem (tickOf s) (snapshotBelow s n)) := by
  induction n with
  | zero => rfl
  | succ n ih =>
    rw [List.range_succ, List.flatMap_append, List.map_append, List.foldlM_append,
      ih (by omega), ok_bind, List.flatMap_singleton, processLines]
    by_cases hfree : (s.processes n).p_state ≠ .P_FREE
    · rw [if_pos hfree, List.map_singleton, List.foldlM_cons, virtual_read D hn hfree, ok_bind]
      rfl
    · have hsame : snapshotBelow s (n+1) = snapshotBelow s n := by
        refine MemMapInstance.ext rfl ?_
        funext id
        exact snapshotBelow_other fun _ => not_not.1 hfree
      rw [if_neg hfree, hsame]
      rfl

/-- Reading a dump sets the state of its tick. -/
theorem dump_read (D : Dumpable s) (hnew : T.mem_data (tickOf s) = none) :
    ((dumpLines s).map str).foldlM MemMapTimeline.read_line T =
      .ok (T.setItem (tickOf s) (snapshot s)) := by
  rw [dumpLines, List.map_cons, List.foldlM_cons, physical_read D hnew, ok_bind,
    processes_read D T le_rfl, snapshot]

theorem dump_reads (E : Encoding) (s : KState) :
    List.Forall₂ (Reads E) (dumpLines s) ((dumpLines s).map str) := by
  have hnumbers : ∀ vs : List ℕ, ∀ w ∈ vs.map decimalText, Word w := by
    intro vs w hw
    obtain ⟨v,-,rfl⟩ := List.mem_map.1 hw
    exact word_decimal v
  have hphysical : Reads E (physicalLine s) (str (physicalLine s)) := by
    apply lineOf_reads
    intro w hw
    rcases List.mem_append.1 hw with hw | hw
    · rcases List.mem_pair.1 hw with rfl | rfl
      · exact word_names.1
      · exact word_decimal _
    · obtain ⟨pn,-,hw⟩ := List.mem_flatMap.1 hw
      exact hnumbers [_,_] w hw
  have hvirtual : ∀ i, Reads E (virtualLine s i) (str (virtualLine s i)) := by
    intro i
    apply lineOf_reads
    intro w hw
    rcases List.mem_append.1 hw with hw | hw
    · simp only [List.mem_cons, List.not_mem_nil, or_false] at hw
      rcases hw with rfl | rfl | rfl | rfl
      · exact word_names.2
      · exact word_decimal _
      · exact word_nil
      · exact word_decimal _
    · obtain ⟨va,-,hw⟩ := List.mem_flatMap.1 hw
      exact hnumbers _ w hw
  rw [List.forall₂_map_right_iff, List.forall₂_same]
  intro l hl
  rcases List.mem_cons.1 hl with rfl | hl
  · exact hphysical
  · obtain ⟨i,-,hl⟩ := List.mem_flatMap.1 hl
    rw [processLines] at hl
    split_ifs at hl
    · rw [List.mem_singleton.1 hl]
      exact hvirtual i
    · cases hl

end Dumps

section Logs

/-- A part of the log: a line of its own, or a dump, with the contents of the stack then. -/
inductive Entry where
  | line (l : List UInt8)
  | dump (s : KState) (stack : Memory)

def Entry.write (buf : ℕ) (log : Log) : Entry → Except Halt Log
  | .line l => .ok (log++l)
  | .dump s stack => memdump s stack buf log

/-- The log after its entries. -/
def write_log (buf : ℕ) (entries : List Entry) : Except Halt Log :=
  entries.foldlM (Entry.write buf) []

def Entry.tick : Entry → Option UInt32
  | .line _ => none
  | .dump s _ => some s.ticks

def Entry.lines : Entry → List (List UInt8)
  | .line l => [l]
  | .dump s _ => dumpLines s

/-- A complete line without carriage returns that does not look like a dump. -/
def OtherLine (E : Encoding) (l : List UInt8) : Prop :=
  ∃ line, Reads E l line ∧ ¬PM_PREFIX <+: line ∧ ¬VM_PREFIX <+: line

variable {T : MemMapTimeline} {buf : ℕ} {entries : List Entry}

theorem other_read (hpm : ¬PM_PREFIX <+: line) (hvm : ¬VM_PREFIX <+: line) (T : MemMapTimeline) :
    ∃ T', T.read_line line = .ok T' ∧ T'.mem_data = T.mem_data := by
  rw [MemMapTimeline.read_line, if_neg hpm, if_neg hvm]
  split_ifs
  · exact ⟨_,rfl,rfl⟩
  · exact ⟨_,rfl,rfl⟩

theorem write_entries (hbuf : buf+4 ≤ 2^64) (hdumps : ∀ s stack, .dump s stack ∈ entries → Dumpable s)
    (log : Log) : entries.foldlM (Entry.write buf) log =
      .ok (log++(entries.flatMap Entry.lines).flatten) := by
  have hstep : ∀ e ∈ entries, ∀ log, Entry.write buf log e = .ok (log++e.lines.flatten) := by
    intro e he log
    cases e with
    | line l => rw [Entry.write, Entry.lines, List.flatten_singleton]
    | dump s stack => exact memdump_text (hdumps s stack he) hbuf log
  rw [foldlM_text entries hstep, flatten_flatMap]

/-- What the lines of a log add to a timeline without its ticks. -/
theorem entries_read (hticks : (entries.filterMap Entry.tick).Nodup)
    (hdumps : ∀ s stack, .dump s stack ∈ entries → Dumpable s)
    (hlines : ∀ l, .line l ∈ entries → OtherLine E l)
    (hnew : ∀ s stack, .dump s stack ∈ entries → T.mem_data (tickOf s) = none) :
    ∃ lines T', List.Forall₂ (Reads E) (entries.flatMap Entry.lines) lines ∧
      lines.foldlM MemMapTimeline.read_line T = .ok T' ∧
      (∀ s stack, .dump s stack ∈ entries → T'.mem_data (tickOf s) = some (snapshot s)) ∧
      ∀ tick, (∀ s stack, .dump s stack ∈ entries → tick ≠ tickOf s) →
        T'.mem_data tick = T.mem_data tick := by
  induction entries generalizing T with
  | nil => exact ⟨[],T,.nil,rfl,fun s stack h => absurd h List.not_mem_nil,fun _ _ => rfl⟩
  | cons e entries ih =>
    have hdumps' : ∀ s stack, .dump s stack ∈ entries → Dumpable s := fun s stack h =>
      hdumps s stack (List.mem_cons_of_mem _ h)
    have hlines' : ∀ l, .line l ∈ entries → OtherLine E l := fun l h =>
      hlines l (List.mem_cons_of_mem _ h)
    have hnew' : ∀ s stack, .dump s stack ∈ entries → T.mem_data (tickOf s) = none :=
      fun s stack h => hnew s stack (List.mem_cons_of_mem _ h)
    cases e with
    | line l =>
      obtain ⟨line,R,hpm,hvm⟩ := hlines l List.mem_cons_self
      obtain ⟨T₁,hread,hdata⟩ := other_read hpm hvm T
      have hticks' : (entries.filterMap Entry.tick).Nodup := by
        rw [List.filterMap_cons] at hticks
        exact hticks
      obtain ⟨lines,T',hforall,hfold,hsome,hnone⟩ := ih (T := T₁) hticks' hdumps' hlines'
        fun s stack h => by
          rw [hdata]
          exact hnew' s stack h
      refine ⟨line :: lines,T',?_,?_,?_,?_⟩
      · exact .cons R hforall
      · rw [List.foldlM_cons, hread, ok_bind, hfold]
      · intro s stack h
        rcases List.mem_cons.1 h with h | h
        · cases h
        · exact hsome s stack h
      · intro tick h
        rw [hnone tick fun s stack hs => h s stack (List.mem_cons_of_mem _ hs), hdata]
    | dump s₀ stack₀ =>
      rw [List.filterMap_cons] at hticks
      obtain ⟨hfirst,hticks'⟩ := List.nodup_cons.1 hticks
      have hother : ∀ s stack, .dump s stack ∈ entries → tickOf s ≠ tickOf s₀ := by
        intro s stack h heq
        have hsame : s.ticks = s₀.ticks := UInt32.toNat_inj.1 (Int.natCast_inj.1 heq)
        exact hfirst (List.mem_filterMap.2 ⟨_,h,congrArg some hsame⟩)
      have hkept : ∀ tick, tick ≠ tickOf s₀ →
          (T.setItem (tickOf s₀) (snapshot s₀)).mem_data tick = T.mem_data tick := fun tick h =>
        Function.update_of_ne h _ _
      have hset : (T.setItem (tickOf s₀) (snapshot s₀)).mem_data (tickOf s₀) =
          some (snapshot s₀) := Function.update_self _ _ _
      obtain ⟨lines,T',hforall,hfold,hsome,hnone⟩ :=
        ih (T := T.setItem (tickOf s₀) (snapshot s₀)) hticks' hdumps' hlines' fun s stack h => by
          rw [hkept _ (hother s stack h)]
          exact hnew' s stack h
      refine ⟨(dumpLines s₀).map str++lines,T',?_,?_,?_,?_⟩
      · rw [List.flatMap_cons]
        exact List.rel_append (dump_reads E s₀) hforall
      · rw [List.foldlM_append, dump_read (hdumps s₀ stack₀ List.mem_cons_self)
          (hnew s₀ stack₀ List.mem_cons_self), ok_bind, hfold]
      · intro s stack h
        rcases List.mem_cons.1 h with h | h
        · cases h
          rw [hnone _ fun s stack hs => (hother s stack hs).symm, hset]
        · exact hsome s stack h
      · intro tick h
        rw [hnone tick fun s stack hs => h s stack (List.mem_cons_of_mem _ hs),
          hkept tick (h s₀ stack₀ List.mem_cons_self)]

end Logs

/-- The log of any sequence of dumps at different ticks, with other lines in between, is read
without an exception. The timeline has the ticks of the dumps, each with what memory was then. -/
theorem dumps_read_back (E : Encoding) (buf : ℕ) (hbuf : buf+4 ≤ 2^64) (entries : List Entry)
    (hticks : (entries.filterMap Entry.tick).Nodup)
    (hdumps : ∀ s stack, .dump s stack ∈ entries → Dumpable s)
    (hlines : ∀ l, .line l ∈ entries → OtherLine E l) :
    ∃ log T, write_log buf entries = .ok log ∧ MemMapTimeline.init E log = .ok T ∧
      (∀ s stack, .dump s stack ∈ entries → T.mem_data s.ticks.toNat = some (snapshot s)) ∧
      ∀ tick : ℤ, (∀ s stack, .dump s stack ∈ entries → tick ≠ s.ticks.toNat) →
        T.mem_data tick = none := by
  obtain ⟨lines,T,hforall,hfold,hsome,hnone⟩ := entries_read (E := E) (T := {}) hticks hdumps hlines
    fun _ _ _ => rfl
  refine ⟨_,T,write_entries hbuf hdumps [],?_,hsome,fun tick h => ?_⟩
  · rw [List.nil_append, init_lines hforall, hfold]
  · rw [hnone tick h]

section Sample

/-- Every byte is one character. -/
def latin1 : Encoding where
  decode l := some (str l)
  decode_nil := rfl
  decode_ascii _ _ _ := rfl
  decode_line x l := by
    simp [str]

/-- Page tables with one user page, the first of the window. -/
def quietTables : Memory :=
  let m := setEntry (fun _ => 0) 0x1000 0 0x2007
  let m := setEntry m 0x2000 0 0x3007
  let m := setEntry m 0x3000 0 0x4007
  setEntry m 0x4000 256 0x100007

/-- A process with this page. -/
def quietState (ticks : UInt32) : KState where
  mem := quietTables
  pageinfo := fun pn => if pn = 256 then ⟨1,1⟩ else ⟨PO_RESERVED,1⟩
  processes := fun i => ⟨i,.zero,if i = 1 then .P_RUNNABLE else .P_FREE,0x1000⟩
  current := 1
  pagetable_owner := 0
  ticks := ticks
  last_ticks := 0
  showing := 0
  cr3 := 0x1000

theorem quiet_entry {pt i : ℕ} (hpt : pt % 4096 = 0) (hi : i < 512) :
    entry quietTables pt i < 0x200000 := by
  have hzero : entry (fun _ => 0) pt i = 0 := by simp [entry, load64, loadLE]
  rw [quietTables, entry_setEntry_if rfl hpt (by decide) hi (by decide),
    entry_setEntry_if rfl hpt (by decide) hi (by decide),
    entry_setEntry_if rfl hpt (by decide) hi (by decide),
    entry_setEntry_if rfl hpt (by decide) hi (by decide), hzero]
  split_ifs <;> decide

theorem quiet_dumpable (ticks : UInt32) : Dumpable (quietState ticks) := by
  have hcount : (0 : ℤ) ≤ 1 ∧ (1 : ℤ) < 2^7 := by decide
  have haligned : 0x1000 % PAGESIZE = 0 := by decide
  refine ⟨fun pn _ => ?_,fun _ _ _ => haligned,fun i _ _ va _ h =>
    lookup_below (fun _ _ => quiet_entry) haligned h⟩
  simp only [quietState]
  split_ifs
  · exact hcount
  · exact hcount

/-- Two dumps with a line between them. -/
theorem quiet_dumps_read : ∃ log T,
    virtual_memory_lookup quietTables 0x1000 0x100000 = ⟨256,0x100000,7⟩ ∧
    write_log 0 [.dump (quietState 100) fun _ => 0,.line (['h','i','\n'].map ascii),
      .dump (quietState 200) fun _ => 1] = .ok log ∧ MemMapTimeline.init latin1 log = .ok T ∧
    T.mem_data 100 = some (snapshot (quietState 100)) ∧
    T.mem_data 200 = some (snapshot (quietState 200)) ∧ T.mem_data 300 = none := by
  have hline : OtherLine latin1 (['h','i','\n'].map ascii) := by
    refine ⟨['h','i','\n'],⟨⟨['h','i'].map ascii,rfl⟩,⟨['h','i'],rfl,by decide,by decide⟩,?_⟩,
      by decide,by decide⟩
    have hstr : str (['h','i','\n'].map ascii) = ['h','i','\n'] := by decide +kernel
    exact congrArg some hstr
  obtain ⟨log,T,hwrite,hread,hsome,hnone⟩ := dumps_read_back latin1 0 (by norm_num)
    [.dump (quietState 100) fun _ => 0,.line (['h','i','\n'].map ascii),
      .dump (quietState 200) fun _ => 1]
    (by decide) (by
      intro s stack h
      simp only [List.mem_cons, List.not_mem_nil, or_false, reduceCtorEq, false_or,
        Entry.dump.injEq] at h
      rcases h with ⟨rfl,-⟩ | ⟨rfl,-⟩
      · exact quiet_dumpable 100
      · exact quiet_dumpable 200) (by
      intro l h
      simp only [List.mem_cons, List.not_mem_nil, or_false, reduceCtorEq, false_or,
        Entry.line.injEq] at h
      rw [h]
      exact hline)
  refine ⟨log,T,by decide +kernel,hwrite,hread,hsome (quietState 100) _ List.mem_cons_self,
    hsome (quietState 200) _ (List.mem_cons_of_mem _ (List.mem_cons_of_mem _ List.mem_cons_self)),
    hnone 300 ?_⟩
  intro s stack h
  simp only [List.mem_cons, List.not_mem_nil, or_false, reduceCtorEq, false_or,
    Entry.dump.injEq] at h
  rcases h with ⟨rfl,-⟩ | ⟨rfl,-⟩
  · decide
  · decide

/-- A carriage return in another line makes a line of its own of what is behind it. -/
theorem carriage_return_splits : ∃ l : List UInt8,
    (∃ x, l = x++[ascii '\n'] ∧ ascii '\n' ∉ x) ∧ ¬pm_dump <+: l ∧ ¬vm_dump <+: l ∧
      write_log 0 [.line l] = .ok l ∧ ∀ E, MemMapTimeline.init E l = .error .AssertionError := by
  refine ⟨['x','\r','P','M','_','D','U','M','P','\n'].map ascii,
    ⟨['x','\r','P','M','_','D','U','M','P'].map ascii,by decide +kernel,by decide +kernel⟩,
    by decide +kernel,by decide +kernel,rfl,fun E => ?_⟩
  have hdecode : E.decode (['x','\r','P','M','_','D','U','M','P','\n'].map ascii) =
      some (str (['x','\r','P','M','_','D','U','M','P','\n'].map ascii)) :=
    decode_str (by decide +kernel)
  have hlines : readlines (translate (str (['x','\r','P','M','_','D','U','M','P','\n'].map ascii))) =
      [['x','\n'],PM_PREFIX++['\n']] := by decide +kernel
  have hfirst : ∀ T : MemMapTimeline, T.read_line ['x','\n'] = .ok T := by
    intro T
    rw [MemMapTimeline.read_line, if_neg (by decide), if_neg (by decide), if_neg (by decide)]
  have hwords : words (PM_PREFIX++['\n']) = [PM_PREFIX++['\n']] := by decide +kernel
  have hsecond : ∀ T : MemMapTimeline, T.read_line (PM_PREFIX++['\n']) = .error .AssertionError := by
    intro T
    rw [MemMapTimeline.read_line, if_pos (List.prefix_append _ _), MemMapTimeline.read_pm]
    simp only [hwords]
    rw [pyassert, if_neg (by decide)]
    rfl
  rw [MemMapTimeline.init, hdecode]
  simp only [hlines, List.foldlM_cons]
  rw [hfirst, ok_bind, hsecond]
  rfl

end Sample
end WeensyOS.LogRoundTrip
