import WeensyOS.Canvases
import WeensyOS.KernelPanics

/-!
# The memory map on the screen

`memshow_physical` and `memshow_virtual_animate` draw a cell for each physical
page and for each virtual page of one process, in rows of 64 behind a label with
an address. The dumps of the log have the owners and the user pages that can be
read off the screen.
-/

set_option autoImplicit false

namespace WeensyOS.MemoryDisplay
open WeensyOS.FlatMemory WeensyOS.KernelState WeensyOS.PageTables WeensyOS.Checks
open WeensyOS.CheckedRuns WeensyOS.TextCursors WeensyOS.Printer WeensyOS.PrinterRuns
open WeensyOS.ConsolePrinter WeensyOS.StringPrinter WeensyOS.PlainFormats WeensyOS.LogDumps
open WeensyOS.LogRoundTrip WeensyOS.RingBuffers WeensyOS.ConsoleLayout WeensyOS.KernelPanics
open WeensyOS.Canvases WeensyOS.TableWords WeensyOS.PagingInvariant WeensyOS.SelfChecks
open WeensyOS.GradedRuns WeensyOS.Clock WeensyOS.Boot WeensyOS.BootResult WeensyOS.BootRun
open WeensyOS.Exceptions WeensyOS.Runs

section Source

/-- Ways a drawing stops: a fault of the printer, a failing assertion, or a read outside
`memstate_colors`. -/
inductive Stop where
  | printer (fault : Fault)
  | kernel (panic : Panic)
  | table
deriving DecidableEq, Repr

def memstate_colors : List UInt16 :=
  [( 'K',0x0D00),( 'R',0x0700),( '.',0x0700),( '1',0x0C00),( '2',0x0A00),( '3',0x0900),
    ( '4',0x0E00),( '5',0x0F00),( '6',0x0C00),( '7',0x0A00),( '8',0x0900),( '9',0x0E00),
    ( 'A',0x0F00),( 'B',0x0C00),( 'C',0x0A00),( 'D',0x0900),( 'E',0x0E00),( 'F',0x0F00)].map
    fun (c,color) => UInt16.ofNat (ascii c).toNat ||| color

/-- `memstate_colors[owner - PO_KERNEL]` -/
def memstate_color (owner : ℤ) : Except Stop UInt16 :=
  if owner < PO_KERNEL then .error .table
  else match memstate_colors[(owner-PO_KERNEL).toNat]? with
    | some color => .ok color
    | none => .error .table

/-- `"PHYSICAL MEMORY"` -/
def physical_heading : Text :=
  ⟨['P','H','Y','S','I','C','A','L',' ','M','E','M','O','R','Y'].map ascii,by decide +kernel⟩

/-- `"VIRTUAL ADDRESS SPACE FOR "` -/
def virtual_heading : List UInt8 :=
  ['V','I','R','T','U','A','L',' ','A','D','D','R','E','S','S',' ','S','P','A','C','E',' ','F',
    'O','R',' '].map ascii

/-- `"VIRTUAL ADDRESS SPACE FOR %s"` -/
def virtual_format : Text := ⟨virtual_heading++['%','s'].map ascii,by decide +kernel⟩

/-- `"0x%06X "` -/
def address_format : Text := ⟨['0','x','%','0','6','X',' '].map ascii,by decide +kernel⟩

/-- A call of `console_printf`, for the cells it leaves. -/
def print (strs : UInt64 → Text) (cpos : ℤ) (format : Text) (args : List UInt64) (cells : Cells) :
    Except Stop Cells := do
  let out ← (console_printf strs cpos 0x0F00 format args cells).mapError .printer
  .ok out.cells

/-- The label at the start of a row of the map that begins in `row`. -/
def print_label (row pn addr : ℕ) (cells : Cells) : Except Stop Cells :=
  if pn % 64 = 0 then
    print noStrings (CPOS (row+pn / 64 : ℕ) 3) address_format [UInt64.ofNat addr] cells
  else .ok cells

/-- The index of the cell for the page `pn`. -/
def map_cell (row pn : ℕ) : ℕ := (CPOS (row+pn / 64 : ℕ) (12+pn % 64 : ℕ)).toNat

variable (s : KState)

/-- The owner that is drawn. -/
def shown_owner (pn : ℕ) : ℤ :=
  if (s.pageinfo pn).refcount = 0 then PO_FREE else (s.pageinfo pn).owner

/-- Darker color for shared pages. -/
def darker (pn : ℕ) (color : UInt16) : UInt16 :=
  if (s.pageinfo pn).refcount > 1 then color &&& 0x77FF else color

/-- Reverse video for user-accessible pages. -/
def reverse_video (perm : ℕ) (color : UInt16) : UInt16 :=
  if perm &&& PTE_U ≠ 0 then
    (color &&& 0x0F00) <<< 4 ||| (color &&& 0xF000) >>> 4 ||| (color &&& 0x00FF)
  else color

/-- One pass of the loop of `memshow_physical`. -/
def memshow_physical_page (cells : Cells) (pn : ℕ) : Except Stop Cells := do
  let cells ← print_label 1 pn (pn*2^12) cells
  let color ← memstate_color (shown_owner s pn)
  .ok (Function.update cells (map_cell 1 pn) (darker s pn color))

def memshow_physical (cells : Cells) : Except Stop Cells := do
  let cells ← print noStrings (CPOS 0 32) physical_heading [] cells
  (List.range NPAGES).foldlM (memshow_physical_page s) cells

def virtual_color (vam : vamapping) : Except Stop UInt16 :=
  if vam.pn < 0 then .ok (UInt16.ofNat (ascii ' ').toNat)
  else do
    (kassert (vam.pa < MEMSIZE_PHYSICAL) "vam.pa < MEMSIZE_PHYSICAL").mapError .kernel
    let color ← memstate_color (shown_owner s vam.pn.toNat)
    .ok (darker s vam.pn.toNat (reverse_video vam.perm color))

/-- One pass of the loop of `memshow_virtual`. -/
def memshow_virtual_page (pagetable : ℕ) (cells : Cells) (va : ℕ) : Except Stop Cells := do
  let color ← virtual_color s (virtual_memory_lookup s.mem pagetable va)
  let pn := (PAGENUMBER va).toNat
  let cells ← print_label 11 pn va cells
  .ok (Function.update cells (map_cell 11 pn) color)

/-- `memshow_virtual` with what it draws. The string at `name` is `strs name`. -/
def draw_virtual (strs : UInt64 → Text) (pagetable : ℕ) (name : UInt64) (cells : Cells) :
    Except Stop Cells := do
  (kassert (pagetable = PTE_ADDR pagetable) "(uintptr_t) pagetable == PTE_ADDR(pagetable)").mapError
    .kernel
  let cells ← print strs (CPOS 10 26) virtual_format [name] cells
  (addrs 0 MEMSIZE_VIRTUAL).foldlM (memshow_virtual_page s pagetable) cells

/-- The state when `memshow_virtual_animate` knows which process to show. -/
def next_showing : KState :=
  let s := if s.last_ticks = 0 ∨ s.ticks-s.last_ticks ≥ HZ/2
    then { s with last_ticks := s.ticks, showing := s.showing+1 } else s
  { s with showing := skip_free s (2*NPROC+1-s.showing) s.showing % NPROC }

/-- `memshow_virtual_animate`, with `char s[4]` at `buf` of the stack. -/
def draw_animate (stack : Memory) (buf : ℕ) (cells : Cells) : Except Stop (KState × Cells) := do
  let s := next_showing s
  if (s.processes s.showing).p_state ≠ .P_FREE then
    let (stack,_) ← (vsnprintf noStrings id_format [UInt64.ofNat s.showing] stack buf 4).mapError
      .printer
    let cells ← draw_virtual s (fun name => cstring stack name.toNat 4)
      (s.processes s.showing).p_pagetable (UInt64.ofNat buf) cells
    .ok (s,cells)
  else .ok (s,cells)

/-- The two drawings of `exception`. -/
def memshow (stack : Memory) (buf : ℕ) (cells : Cells) : Except Stop (KState × Cells) := do
  let cells ← memshow_physical s cells
  draw_animate s stack buf cells

end Source

section Reading

/-- The owner that a cell of a map shows, as the log has it. -/
def ownerShown (c : UInt16) : ℤ :=
  if c &&& 0x00FF = UInt16.ofNat (ascii ' ').toNat then 0
  else ((memstate_colors.findIdx fun m => m &&& 0x00FF = c &&& 0x00FF)+PO_KERNEL) % 2^8

/-- A colored background. -/
def Reversed (c : UInt16) : Prop := c &&& 0xF000 ≠ 0

instance (c : UInt16) : Decidable (Reversed c) := inferInstanceAs (Decidable (_ ≠ _))

variable {s : KState} {pn perm : ℕ} {owner : ℤ}

/-- Each entry of `memstate_colors` can be told from the others in all its variants. -/
theorem legend (i : Fin 18) (dark reverse : Bool) : ∃ color, memstate_colors[i.val]? = some color ∧
    let shade := fun c : UInt16 => if dark then c &&& 0x77FF else c
    let turned := reverse_video (if reverse then PTE_U else 0) color
    ownerShown (shade turned) = (i.val+PO_KERNEL) % 2^8 ∧ (Reversed (shade turned) ↔ reverse) := by
  revert i dark reverse
  decide +kernel

/-- `memstate_colors` at an owner in range. -/
def memstate (owner : ℤ) : UInt16 := memstate_colors.getD (owner-PO_KERNEL).toNat 0

def physicalColor (s : KState) (pn : ℕ) : UInt16 := darker s pn (memstate (shown_owner s pn))

def virtualColor (s : KState) (vam : vamapping) : UInt16 :=
  if vam.pn < 0 then UInt16.ofNat (ascii ' ').toNat
  else darker s vam.pn.toNat (reverse_video vam.perm (memstate (shown_owner s vam.pn.toNat)))

theorem virtualColor_congr {t : KState} (h : t.pageinfo = s.pageinfo) (vam : vamapping) :
    virtualColor t vam = virtualColor s vam := by
  simp only [virtualColor, darker, shown_owner, h]

/-- A state that can be drawn: the owners have a color, and free pages have no owner. -/
structure Drawable (s : KState) : Prop extends Dumpable s where
  owners : ∀ pn < NPAGES, PO_KERNEL ≤ (s.pageinfo pn).owner ∧ (s.pageinfo pn).owner < NPROC
  unused : ∀ pn < NPAGES, (s.pageinfo pn).refcount = 0 → (s.pageinfo pn).owner = PO_FREE

theorem Drawable.shown (D : Drawable s) (hpn : pn < NPAGES) :
    shown_owner s pn = (s.pageinfo pn).owner := by
  rw [shown_owner]
  split_ifs with h
  · exact (D.unused pn hpn h).symm
  · rfl

theorem memstate_color_ok (hlow : PO_KERNEL ≤ owner) (hhigh : owner < NPROC) :
    memstate_color owner = .ok (memstate owner) := by
  have hlen : memstate_colors.length = 18 := by decide +kernel
  have hin : (owner-PO_KERNEL).toNat < memstate_colors.length := by
    simp only [PO_KERNEL, NPROC] at *
    omega
  rw [memstate_color, if_neg (not_lt.2 hlow), List.getElem?_eq_getElem hin, memstate,
    List.getD_eq_getElem _ _ hin]

/-- The owner of a page in any of its variants. -/
theorem variants_read (hlow : PO_KERNEL ≤ owner) (hhigh : owner < NPROC) (s : KState)
    (pn perm : ℕ) : ownerShown (darker s pn (reverse_video perm (memstate owner))) = owner % 2^8 ∧
      (Reversed (darker s pn (reverse_video perm (memstate owner))) ↔ perm &&& PTE_U ≠ 0) := by
  obtain ⟨n,rfl⟩ : ∃ n : ℕ, owner = n+PO_KERNEL := ⟨(owner-PO_KERNEL).toNat,by omega⟩
  have hn : n < 18 := by
    simp only [PO_KERNEL, NPROC] at hhigh
    omega
  obtain ⟨color,hcolor,hread⟩ := legend ⟨n,hn⟩ (decide ((s.pageinfo pn).refcount > 1))
    (decide (perm &&& PTE_U ≠ 0))
  have hentry : memstate (n+PO_KERNEL) = color := by
    rw [memstate, Int.add_sub_cancel, Int.toNat_natCast, List.getD_eq_getElem?_getD, hcolor]
    rfl
  have hturn : reverse_video (if decide (perm &&& PTE_U ≠ 0) then PTE_U else 0) color =
      reverse_video perm color := by
    by_cases h : perm &&& PTE_U ≠ 0
    · rw [decide_eq_true h, if_pos rfl, reverse_video, reverse_video, if_pos h, if_pos (by decide)]
    · rw [decide_eq_false h, if_neg Bool.false_ne_true, reverse_video, reverse_video, if_neg h,
        if_neg (by decide)]
  have hshade : ∀ c, darker s pn c =
      if decide ((s.pageinfo pn).refcount > 1) then c &&& 0x77FF else c := by
    intro c
    rw [darker]
    simp only [decide_eq_true_eq]
  simp only [hturn] at hread
  rw [hentry, hshade]
  exact ⟨hread.1,hread.2.trans decide_eq_true_iff⟩

theorem physicalColor_read (D : Drawable s) (hpn : pn < NPAGES) :
    ownerShown (physicalColor s pn) = (s.pageinfo pn).owner % 2^8 := by
  obtain ⟨hlow,hhigh⟩ := D.owners pn hpn
  have hplain : reverse_video 0 (memstate (s.pageinfo pn).owner) = memstate (s.pageinfo pn).owner :=
    rfl
  rw [physicalColor, D.shown hpn, ← hplain]
  exact (variants_read hlow hhigh s pn 0).1

theorem virtualColor_read (D : Drawable s) {vam : vamapping}
    (h : vam.pn < 0 ∨ vam.pn.toNat < NPAGES) :
    ownerShown (virtualColor s vam) = (virtualEntry s vam).owner ∧
      (Reversed (virtualColor s vam) ↔ (virtualEntry s vam).ua ≠ 0) := by
  by_cases hpn : vam.pn < 0
  · rw [virtualColor, if_pos hpn, virtualEntry, if_pos hpn]
    decide +kernel
  · have hin := h.resolve_left hpn
    obtain ⟨hlow,hhigh⟩ := D.owners _ hin
    rw [virtualColor, if_neg hpn, virtualEntry, if_neg hpn, D.shown hin]
    obtain ⟨howner,huser⟩ := variants_read hlow hhigh s vam.pn.toNat vam.perm
    exact ⟨howner,huser.trans (not_congr Int.natCast_eq_zero.symm)⟩

end Reading

section Labels

variable {strs : UInt64 → Text} {f : Text} {args : List UInt64} {S : List (UInt8 × ℤ)}
  {cells : Cells} {row pn : ℕ}

/-- A text without newlines has a cell for each character. -/
theorem typeset_line (h : ∀ x ∈ S, x.1 ≠ newline) (pos : ℕ) :
    (typeset pos S).length = S.length := by
  induction S generalizing pos with
  | nil => rfl
  | cons x S ih =>
    obtain ⟨c,color⟩ := x
    rw [typeset_char (h _ List.mem_cons_self), List.length_cons, List.length_cons,
      ih fun y hy => h y (List.mem_cons_of_mem _ hy)]

/-- A line of text changes its own cells only. -/
theorem print_line (h : stream strs f 0x0F00 args = .ok S) (hline : ∀ x ∈ S, x.1 ≠ newline)
    (pos : ℕ) (hpos : pos < CELLS) (hroom : pos+S.length ≤ CELLS) (cells : Cells) : ∃ cells',
      print strs pos f args cells = .ok cells' ∧
      ∀ i, i < pos ∨ pos+S.length ≤ i → cells' i = cells i := by
  have hclamped : clamped pos = pos := by
    rw [clamped, if_neg (by omega), Int.toNat_natCast]
  obtain ⟨out,hout,hcells,-⟩ := console_shows h pos cells
  rw [hclamped] at hcells
  refine ⟨out.cells,?_,fun i hi => ?_⟩
  · rw [print]
    change (console_vprintf strs pos 0x0F00 f args cells).mapError Stop.printer >>= _ = _
    rw [hout]
    rfl
  · rw [hcells]
    refine ringFill_other fun k hk => ?_
    rw [typeset_line hline] at hk
    rw [Nat.mod_eq_of_lt (by omega)]
    omega

theorem map_cell_eq (row pn : ℕ) : map_cell row pn = 80*(row+pn / 64)+12+pn % 64 := by
  rw [map_cell, CPOS]
  omega

/-- The cells of the label in front of the page `pn`. -/
def labelCells (row pn : ℕ) : Set ℕ :=
  { i | pn % 64 = 0 ∧ 80*(row+pn / 64)+3 ≤ i ∧ i < 80*(row+pn / 64)+12 }

/-- A label without newline that fills its cells. -/
def fitsLabel : Except Fault (List (UInt8 × ℤ)) → Bool
  | .ok S => S.length = 9 ∧ ∀ x ∈ S, x.1 ≠ newline
  | .error _ => false

theorem fitsLabel_ok {x : Except Fault (List (UInt8 × ℤ))} (h : fitsLabel x = true) :
    ∃ S, x = .ok S ∧ S.length = 9 ∧ ∀ x ∈ S, x.1 ≠ newline := by
  cases x with
  | error e => cases h
  | ok S => exact ⟨S,rfl,of_decide_eq_true h⟩

theorem label_fits (j : Fin 12) : fitsLabel (stream noStrings address_format 0x0F00
    [UInt64.ofNat (j.val*0x40000)]) = true := by
  revert j
  decide +kernel

theorem print_label_ok (hpn : pn < 768) (hrow : row+pn / 64 < 25) (cells : Cells) : ∃ cells',
    print_label row pn (pn*4096) cells = .ok cells' ∧
    ∀ i, i ∉ labelCells row pn → cells' i = cells i := by
  rw [print_label]
  by_cases hfirst : pn % 64 = 0
  · have haddr : pn*4096 = pn / 64*0x40000 := by omega
    obtain ⟨S,hS,hlen,hline⟩ := fitsLabel_ok (label_fits ⟨pn / 64,by omega⟩)
    have hcells : CELLS = 2000 := rfl
    have hcpos : CPOS (row+pn / 64 : ℕ) 3 = ((80*(row+pn / 64)+3 : ℕ) : ℤ) := by
      rw [CPOS]
      omega
    obtain ⟨cells',hprint,hkept⟩ := print_line hS hline (80*(row+pn / 64)+3) (by omega) (by omega)
      cells
    rw [if_pos hfirst, haddr]
    refine ⟨cells',by rw [hcpos]; exact hprint,fun i hi => hkept i ?_⟩
    rw [hlen]
    by_contra hout
    exact hi ⟨hfirst,by omega,by omega⟩
  · exact ⟨cells,if_neg hfirst,fun _ _ => rfl⟩

/-- Cells of pages are told apart by their pages. -/
theorem map_cell_inj {pn' : ℕ} (h : map_cell row pn = map_cell row pn') : pn = pn' := by
  rw [map_cell_eq, map_cell_eq] at h
  omega

theorem map_cell_clear (row j k : ℕ) : map_cell row j ∉ labelCells row k := by
  rintro ⟨-,hlow,hhigh⟩
  rw [map_cell_eq] at hlow hhigh
  omega

end Labels

section Drawing

variable {s : KState} {cells : Cells} {row pn pt : ℕ}

/-- A pass that prints the label and colors the cell. -/
theorem labelled_cell (hpn : pn < 768) (hrow : row+pn / 64 < 25) (color : UInt16)
    (cells : Cells) : ∃ cells₁, print_label row pn (pn*4096) cells = .ok cells₁ ∧
      Function.update cells₁ (map_cell row pn) color (map_cell row pn) = color ∧
      ∀ i, i ≠ map_cell row pn → i ∉ labelCells row pn →
        Function.update cells₁ (map_cell row pn) color i = cells i := by
  obtain ⟨cells₁,hlabel,hkept⟩ := print_label_ok hpn hrow cells
  refine ⟨cells₁,hlabel,Function.update_self _ _ _,fun i hi hfar => ?_⟩
  rw [Function.update_of_ne hi]
  exact hkept i hfar

theorem physical_paints (D : Drawable s) (hpn : pn < NPAGES) :
    Paints (memshow_physical_page s) (map_cell 1) (physicalColor s) (labelCells 1) pn := by
  intro cells
  obtain ⟨hlow,hhigh⟩ := D.owners pn hpn
  have hlt : pn < 768 ∧ 1+pn / 64 < 25 := by
    simp only [NPAGES, MEMSIZE_PHYSICAL, PAGESIZE] at hpn
    omega
  obtain ⟨cells₁,hlabel,hcolor,hkept⟩ := labelled_cell hlt.1 hlt.2 (physicalColor s pn) cells
  refine ⟨_,?_,hcolor,hkept⟩
  have haddr : pn*2^12 = pn*4096 := rfl
  rw [memshow_physical_page, haddr, hlabel, ok_bind, D.shown hpn, memstate_color_ok hlow hhigh,
    ok_bind, physicalColor, D.shown hpn]

theorem map_rows (row n : ℕ) (i : ℕ) (h : i < 80*row ∨ 80*(row+(n+63) / 64) ≤ i) :
    ∀ k < n, i ≠ map_cell row k ∧ i ∉ labelCells row k := by
  intro k hk
  refine ⟨?_,?_⟩
  · rw [map_cell_eq]
    omega
  · rintro ⟨-,hlow,hhigh⟩
    omega

/-- The map of physical memory, in the rows 1 to 8. -/
theorem physical_drawn (D : Drawable s) (cells : Cells) : ∃ cells',
    memshow_physical s cells = .ok cells' ∧
    (∀ pn < NPAGES, cells' (map_cell 1 pn) = physicalColor s pn) ∧
    ∀ i, 720 ≤ i → cells' i = cells i := by
  have hheading : stream noStrings physical_heading 0x0F00 [] =
      .ok (inColor 0x0F00 physical_heading) := stream_plain (by decide +kernel)
  have hline : ∀ x ∈ inColor 0x0F00 physical_heading.val, x.1 ≠ newline := by decide +kernel
  have hlen : (inColor 0x0F00 physical_heading.val).length = 15 := by decide +kernel
  obtain ⟨cells₁,hprint,hkept₁⟩ := print_line hheading hline 32 (by decide) (by
    rw [hlen]
    decide) cells
  obtain ⟨cells',hloop,hcolors,hkept⟩ := paint (l := List.range NPAGES)
    (fun pn hpn => physical_paints D (List.mem_range.1 hpn)) List.nodup_range
    (fun _ _ _ _ => map_cell_inj) (fun j _ k _ => map_cell_clear 1 j k) cells₁
  refine ⟨cells',?_,fun pn hpn => hcolors pn (List.mem_range.2 hpn),fun i hi => ?_⟩
  · have hcpos : CPOS 0 32 = ((32 : ℕ) : ℤ) := by decide
    rw [memshow_physical, hcpos, hprint, ok_bind]
    exact hloop
  · rw [hkept i fun k hk => map_rows 1 NPAGES i (Or.inr hi) k (List.mem_range.1 hk)]
    exact hkept₁ i (Or.inr (by omega))

/-- What is looked up for the page `v` of a page table. -/
def pageMapping (s : KState) (pt v : ℕ) : vamapping := virtual_memory_lookup s.mem pt (v*PAGESIZE)

variable {i : ℕ}

theorem mapped_below (D : Dumpable s) (hi : i < NPROC) (hused : (s.processes i).p_state ≠ .P_FREE)
    {va : ℕ} (hva : va ∈ addrs 0 MEMSIZE_VIRTUAL)
    (hpn : ¬(virtual_memory_lookup s.mem (s.processes i).p_pagetable va).pn < 0) :
    (virtual_memory_lookup s.mem (s.processes i).p_pagetable va).pa < MEMSIZE_PHYSICAL := by
  apply D.below i hi hused va hva
  rcases lookup_cases s.mem (s.processes i).p_pagetable va with h | ⟨pe,perms,hodd,-,h⟩
  · rw [h] at hpn
    exact absurd (by decide) hpn
  · rw [h]
    change perms ≠ 0
    omega

theorem page_mapping_ok (D : Drawable s) (hi : i < NPROC)
    (hused : (s.processes i).p_state ≠ .P_FREE) {v : ℕ} (hv : v < 768) :
    virtual_color s (pageMapping s (s.processes i).p_pagetable v) =
        .ok (virtualColor s (pageMapping s (s.processes i).p_pagetable v)) ∧
      ((pageMapping s (s.processes i).p_pagetable v).pn < 0 ∨
        (pageMapping s (s.processes i).p_pagetable v).pn.toNat < NPAGES) := by
  have hva : v*PAGESIZE ∈ addrs 0 MEMSIZE_VIRTUAL := by
    refine (mem_addrs _ _ _).2 ⟨v,?_,?_⟩
    · simp only [PAGESIZE]
      omega
    · simp only [MEMSIZE_VIRTUAL, PAGESIZE]
      omega
  have hpage := (D.lookup hi hused hva).2
  refine ⟨?_,hpage⟩
  change (pageMapping s (s.processes i).p_pagetable v).pn < 0 ∨
    (pageMapping s (s.processes i).p_pagetable v).pn.toNat < NPAGES at hpage
  by_cases hpn : (pageMapping s (s.processes i).p_pagetable v).pn < 0
  · rw [virtual_color, if_pos hpn, virtualColor, if_pos hpn]
  · have hin := hpage.resolve_left hpn
    obtain ⟨hlow,hhigh⟩ := D.owners _ hin
    have hpa : (pageMapping s (s.processes i).p_pagetable v).pa < MEMSIZE_PHYSICAL :=
      mapped_below D.toDumpable hi hused hva hpn
    have hassert : (kassert ((pageMapping s (s.processes i).p_pagetable v).pa < MEMSIZE_PHYSICAL)
        "vam.pa < MEMSIZE_PHYSICAL").mapError Stop.kernel = .ok () := by
      rw [kassert, if_pos hpa]
      rfl
    rw [virtual_color, if_neg hpn, hassert, ok_bind, D.shown hin, memstate_color_ok hlow hhigh,
      ok_bind, virtualColor, if_neg hpn, D.shown hin]

theorem virtual_paints (D : Drawable s) (hi : i < NPROC)
    (hused : (s.processes i).p_state ≠ .P_FREE) {v : ℕ} (hv : v < 768) :
    Paints (fun cells v => memshow_virtual_page s (s.processes i).p_pagetable cells (v*PAGESIZE))
      (map_cell 11) (fun v => virtualColor s (pageMapping s (s.processes i).p_pagetable v))
      (labelCells 11) v := by
  intro cells
  have hrow : 11+v / 64 < 25 := by omega
  have hcolor := (page_mapping_ok D hi hused hv).1
  obtain ⟨cells₁,hlabel,hself,hkept⟩ := labelled_cell hv hrow
    (virtualColor s (pageMapping s (s.processes i).p_pagetable v)) cells
  have hnumber : (PAGENUMBER (v*PAGESIZE)).toNat = v := by
    have hsize : v*PAGESIZE = v*4096 := rfl
    rw [hsize, pagenumber_eq _ (by omega), Int.toNat_natCast, Nat.mul_div_cancel v (by decide)]
  refine ⟨_,?_,hself,hkept⟩
  simp only [memshow_virtual_page]
  change virtual_color s (pageMapping s (s.processes i).p_pagetable v) >>= _ = _
  rw [hcolor, ok_bind, hnumber]
  change print_label 11 v (v*4096) cells >>= _ = _
  rw [hlabel]
  rfl

/-- `"VIRTUAL ADDRESS SPACE FOR %s"` with the name of a process. -/
theorem heading_says {strs : UInt64 → Text} {name : UInt64} {k : ℕ} (hk : k < NPROC)
    (hname : (strs name).val = decimalText k++[ascii ' ']) : ∃ S,
      stream strs virtual_format 0x0F00 [name] = .ok S ∧ S.length ≤ 29 ∧
      ∀ x ∈ S, x.1 ≠ newline := by
  have hdigits : ∀ j : Fin 16, (decimalText j.val).length ≤ 2 ∧ newline ∉ decimalText j.val := by
    decide +kernel
  have hfixed : virtual_heading.length = 26 ∧ newline ∉ virtual_heading := by decide +kernel
  obtain ⟨hlen,hclean⟩ : (decimalText k).length ≤ 2 ∧ newline ∉ decimalText k := hdigits ⟨k,hk⟩
  have hshort : (strs name).val.length ≤ 3 := by
    rw [hname, List.length_append, List.length_singleton]
    omega
  have hrender : Renders strs virtual_format.val 0 [name]
      (virtual_heading++((strs name).val++[])) := by
    refine renders_plain (r := ['%','s'].map ascii) ⟨Nat.zero_le _,rfl⟩ (by decide +kernel)
      (by decide +kernel) ?_
    refine renders_string (r := []) ⟨by decide,rfl⟩ name (by omega) ?_
    exact renders_nil ⟨by decide,rfl⟩ _
  rw [List.append_nil] at hrender
  refine ⟨_,renders_stream hrender,?_,fun x hx hnew => ?_⟩
  · rw [inColor, List.length_map, List.length_append, hfixed.1]
    omega
  · obtain ⟨c,hmem,rfl⟩ := List.mem_map.1 hx
    rw [show c = newline from hnew, hname, List.mem_append, List.mem_append,
      List.mem_singleton] at hmem
    rcases hmem with h | h | h
    · exact hfixed.2 h
    · exact hclean h
    · exact absurd h (by decide)

/-- The map of an address space, in the rows 10 to 22. -/
theorem virtual_drawn (D : Drawable s) (hi : i < NPROC) (hused : (s.processes i).p_state ≠ .P_FREE)
    (strs : UInt64 → Text) {name : UInt64} (hname : (strs name).val = decimalText i++[ascii ' '])
    (cells : Cells) : ∃ cells',
      draw_virtual s strs (s.processes i).p_pagetable name cells = .ok cells' ∧
      (∀ v < 768, cells' (map_cell 11 v) =
        virtualColor s (pageMapping s (s.processes i).p_pagetable v)) ∧
      ∀ j, j < 800 ∨ 1840 ≤ j → cells' j = cells j := by
  obtain ⟨S,hstream,hlen,hline⟩ := heading_says hi hname
  obtain ⟨cells₁,hprint,hkept₁⟩ := print_line hstream hline 826 (by decide) (by
    have hsize : CELLS = 2000 := rfl
    omega) cells
  have haligned : (s.processes i).p_pagetable = PTE_ADDR (s.processes i).p_pagetable := by
    have hmod : (s.processes i).p_pagetable % 4096 = 0 := D.aligned i hi hused
    rw [pte_addr_eq]
    omega
  have hassert : (kassert ((s.processes i).p_pagetable = PTE_ADDR (s.processes i).p_pagetable)
      "(uintptr_t) pagetable == PTE_ADDR(pagetable)").mapError Stop.kernel = .ok () := by
    rw [kassert, if_pos haligned]
    rfl
  have hpages : addrs 0 MEMSIZE_VIRTUAL = (List.range 768).map (·*PAGESIZE) := by
    rw [addrs]
    congr 1
    funext k
    exact Nat.zero_add _
  obtain ⟨cells',hloop,hcolors,hkept⟩ := paint (l := List.range 768)
    (fun v hv => virtual_paints D hi hused (List.mem_range.1 hv)) List.nodup_range
    (fun _ _ _ _ => map_cell_inj) (fun j _ k _ => map_cell_clear 11 j k) cells₁
  refine ⟨cells',?_,fun v hv => hcolors v (List.mem_range.2 hv),fun j hj => ?_⟩
  · have hcpos : CPOS 10 26 = ((826 : ℕ) : ℤ) := by decide
    rw [draw_virtual, hassert, ok_bind, hcpos, hprint, ok_bind, hpages, List.foldlM_map]
    exact hloop
  · have hrows : j < 80*11 ∨ 80*(11+(768+63) / 64) ≤ j := by omega
    rw [hkept j fun k hk => map_rows 11 768 j hrows k (List.mem_range.1 hk)]
    exact hkept₁ j (by omega)

end Drawing

section Animation

variable {s : KState} {cells : Cells} {stack : Memory} {buf : ℕ}

/-- Only two variables change. -/
theorem next_showing_eq (s : KState) : ∃ last, next_showing s =
    { s with last_ticks := last, showing := (next_showing s).showing } := by
  rw [next_showing]
  split
  · exact ⟨_,rfl⟩
  · exact ⟨s.last_ticks,rfl⟩

theorem next_showing_lt (s : KState) : (next_showing s).showing < NPROC :=
  Nat.mod_lt _ (by decide)

theorem Drawable.next (D : Drawable s) : Drawable (next_showing s) := by
  obtain ⟨last,h⟩ := next_showing_eq s
  rw [h]
  exact ⟨⟨D.counts,D.aligned,D.below⟩,D.owners,D.unused⟩

/-- The lookups of a drawing pass their assertions. -/
theorem memshow_passes (D : Dumpable s) {i : ℕ} (hi : i < NPROC)
    (hused : (s.processes i).p_state ≠ .P_FREE) :
    memshow_virtual (s.processes i).p_pagetable s = .ok () := by
  have hmod : (s.processes i).p_pagetable % 4096 = 0 := D.aligned i hi hused
  simp only [memshow_virtual, seq_ok_iff, kassert_ok_iff, forM_ok_iff]
  refine ⟨by rw [pte_addr_eq]; omega,fun va hva => ?_⟩
  split_ifs with hpn
  · rfl
  · exact (kassert_ok_iff _ _).2 (mapped_below D hi hused hva hpn)

/-- The drawing keeps the static variables as `exception` does. -/
theorem animate_next (D : Drawable s) :
    memshow_virtual_animate s = .ok (next_showing s) := by
  have hform : memshow_virtual_animate s =
      if ((next_showing s).processes (next_showing s).showing).p_state ≠ .P_FREE then
        memshow_virtual ((next_showing s).processes (next_showing s).showing).p_pagetable
          (next_showing s) >>= fun _ => .ok (next_showing s)
      else .ok (next_showing s) := rfl
  rw [hform]
  split_ifs with hused
  · rw [memshow_passes D.next.toDumpable (next_showing_lt s) hused]
    rfl
  · rfl

/-- Slots are passed over until one is in use. -/
theorem skip_free_used {left x d : ℕ} (hd : d < left)
    (hused : (s.processes ((x+d) % NPROC)).p_state ≠ .P_FREE) :
    (s.processes (skip_free s left x % NPROC)).p_state ≠ .P_FREE := by
  induction left generalizing x d with
  | zero => exact absurd hd (Nat.not_lt_zero d)
  | succ left ih =>
    rw [skip_free]
    split_ifs with hfree
    · cases d with
      | zero => exact absurd hfree hused
      | succ d =>
        have hnext : x+(d+1) = x+1+d := by omega
        rw [hnext] at hused
        exact ih (Nat.lt_of_succ_lt_succ hd) hused
    · exact hfree

theorem next_showing_used {pid : ℕ} (hs : s.showing < NPROC) (hpid : pid < NPROC)
    (hused : (s.processes pid).p_state ≠ .P_FREE) :
    ((next_showing s).processes (next_showing s).showing).p_state ≠ .P_FREE := by
  have hskip : ∀ t : KState, t.showing ≤ NPROC → (t.processes pid).p_state ≠ .P_FREE →
      (t.processes (skip_free t (2*NPROC+1-t.showing) t.showing % NPROC)).p_state ≠ .P_FREE := by
    intro t ht hused
    have hslots : NPROC = 16 := rfl
    have hturn : (t.showing+(pid+16-t.showing % 16) % 16) % 16 = pid := by omega
    refine skip_free_used (d := (pid+16-t.showing % 16) % 16) (by omega) ?_
    rw [hslots, hturn]
    exact hused
  rw [next_showing]
  split
  · exact hskip { s with last_ticks := s.ticks, showing := s.showing+1 } hs hused
  · exact hskip s hs.le hused

/-- `snprintf(s, 4, "%d ", showing)` -/
theorem name_printed {k : ℕ} (hk : k < NPROC) (hbuf : buf+4 ≤ 2^64) (stack : Memory) :
    ∃ stack' n, vsnprintf noStrings id_format [UInt64.ofNat k] stack buf 4 = .ok (stack',n) ∧
      (cstring stack' (UInt64.ofNat buf).toNat 4).val = decimalText k++[ascii ' '] := by
  have hsmall : k < 16 := hk
  have hid : int32 (UInt64.ofNat k).toNat = k := by
    rw [UInt64.toNat_ofNat', Nat.mod_eq_of_lt (by omega)]
    exact Conversions.int32_small (by omega) (by omega)
  have hdec : (decimalText k).length ≤ 2 :=
    numeral_length _ (by decide) (by decide) (hk.trans (by decide))
  have hlen : (decimalText k++[ascii ' ']).length ≤ 3 := by
    rw [List.length_append, List.length_singleton]
    omega
  have hclean : 0 ∉ decimalText k++[ascii ' '] := by
    rw [List.mem_append, not_or]
    exact ⟨Directives.numeral_clean (Or.inl rfl) k,by decide⟩
  have hrender : Renders noStrings id_format.val 0 [UInt64.ofNat k] (decimalText k++[ascii ' ']) :=
    renders_signed (r := [ascii ' ']) ⟨Nat.zero_le _,rfl⟩ hid
      (renders_char ⟨by decide,rfl⟩ blank_clean.1 blank_clean.2 (renders_nil ⟨by decide,rfl⟩ _))
  have hprint := vsnprintf_block hbuf (by decide) (renders_stream hrender) stack
  have hchars : chars (inColor 0 (decimalText k++[ascii ' '])) = decimalText k++[ascii ' '] :=
    colored_inColor 0 _
  rw [hchars, List.take_of_length_le hlen] at hprint
  have hname : (UInt64.ofNat buf).toNat = buf := by
    rw [UInt64.toNat_ofNat']
    omega
  exact ⟨_,_,hprint,by rw [hname]; exact cstring_putBytes hclean (by omega) stack buf⟩

theorem animate_drawn (D : Drawable s) (hbuf : buf+4 ≤ 2^64)
    (hused : ((next_showing s).processes (next_showing s).showing).p_state ≠ .P_FREE)
    (stack : Memory) (cells : Cells) : ∃ cells',
      draw_animate s stack buf cells = .ok (next_showing s,cells') ∧
      (∀ v < 768, cells' (map_cell 11 v) = virtualColor s
        (pageMapping s (s.processes (next_showing s).showing).p_pagetable v)) ∧
      ∀ j, j < 800 ∨ 1840 ≤ j → cells' j = cells j := by
  obtain ⟨last,hnext⟩ := next_showing_eq s
  have hsame : ((next_showing s).processes = s.processes) ∧ (next_showing s).mem = s.mem ∧
      (next_showing s).pageinfo = s.pageinfo := by
    rw [hnext]
    exact ⟨rfl,rfl,rfl⟩
  obtain ⟨stack',n,hprint,hname⟩ := name_printed (next_showing_lt s) hbuf stack
  obtain ⟨cells',hdraw,hcolors,hkept⟩ := virtual_drawn D.next (next_showing_lt s) hused
    (fun name => cstring stack' name.toNat 4) hname cells
  refine ⟨cells',?_,fun v hv => ?_,hkept⟩
  · simp only [draw_animate, if_pos hused, hprint]
    change draw_virtual (next_showing s) (fun name => cstring stack' name.toNat 4) _ _ cells >>= _ = _
    rw [hdraw]
    rfl
  · rw [hcolors v hv, virtualColor_congr hsame.2.2, pageMapping, hsame.1, hsame.2.1]
    rfl

end Animation

section Results

variable {K : KernelImage} {label : Labels} {s : KState} {out : Outcome}

theorem sound_drawable (S : Sound K label s) : Drawable s where
  toDumpable := sound_dumpable S
  owners pn hpn := by
    have hrange : ∀ o : ℤ, o = PO_FREE ∨ o = PO_RESERVED ∨ o = PO_KERNEL ∨ ProcOwner o →
        PO_KERNEL ≤ o ∧ o < NPROC := by
      rintro o (rfl | rfl | rfl | ⟨hlow,hhigh⟩)
      · decide
      · decide
      · decide
      · simp only [PO_KERNEL, NPROC]
        omega
    apply hrange
    by_cases hinit : (pageinfo_init_entry K (pn*4096)).owner = PO_FREE
    · rcases S.inv.paging.pages pn hpn hinit with h | ⟨pid,hpid,h⟩ <;> rw [h]
      · exact Or.inl rfl
      · exact Or.inr (Or.inr (Or.inr hpid))
    · rw [S.inv.paging.marked pn hpn hinit]
      simp only [pageinfo_init_entry]
      split_ifs
      · exact Or.inr (Or.inl rfl)
      · exact Or.inr (Or.inr (Or.inl rfl))
      · exact Or.inl rfl
  unused pn hpn hcount := by
    by_cases hinit : (pageinfo_init_entry K (pn*4096)).owner = PO_FREE
    · rcases S.inv.paging.pages pn hpn hinit with h | ⟨pid,hpid,h⟩ <;> rw [h] at hcount ⊢
      exact absurd hcount one_ne_zero
    · have hone : (pageinfo_init_entry K (pn*4096)).refcount = 1 := if_pos hinit
      rw [S.inv.paging.marked pn hpn hinit, hone] at hcount
      exact absurd hcount one_ne_zero

/-- The process shown is always the number of a slot. -/
theorem showing_bounded (hs : s.showing < NPROC) (C : Continues K (Supplied K) s out) :
    out.state.showing < NPROC := by
  induction C with
  | refl => exact hs
  | exception _ _ h ih => exact exception_showing ih h
  | @store s' s'' va c _ h ih =>
    rw [user_store] at h
    split at h
    · cases h
      exact ih
    · cases h

/-- The cells `cells'` show what the dumps of `s` have, for all of physical memory and for the
process `k`. -/
structure AsLogged (s : KState) (k : ℕ) (cells cells' : Cells) : Prop where
  physical : ∀ pn e, (physicalState s)[pn]? = some e → ownerShown (cells' (map_cell 1 pn)) = e.owner
  virtual : ∃ entries, (snapshot s).vm_state k = some entries ∧ ∀ v e, entries[v]? = some e →
    ownerShown (cells' (map_cell 11 v)) = e.owner ∧
    (Reversed (cells' (map_cell 11 v)) ↔ e.ua ≠ 0)
  around : ∀ j, (720 ≤ j ∧ j < 800) ∨ 1840 ≤ j → cells' j = cells j

/-- Whenever `exception` draws, the owners and the user pages on the screen are those that it
would write to the log, and the process shown is one in use. -/
theorem screen_as_log (hK : Loadable K) {command : Option String} {s₀ : KState}
    (hboot : kernel K command s₀ = .ok (.user s)) (hstatic : s₀.showing < NPROC)
    (C : Continues K (Supplied K) s out) {buf : ℕ} (hbuf : buf+4 ≤ 2^64) (stack : Memory)
    (cells : Cells) : ∃ s' cells', memshow out.state stack buf cells = .ok (s',cells') ∧
      memshow_virtual_animate out.state = .ok s' ∧
      AsLogged out.state s'.showing cells cells' := by
  obtain ⟨label,S,-⟩ := run_sound hK ((Run.boot hboot).continue C)
  have D := sound_drawable S
  have hstart : s.showing < NPROC := by
    have hsame : s.showing = s₀.showing := kernel_showing hboot
    rwa [hsame]
  obtain ⟨-,hcurrent⟩ := S.inv.current_slot
  have hshown := next_showing_used (showing_bounded hstart C) hcurrent S.inv.current_live.1
  obtain ⟨cells₁,hphysical,hcolors₁,hkept₁⟩ := physical_drawn D cells
  obtain ⟨cells',hvirtual,hcolors,hkept⟩ := animate_drawn D hbuf hshown stack cells₁
  obtain ⟨last,hnext⟩ := next_showing_eq out.state
  have hused : (out.state.processes (next_showing out.state).showing).p_state ≠ .P_FREE := by
    rw [hnext] at hshown
    exact hshown
  refine ⟨next_showing out.state,cells',?_,animate_next D,?_⟩
  · rw [memshow, hphysical, ok_bind, hvirtual]
  · constructor
    · intro pn e he
      rw [physicalState, List.getElem?_map] at he
      obtain ⟨n,hn,rfl⟩ := Option.map_eq_some_iff.1 he
      have hlt := (List.getElem?_eq_some_iff.1 hn).1
      rw [List.length_range] at hlt
      rw [List.getElem?_range hlt, Option.some.injEq] at hn
      subst hn
      have hrow : map_cell 1 pn < 800 := by
        rw [map_cell_eq]
        omega
      rw [hkept _ (Or.inl hrow), hcolors₁ pn hlt]
      exact physicalColor_read D hlt
    · have hspace : (snapshot out.state).vm_state (next_showing out.state).showing =
          some (virtualState out.state (next_showing out.state).showing) := by
        have hlt := next_showing_lt out.state
        simp only [snapshot, snapshotBelow, Int.toNat_natCast]
        exact if_pos ⟨by omega,by omega,hused⟩
      refine ⟨_,hspace,fun v e he => ?_⟩
      obtain ⟨hv,rfl⟩ := entry_at he
      rw [hcolors v hv]
      exact virtualColor_read D (page_mapping_ok D (next_showing_lt _) hused hv).2
    · intro j hj
      rw [hkept j (by omega), hkept₁ j (by omega)]

/-- The screen at the first exception. -/
theorem first_screen_as_log : ∃ s s' cells',
    kernel sampleKernel (some "fork") { powerOn with showing := 1 } = .ok (.user s) ∧
    memshow s s.mem 0 (fun _ => 0) = .ok (s',cells') ∧
    AsLogged s s'.showing (fun _ => 0) cells' := by
  obtain ⟨label,s,hboot,-⟩ := sample_boot { powerOn with showing := 1 }
  obtain ⟨s',cells',hdraw,-,A⟩ := screen_as_log sample_loadable hboot (by decide) 
    .refl (by decide : 0+4 ≤ 2^64) s.mem fun _ => 0
  exact ⟨s,s',cells',hboot,hdraw,A⟩

end Results

end WeensyOS.MemoryDisplay
