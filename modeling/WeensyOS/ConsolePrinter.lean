import WeensyOS.PrinterRuns

/-!
# Printing on the console

`console_putc` writes forward from its cursor and starts again at the top. A
row never crosses the end of the screen, so the blanks of a newline stay inside
it too. The cells a call writes are those from its first position on.
-/

set_option autoImplicit false

namespace WeensyOS.ConsolePrinter
open WeensyOS.TextCursors WeensyOS.Printer WeensyOS.PrinterRuns

abbrev CONSOLE_COLUMNS : ℕ := 80
abbrev CONSOLE_ROWS : ℕ := 25

/-- The number of cells. -/
abbrev CELLS : ℕ := CONSOLE_ROWS*CONSOLE_COLUMNS

abbrev Cells := ℕ → UInt16

/-- `console_printer`, with the cells and a record of the indices written. The cursor is an
index into `console`, which the code does not check before it writes. -/
structure console_printer where
  cursor : ℕ
  cells : Cells
  written : List ℕ

/-- `c | color` in 16 bits. -/
def cell (c : UInt8) (color : ℤ) : UInt16 := UInt16.ofNat c.toNat ||| UInt16.ofInt color

abbrev newline : UInt8 := 10

section Definitions

/-- `*cp->cursor++ = v` -/
def console_printer.write (cp : console_printer) (v : UInt16) : console_printer :=
  { cursor := cp.cursor+1
    cells := Function.update cp.cells cp.cursor v
    written := cp.written++[cp.cursor] }

/-- `for (; pos != 80; pos++)` with `left` rounds to go. -/
def console_blank (color : ℤ) : ℕ → console_printer → console_printer
  | 0, cp => cp
  | left+1, cp => console_blank color left (cp.write (cell (ascii ' ') color))

def console_printer.wrap (cp : console_printer) : console_printer :=
  if CELLS ≤ cp.cursor then { cp with cursor := 0 } else cp

def console_putc : Putc console_printer := fun c color cp =>
  let cp := cp.wrap
  .ok (if c = newline then console_blank color (80-cp.cursor % 80) cp
    else cp.write (cell c color))

/-- What a call leaves: the cells, the returned position and the indices written. -/
structure Output where
  cells : Cells
  pos : ℤ
  written : List ℕ

def console_vprintf (strs : UInt64 → Text) (cpos color : ℤ) (f : Text) (args : List UInt64)
    (cells : Cells) : Except Fault Output := do
  let cpos := if cpos < 0 ∨ (CELLS : ℤ) ≤ cpos then 0 else cpos
  let cp ← printer_vprintf console_putc strs f color args ⟨cpos.toNat,cells,[]⟩
  .ok ⟨cp.cells,cp.cursor,cp.written⟩

abbrev console_printf := console_vprintf

/-- The console and the shared `cursorpos`. -/
structure Screen where
  cells : Cells
  cursorpos : ℤ

def colors : List ℤ := [0x0E,0x0F,0x0C,0x0A,0x09]

/-- The color of `app_printf`. -/
def app_color (colorid : ℤ) : ℤ :=
  if colorid < 0 then 0x0700 else colors.getD (colorid.toNat % colors.length) 0*2^8

def app_printf (strs : UInt64 → Text) (colorid : ℤ) (f : Text) (args : List UInt64) (s : Screen) :
    Except Fault (Screen × Output) := do
  let out ← console_vprintf strs s.cursorpos (app_color colorid) f args s.cells
  let cursorpos := if 23 ≤ out.pos.tdiv 80 then 0 else out.pos
  .ok (⟨out.cells,cursorpos⟩,out)

@[simp] theorem write_cursor (cp : console_printer) (v : UInt16) :
    (cp.write v).cursor = cp.cursor+1 := rfl

@[simp] theorem write_cells (cp : console_printer) (v : UInt16) :
    (cp.write v).cells = Function.update cp.cells cp.cursor v := rfl

@[simp] theorem write_written (cp : console_printer) (v : UInt16) :
    (cp.write v).written = cp.written++[cp.cursor] := rfl

end Definitions

section Cursor

variable {first n : ℕ} {cells : Cells} {cp : console_printer} {color : ℤ}

/-- `n` cells have been written, from `first` on and round the screen. -/
structure Drawn (first : ℕ) (cells : Cells) (n : ℕ) (cp : console_printer) : Prop where
  bound : cp.cursor ≤ CELLS
  cursor : cp.cursor % CELLS = (first+n) % CELLS
  count : cp.written.length = n
  order : ∀ i ∈ cp.written, ∃ k < n, i = (first+k) % CELLS
  kept : ∀ i ∉ cp.written, cp.cells i = cells i

theorem Drawn.start (h : first < CELLS) (cells : Cells) : Drawn first cells 0 ⟨first,cells,[]⟩ :=
  ⟨h.le,rfl,rfl,fun _ hi => absurd hi List.not_mem_nil,fun _ _ => rfl⟩

theorem Drawn.wrap (D : Drawn first cells n cp) : Drawn first cells n cp.wrap ∧
    cp.wrap.cursor < CELLS := by
  rw [console_printer.wrap]
  split_ifs with h
  · have hfull : cp.cursor = CELLS := le_antisymm D.bound h
    have hzero : (0 : ℕ) % CELLS = (first+n) % CELLS := by
      rw [← D.cursor, hfull, Nat.mod_self, Nat.zero_mod]
    exact ⟨⟨Nat.zero_le _,hzero,D.count,D.order,D.kept⟩,Nat.succ_pos _⟩
  · exact ⟨D,Nat.lt_of_not_le h⟩

/-- One more cell. -/
theorem Drawn.write (D : Drawn first cells n cp) (h : cp.cursor < CELLS) (v : UInt16) :
    Drawn first cells (n+1) (cp.write v) := by
  have hcur := D.cursor
  rw [Nat.mod_eq_of_lt h] at hcur
  refine ⟨h,?_,?_,?_,?_⟩
  · rw [write_cursor, hcur, Nat.mod_add_mod, Nat.add_assoc]
  · rw [write_written, List.length_append, D.count, List.length_singleton]
  · intro i hi
    rcases List.mem_append.1 hi with hold | hnew
    · obtain ⟨k,hk,hi⟩ := D.order i hold
      exact ⟨k,by omega,hi⟩
    · exact ⟨n,by omega,(List.mem_singleton.1 hnew).trans hcur⟩
  · intro i hi
    have hi' : i ∉ cp.written ∧ i ≠ cp.cursor := by
      refine ⟨fun h => hi (List.mem_append_left _ h),fun h => hi ?_⟩
      exact List.mem_append_right _ (List.mem_singleton.2 h)
    rw [write_cells, Function.update_of_ne hi'.2]
    exact D.kept i hi'.1

theorem Drawn.blank {left : ℕ} (D : Drawn first cells n cp) (h : cp.cursor+left ≤ CELLS) :
    Drawn first cells (n+left) (console_blank color left cp) := by
  induction left generalizing n cp with
  | zero => exact D
  | succ left ih =>
    have hlt : cp.cursor < CELLS := by omega
    have hnext := ih (D.write hlt (cell (ascii ' ') color)) (by
      rw [write_cursor]
      omega)
    have hsum : n+(left+1) = n+1+left := by omega
    rw [hsum]
    exact hnext

/-- The rest of a row lies on the screen. -/
theorem row_fits {i : ℕ} (h : i < CELLS) : i+(80-i % 80) ≤ CELLS := by
  have hcells : CELLS = 2000 := rfl
  omega

theorem Drawn.putc (D : Drawn first cells n cp) (c : UInt8) (color : ℤ) : ∃ n' cp',
    console_putc c color cp = .ok cp' ∧ Drawn first cells n' cp' := by
  obtain ⟨W,hlt⟩ := D.wrap
  rw [console_putc]
  split_ifs with hc
  · exact ⟨_,_,rfl,W.blank (row_fits hlt)⟩
  · exact ⟨_,_,rfl,W.write hlt _⟩

theorem Drawn.play (D : Drawn first cells n cp) (S : List (UInt8 × ℤ)) : ∃ n' cp',
    play console_putc S cp = .ok cp' ∧ Drawn first cells n' cp' := by
  induction S generalizing n cp with
  | nil => exact ⟨n,cp,rfl,D⟩
  | cons x S ih =>
    obtain ⟨n₁,cp₁,hputc,D₁⟩ := D.putc x.1 x.2
    obtain ⟨n₂,cp₂,hplay,D₂⟩ := ih D₁
    refine ⟨n₂,cp₂,?_,D₂⟩
    rw [play_cons, hputc]
    exact hplay

end Cursor

section Newline

variable {cp : console_printer} {color : ℤ}

theorem console_blank_row (color : ℤ) (left : ℕ) (cp : console_printer) :
    (console_blank color left cp).cursor = cp.cursor+left ∧
      ∀ i, (console_blank color left cp).cells i =
        if cp.cursor ≤ i ∧ i < cp.cursor+left then cell (ascii ' ') color else cp.cells i := by
  induction left generalizing cp with
  | zero =>
    refine ⟨rfl,fun i => ?_⟩
    rw [if_neg (by omega)]
    rfl
  | succ left ih =>
    rw [console_blank]
    have hcur' := write_cursor cp (cell (ascii ' ') color)
    have hcells' := write_cells cp (cell (ascii ' ') color)
    generalize cp.write (cell (ascii ' ') color) = cp' at hcur' hcells' ⊢
    obtain ⟨hcur,hcells⟩ := ih cp'
    refine ⟨by omega,fun i => ?_⟩
    rw [hcells i, hcur', hcells']
    by_cases hi : i = cp.cursor
    · have hout : ¬(cp.cursor+1 ≤ i ∧ i < cp.cursor+1+left) := by omega
      have hin : cp.cursor ≤ i ∧ i < cp.cursor+(left+1) := by omega
      rw [if_neg hout, if_pos hin, hi, Function.update_self]
    · have hiff : (cp.cursor+1 ≤ i ∧ i < cp.cursor+1+left) ↔
          (cp.cursor ≤ i ∧ i < cp.cursor+(left+1)) := by omega
      simp only [hiff, Function.update_of_ne hi]

/-- A newline blanks the rest of its row and stops behind it. -/
theorem newline_row (color : ℤ) (cp : console_printer) : ∃ cp',
    console_putc newline color cp = .ok cp' ∧ cp'.cursor = (cp.wrap.cursor/80+1)*80 ∧
      ∀ i, cp'.cells i = if cp.wrap.cursor ≤ i ∧ i < cp'.cursor then cell (ascii ' ') color
        else cp.cells i := by
  obtain ⟨hcur,hcells⟩ := console_blank_row color (80-cp.wrap.cursor % 80) cp.wrap
  have hkept : cp.wrap.cells = cp.cells := by
    rw [console_printer.wrap]
    split_ifs
    · rfl
    · rfl
  refine ⟨_,rfl,?_,fun i => ?_⟩
  · change (console_blank color _ cp.wrap).cursor = _
    rw [hcur]
    omega
  · change (console_blank color _ cp.wrap).cells i =
      if _ ∧ i < (console_blank color _ cp.wrap).cursor then _ else _
    simp only [hcells i, hcur, hkept]

end Newline

section Calls

/-- The index `i` lies in the cyclic interval from `start` up to the position `pos`. -/
def Between (start : ℕ) (pos : ℤ) (i : ℕ) : Prop :=
  i < CELLS ∧ (i+CELLS-start) % CELLS < (pos.toNat+CELLS-start) % CELLS

/-- The position a call starts from. -/
def clamped (cpos : ℤ) : ℕ := if cpos < 0 ∨ (CELLS : ℤ) ≤ cpos then 0 else cpos.toNat

/-- What a call to `console_vprintf` does to the screen. -/
structure Printed (start : ℕ) (cells : Cells) (out : Output) : Prop where
  inside : ∀ i ∈ out.written, i < CELLS
  pos : 0 ≤ out.pos ∧ out.pos ≤ CELLS
  kept : ∀ i ∉ out.written, out.cells i = cells i
  interval : out.written.length < CELLS → ∀ i ∈ out.written, Between start out.pos i

variable {strs : UInt64 → Text} {f : Text} {args : List UInt64} {cells : Cells} {cpos color : ℤ}

theorem clamped_lt (cpos : ℤ) : clamped cpos < CELLS := by
  rw [clamped]
  split_ifs with h
  · decide
  · rw [not_or, not_lt, not_le] at h
    omega

theorem Drawn.printed {first n : ℕ} {cp : console_printer} (hs : first < CELLS)
    (D : Drawn first cells n cp) : Printed first cells ⟨cp.cells,cp.cursor,cp.written⟩ := by
  have hcells : CELLS = 2000 := rfl
  have hb := D.bound
  refine ⟨fun i hi => ?_,⟨Int.natCast_nonneg _,Int.ofNat_le.2 hb⟩,D.kept,fun hn i hi => ?_⟩
  · obtain ⟨k,-,rfl⟩ := D.order i hi
    exact Nat.mod_lt _ (by decide)
  · obtain ⟨k,hk,rfl⟩ := D.order i hi
    have hcur := D.cursor
    have hcount := D.count
    change cp.written.length < CELLS at hn
    refine ⟨Nat.mod_lt _ (by decide),?_⟩
    rw [Int.toNat_natCast]
    simp only [hcells] at hcur hn hb hs ⊢
    omega

theorem console_vprintf_cases (strs : UInt64 → Text) (cpos color : ℤ) (f : Text)
    (args : List UInt64) (cells : Cells) :
    (args.length < 3*f.val.length ∧
      console_vprintf strs cpos color f args cells = .error .arguments) ∨
    ∃ out, console_vprintf strs cpos color f args cells = .ok out ∧
      Printed (clamped cpos) cells out := by
  obtain ⟨S,short,P⟩ := prints_from strs f.2 (Nat.zero_le _) color args
  have hstart : (if cpos < 0 ∨ (CELLS : ℤ) ≤ cpos then 0 else cpos).toNat = clamped cpos := by
    rw [clamped]
    split_ifs
    · rfl
    · rfl
  obtain ⟨n,cp,hplay,D⟩ := (Drawn.start (clamped_lt cpos) cells).play S
  have hrun : printer_vprintf console_putc strs f color args ⟨clamped cpos,cells,[]⟩ =
      finish short cp := by
    rw [printer_vprintf, P.plays, hplay]
    rfl
  have hcall : console_vprintf strs cpos color f args cells =
      finish short cp >>= fun cp => .ok ⟨cp.cells,cp.cursor,cp.written⟩ := by
    rw [← hrun, ← hstart]
    rfl
  cases short with
  | true => exact Or.inl ⟨P.enough rfl,hcall⟩
  | false => exact Or.inr ⟨_,hcall,D.printed (clamped_lt cpos)⟩

/-- The screens of a sequence of calls, with the cells they have written. Between the calls a
process may store anything into the console and into `cursorpos`. -/
inductive Screens (strs : UInt64 → Text) : Screen → List ℕ → Prop where
  | start (s : Screen) : Screens strs s []
  | printf {s : Screen} {w : List ℕ} (h : Screens strs s w) {cpos color : ℤ} {f : Text}
    {args : List UInt64} {out : Output}
    (hcall : console_printf strs cpos color f args s.cells = .ok out) :
    Screens strs ⟨out.cells,s.cursorpos⟩ (w++out.written)
  | app {s s' : Screen} {w : List ℕ} (h : Screens strs s w) {colorid : ℤ} {f : Text}
    {args : List UInt64} {out : Output} (hcall : app_printf strs colorid f args s = .ok (s',out)) :
    Screens strs s' (w++out.written)
  | store {s : Screen} {w : List ℕ} (h : Screens strs s w) (s' : Screen) : Screens strs s' w

theorem app_printf_cases (strs : UInt64 → Text) (colorid : ℤ) (f : Text) (args : List UInt64)
    (s : Screen) : (args.length < 3*f.val.length ∧
      app_printf strs colorid f args s = .error .arguments) ∨
    ∃ s' out, app_printf strs colorid f args s = .ok (s',out) ∧
      Printed (clamped s.cursorpos) s.cells out ∧ s'.cells = out.cells ∧
      0 ≤ s'.cursorpos ∧ s'.cursorpos < 23*80 := by
  rcases console_vprintf_cases strs s.cursorpos (app_color colorid) f args s.cells with
    ⟨hshort,hcall⟩ | ⟨out,hcall,P⟩
  · refine Or.inl ⟨hshort,?_⟩
    rw [app_printf, hcall]
    rfl
  · have hrow : 0 ≤ (if 23 ≤ out.pos.tdiv 80 then 0 else out.pos) ∧
        (if 23 ≤ out.pos.tdiv 80 then 0 else out.pos) < 23*80 := by
      obtain ⟨h0,-⟩ := P.pos
      rw [Int.tdiv_eq_ediv_of_nonneg h0]
      split_ifs with h
      · decide
      · omega
    refine Or.inr ⟨⟨out.cells,if 23 ≤ out.pos.tdiv 80 then 0 else out.pos⟩,out,?_,P,rfl,hrow⟩
    rw [app_printf, hcall]
    rfl

theorem Screens.inside {s : Screen} {w : List ℕ} (h : Screens strs s w) : ∀ i ∈ w, i < CELLS := by
  induction h with
  | start s => exact fun i hi => absurd hi List.not_mem_nil
  | @printf s w _ cpos color f args out hcall ih =>
    intro i hi
    rcases List.mem_append.1 hi with hold | hnew
    · exact ih i hold
    · rcases console_vprintf_cases strs cpos color f args s.cells with ⟨-,h⟩ | ⟨out',h,P⟩
      · cases h.symm.trans hcall
      · cases h.symm.trans hcall
        exact P.inside i hnew
  | @app s s' w _ colorid f args out hcall ih =>
    intro i hi
    rcases List.mem_append.1 hi with hold | hnew
    · exact ih i hold
    · rcases app_printf_cases strs colorid f args s with ⟨-,h⟩ | ⟨s'',out',h,P,-⟩
      · cases h.symm.trans hcall
      · cases h.symm.trans hcall
        exact P.inside i hnew
  | store _ _ ih => exact ih

end Calls

/-- Console output stays on the screen, whatever the calls and whatever processes store between
them. -/
theorem console_stays_on_screen (strs : UInt64 → Text) :
    (∀ s w, Screens strs s w → ∀ i ∈ w, i < CELLS) ∧
    (∀ cpos color f args cells,
      (3*f.val.length ≤ args.length →
        ∃ out, console_vprintf strs cpos color f args cells = .ok out) ∧
      ∀ out, console_vprintf strs cpos color f args cells = .ok out →
        Printed (clamped cpos) cells out) ∧
    (∀ color cp, ∃ cp', console_putc newline color cp = .ok cp' ∧
      cp'.cursor = (cp.wrap.cursor/80+1)*80 ∧ ∀ i, cp'.cells i =
        if cp.wrap.cursor ≤ i ∧ i < cp'.cursor then cell (ascii ' ') color else cp.cells i) ∧
    ∀ colorid f args s,
      (3*f.val.length ≤ args.length → ∃ r, app_printf strs colorid f args s = .ok r) ∧
      ∀ s' out, app_printf strs colorid f args s = .ok (s',out) →
        Printed (clamped s.cursorpos) s.cells out ∧ s'.cells = out.cells ∧
          0 ≤ s'.cursorpos ∧ s'.cursorpos < 23*80 := by
  refine ⟨fun s w h => h.inside,fun cpos color f args cells => ?_,newline_row,
    fun colorid f args s => ?_⟩
  · rcases console_vprintf_cases strs cpos color f args cells with ⟨hshort,h⟩ | ⟨out,h,P⟩
    · refine ⟨fun hlen => by omega,fun out hout => ?_⟩
      cases h.symm.trans hout
    · refine ⟨fun _ => ⟨out,h⟩,fun out' hout => ?_⟩
      cases h.symm.trans hout
      exact P
  · rcases app_printf_cases strs colorid f args s with ⟨hshort,h⟩ | ⟨s',out,h,P⟩
    · refine ⟨fun hlen => by omega,fun s' out hout => ?_⟩
      cases h.symm.trans hout
    · refine ⟨fun _ => ⟨_,h⟩,fun s'' out' hout => ?_⟩
      cases h.symm.trans hout
      exact P

end WeensyOS.ConsolePrinter
