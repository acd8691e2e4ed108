import WeensyOS.RingBuffers
import WeensyOS.ConsolePrinter
import WeensyOS.StringPrinter

/-!
# What is on the screen

The characters that a sequence of calls prints, set in rows of 80 cells, go
round the screen as one text. Each call continues where the last one stopped.
-/

set_option autoImplicit false

namespace WeensyOS.ConsoleLayout
open WeensyOS.TextCursors WeensyOS.Printer WeensyOS.PrinterRuns WeensyOS.ConsolePrinter
open WeensyOS.StringPrinter WeensyOS.RingBuffers

/-- The cells of a text that starts at the position `pos`: a newline is the rest of its row. -/
def typeset : ℕ → List (UInt8 × ℤ) → List UInt16
  | _, [] => []
  | pos, (c,color) :: S =>
    if c = newline then
      List.replicate (80-pos % 80) (cell (ascii ' ') color)++typeset (pos+(80-pos % 80)) S
    else cell c color :: typeset (pos+1) S

/-- The characters of such a text. -/
def rows : ℕ → List UInt8 → List UInt8
  | _, [] => []
  | pos, c :: text =>
    if c = newline then List.replicate (80-pos % 80) (ascii ' ')++rows (pos+(80-pos % 80)) text
    else c :: rows (pos+1) text

/-- The character of a cell. -/
def glyph (v : UInt16) : UInt8 := v.toUInt8

section Typesetting

variable {pos : ℕ} {S T : List (UInt8 × ℤ)} {c : UInt8} {color : ℤ}

theorem typeset_newline (h : c = newline) : typeset pos ((c,color) :: S) =
    List.replicate (80-pos % 80) (cell (ascii ' ') color)++typeset (pos+(80-pos % 80)) S := by
  rw [typeset, if_pos h]

theorem typeset_char (h : c ≠ newline) :
    typeset pos ((c,color) :: S) = cell c color :: typeset (pos+1) S := by
  rw [typeset, if_neg h]

theorem typeset_append : typeset pos (S++T) =
    typeset pos S++typeset (pos+(typeset pos S).length) T := by
  induction S generalizing pos with
  | nil => rfl
  | cons x S ih =>
    obtain ⟨c,color⟩ := x
    by_cases hc : c = newline
    · rw [List.cons_append, typeset_newline hc, typeset_newline hc, ih, List.length_append,
        List.length_replicate, List.append_assoc, Nat.add_assoc]
    · rw [List.cons_append, typeset_char hc, typeset_char hc, ih, List.length_cons,
        List.cons_append, Nat.add_right_comm, Nat.add_assoc pos]

/-- Only the column counts. -/
theorem typeset_mod {pos' : ℕ} (h : pos % 80 = pos' % 80) : typeset pos S = typeset pos' S := by
  induction S generalizing pos pos' with
  | nil => rfl
  | cons x S ih =>
    obtain ⟨c,color⟩ := x
    by_cases hc : c = newline
    · rw [typeset_newline hc, typeset_newline hc, h, ih]
      omega
    · rw [typeset_char hc, typeset_char hc, ih]
      omega

/-- The column behind a text. -/
def column : ℕ → List UInt8 → ℕ
  | col, [] => col
  | col, c :: text => column (if c = newline then 0 else (col+1) % 80) text

theorem typeset_column (S : List (UInt8 × ℤ)) (pos : ℕ) :
    (pos+(typeset pos S).length) % 80 = column (pos % 80) (S.map Prod.fst) := by
  induction S generalizing pos with
  | nil => rfl
  | cons x S ih =>
    obtain ⟨c,color⟩ := x
    rw [List.map_cons, column]
    by_cases hc : c = newline
    · have hrow : (pos+(80-pos % 80)) % 80 = 0 := by omega
      rw [typeset_newline hc, List.length_append, List.length_replicate, ← Nat.add_assoc, ih, hrow,
        if_pos hc]
    · have hcol : (pos+1) % 80 = (pos % 80+1) % 80 := by omega
      rw [typeset_char hc, List.length_cons, Nat.add_comm _ 1, ← Nat.add_assoc, ih, hcol,
        if_neg hc]

theorem column_append (col : ℕ) (text text' : List UInt8) :
    column col (text++text') = column (column col text) text' := by
  induction text generalizing col with
  | nil => rfl
  | cons c text ih => exact ih _

/-- A color without bits in its low byte leaves the character as it is. -/
theorem glyph_cell (c : UInt8) (h : color % 256 = 0) : glyph (cell c color) = c := by
  have hchar : (UInt16.ofNat c.toNat).toUInt8 = c := by
    rw [← UInt8.toNat_inj, UInt16.toNat_toUInt8, UInt16.toNat_ofNat']
    have := c.toNat_lt
    omega
  have hcolor : (UInt16.ofInt color).toUInt8 = 0 := by
    rw [← UInt8.toNat_inj, UInt16.toNat_toUInt8, UInt16.ofInt, UInt16.toNat_ofNat']
    change _ = 0
    omega
  rw [glyph, cell, UInt16.toUInt8_or, hchar, hcolor, UInt8.or_zero]

theorem typeset_glyphs (h : ∀ x ∈ S, x.2 % 256 = 0) (pos : ℕ) :
    (typeset pos S).map glyph = rows pos (S.map Prod.fst) := by
  induction S generalizing pos with
  | nil => rfl
  | cons x S ih =>
    obtain ⟨c,color⟩ := x
    have hcolor : color % 256 = 0 := h _ List.mem_cons_self
    have hrest := ih fun x hx => h x (List.mem_cons_of_mem _ hx)
    rw [List.map_cons, rows]
    by_cases hc : c = newline
    · rw [typeset_newline hc, if_pos hc, List.map_append, List.map_replicate,
        glyph_cell _ hcolor, hrest]
    · rw [typeset_char hc, if_neg hc, List.map_cons, glyph_cell _ hcolor, hrest]

theorem column_newline (col : ℕ) (text : List UInt8) : column col (text++[newline]) = 0 := by
  rw [column_append]
  rfl

end Typesetting

section Cursor

variable {first : ℕ} {cells : Cells} {L : List UInt16} {cp : console_printer}

/-- The cells `L` have been written, from `first` on. -/
structure Shown (first : ℕ) (cells : Cells) (L : List UInt16) (cp : console_printer) : Prop where
  bound : cp.cursor ≤ CELLS
  cursor : cp.cursor % CELLS = (first+L.length) % CELLS
  cells : cp.cells = ringFill CELLS first L cells

theorem Shown.start (h : first < CELLS) (cells : Cells) : Shown first cells [] ⟨first,cells,[]⟩ :=
  ⟨h.le,rfl,rfl⟩

theorem Shown.wrap (H : Shown first cells L cp) : Shown first cells L cp.wrap ∧
    cp.wrap.cursor < CELLS := by
  rw [console_printer.wrap]
  split_ifs with h
  · have hfull : cp.cursor = CELLS := le_antisymm H.bound h
    have hzero : (0 : ℕ) % CELLS = (first+L.length) % CELLS := by
      rw [← H.cursor, hfull, Nat.mod_self, Nat.zero_mod]
    exact ⟨⟨Nat.zero_le _,hzero,H.cells⟩,Nat.succ_pos _⟩
  · exact ⟨H,Nat.lt_of_not_le h⟩

theorem Shown.write (H : Shown first cells L cp) (h : cp.cursor < CELLS) (v : UInt16) :
    Shown first cells (L++[v]) (cp.write v) := by
  have hcur := H.cursor
  rw [Nat.mod_eq_of_lt h] at hcur
  refine ⟨h,?_,?_⟩
  · rw [write_cursor, hcur, Nat.mod_add_mod, List.length_append, Nat.add_assoc]
    rfl
  · rw [write_cells, H.cells, ringFill_append, hcur]
    rfl

theorem Shown.blank {left : ℕ} {color : ℤ} (H : Shown first cells L cp)
    (h : cp.cursor+left ≤ CELLS) :
    Shown first cells (L++List.replicate left (cell (ascii ' ') color))
      (console_blank color left cp) := by
  induction left generalizing L cp with
  | zero =>
    rw [List.replicate_zero, List.append_nil]
    exact H
  | succ left ih =>
    have hlt : cp.cursor < CELLS := by omega
    have hnext := ih (H.write hlt (cell (ascii ' ') color)) (by
      rw [write_cursor]
      omega)
    rw [List.append_assoc] at hnext
    exact hnext

/-- The column of the cursor is that of the text. -/
theorem Shown.col (H : Shown first cells L cp) : cp.cursor % 80 = (first+L.length) % 80 := by
  have hcur := H.cursor
  have hcells : CELLS = 2000 := rfl
  rw [hcells] at hcur
  omega

theorem Shown.putc (H : Shown first cells L cp) (c : UInt8) (color : ℤ) : ∃ cp',
    console_putc c color cp = .ok cp' ∧
      Shown first cells (L++typeset (first+L.length) [(c,color)]) cp' := by
  obtain ⟨W,hlt⟩ := H.wrap
  rw [console_putc]
  by_cases hc : c = newline
  · have hrow : Shown first cells (_++List.replicate _ (cell (ascii ' ') color)) _ :=
      W.blank (row_fits hlt)
    rw [W.col] at hrow
    rw [if_pos hc, typeset_newline hc, typeset, List.append_nil, W.col]
    exact ⟨_,rfl,hrow⟩
  · rw [if_neg hc, typeset_char hc]
    exact ⟨_,rfl,W.write hlt _⟩

theorem Shown.play (H : Shown first cells L cp) (S : List (UInt8 × ℤ)) : ∃ cp',
    play console_putc S cp = .ok cp' ∧
      Shown first cells (L++typeset (first+L.length) S) cp' := by
  induction S generalizing L cp with
  | nil =>
    refine ⟨cp,rfl,?_⟩
    rw [typeset, List.append_nil]
    exact H
  | cons x S ih =>
    obtain ⟨cp₁,hputc,H₁⟩ := H.putc x.1 x.2
    obtain ⟨cp₂,hplay,H₂⟩ := ih H₁
    refine ⟨cp₂,?_,?_⟩
    · rw [play_cons, hputc]
      exact hplay
    · have hsplit : typeset (first+L.length) ([(x.1,x.2)]++S) = _ := typeset_append
      rw [List.length_append, List.append_assoc, ← Nat.add_assoc, ← hsplit] at H₂
      exact H₂

end Cursor

section Calls

variable {strs : UInt64 → Text} {cpos color : ℤ} {f : Text} {args : List UInt64} {cells : Cells}
  {S : List (UInt8 × ℤ)}

/-- A position at the end of the screen is that at its top. -/
theorem clamped_cursor {n : ℕ} (h : n ≤ CELLS) : clamped n = n % CELLS := by
  have hsize : CELLS = 2000 := rfl
  rw [clamped, hsize]
  rw [hsize] at h
  split_ifs
  · omega
  · omega

/-- What one call leaves. -/
theorem console_shows (h : stream strs f color args = .ok S) (cpos : ℤ) (cells : Cells) :
    ∃ out, console_vprintf strs cpos color f args cells = .ok out ∧
      out.cells = ringFill CELLS (clamped cpos) (typeset (clamped cpos) S) cells ∧
      0 ≤ out.pos ∧ out.pos ≤ CELLS ∧
      clamped out.pos = (clamped cpos+(typeset (clamped cpos) S).length) % CELLS := by
  have hstart : (if cpos < 0 ∨ (CELLS : ℤ) ≤ cpos then 0 else cpos).toNat = clamped cpos := by
    rw [clamped]
    split_ifs
    · rfl
    · rfl
  obtain ⟨cp,hplay,H⟩ := (Shown.start (clamped_lt cpos) cells).play S
  rw [← (stream_plays h).2, ← hstart] at hplay
  rw [List.nil_append, List.length_nil, Nat.add_zero] at H
  refine ⟨⟨cp.cells,cp.cursor,cp.written⟩,?_,H.cells,Int.natCast_nonneg _,
    Int.ofNat_le.2 H.bound,?_⟩
  · rw [console_vprintf]
    simp only [hplay]
    rfl
  · rw [← H.cursor]
    exact clamped_cursor H.bound

/-- A call of `console_printf`. -/
structure PrintCall where
  color : ℤ
  format : Text
  args : List UInt64

/-- Calls that each start where the call before has stopped. -/
def console_session (strs : UInt64 → Text) : List PrintCall → ℤ → Cells → Except Fault (Cells × ℤ)
  | [], cpos, cells => .ok (cells,cpos)
  | c :: calls, cpos, cells => do
    let out ← console_printf strs cpos c.color c.format c.args cells
    console_session strs calls out.pos out.cells

/-- The characters of a call. -/
def Emits (strs : UInt64 → Text) (c : PrintCall) (S : List (UInt8 × ℤ)) : Prop :=
  stream strs c.format c.color c.args = .ok S

theorem session_fills {calls : List PrintCall} {Ss : List (List (UInt8 × ℤ))}
    (h : List.Forall₂ (Emits strs) calls Ss) (cpos : ℤ) (cells : Cells) :
    ∃ pos, console_session strs calls cpos cells =
        .ok (ringFill CELLS (clamped cpos) (typeset (clamped cpos) Ss.flatten) cells,pos) ∧
      clamped pos = (clamped cpos+(typeset (clamped cpos) Ss.flatten).length) % CELLS := by
  induction h generalizing cpos cells with
  | nil => exact ⟨cpos,rfl,(Nat.mod_eq_of_lt (clamped_lt cpos)).symm⟩
  | @cons c S calls Ss hc _ ih =>
    obtain ⟨out,hcall,hcells,-,-,hpos⟩ := console_shows hc cpos cells
    obtain ⟨pos,hsession,hend⟩ := ih out.pos out.cells
    have hcol : clamped out.pos % 80 =
        (clamped cpos+(typeset (clamped cpos) S).length) % 80 := by
      have hsize : CELLS = 2000 := rfl
      rw [hpos, hsize]
      omega
    have hring : clamped out.pos % CELLS =
        (clamped cpos+(typeset (clamped cpos) S).length) % CELLS := by
      rw [hpos, Nat.mod_mod]
    rw [typeset_mod hcol] at hsession hend
    rw [ringFill_mod hring, hcells, ← ringFill_append, ← typeset_append] at hsession
    refine ⟨pos,?_,?_⟩
    · rw [console_session]
      change console_vprintf strs cpos c.color c.format c.args cells >>= _ = _
      rw [hcall]
      change console_session strs calls out.pos out.cells = _
      rw [hcells]
      exact hsession
    · rw [hend, Nat.add_mod, hring, ← Nat.add_mod, List.flatten_cons, typeset_append,
        List.length_append, Nat.add_assoc]

end Calls

section Results

variable {strs : UInt64 → Text} {calls : List PrintCall} {Ss : List (List (UInt8 × ℤ))}

/-- The screen after a session holds the last cells of one text, made of all that was printed. -/
theorem session_on_screen (h : List.Forall₂ (Emits strs) calls Ss) (cpos : ℤ) (cells : Cells) :
    ∃ cells' pos, console_session strs calls cpos cells = .ok (cells',pos) ∧
      (∀ k (hk : k < (typeset (clamped cpos) Ss.flatten).length),
        (typeset (clamped cpos) Ss.flatten).length ≤ k+CELLS →
          cells' ((clamped cpos+k) % CELLS) = (typeset (clamped cpos) Ss.flatten)[k]) ∧
      (∀ i, (∀ k < (typeset (clamped cpos) Ss.flatten).length, i ≠ (clamped cpos+k) % CELLS) →
        cells' i = cells i) ∧
      clamped pos = (clamped cpos+(typeset (clamped cpos) Ss.flatten).length) % CELLS := by
  obtain ⟨pos,hsession,hend⟩ := session_fills h cpos cells
  exact ⟨_,pos,hsession,fun k hk hlast => ringFill_last hk hlast,fun i hi => ringFill_other hi,hend⟩

/-- A text that goes on at the top of the screen. -/
theorem wrapped_session : ∃ cells' pos, console_session noStrings
    [⟨7,⟨[ascii 'o'],by decide⟩,[]⟩,⟨9,⟨[ascii 'k'],by decide⟩,[]⟩] 1999 (fun _ => 0) =
      .ok (cells',pos) ∧ cells' 1999 = cell (ascii 'o') 7 ∧ cells' 0 = cell (ascii 'k') 9 := by
  have hplain : ∀ (color : ℤ) (c : UInt8) (hc : (0 : UInt8) ∉ [c]), c ≠ ascii '%' →
      Emits noStrings ⟨color,⟨[c],hc⟩,[]⟩ [(c,color)] := fun color c hc hne =>
    stream_plain (by simpa using Ne.symm hne)
  obtain ⟨cells',pos,hsession,hcells,-,-⟩ := session_on_screen
    (.cons (hplain 7 (ascii 'o') (by decide) (by decide))
      (.cons (hplain 9 (ascii 'k') (by decide) (by decide)) .nil)) 1999 fun _ => 0
  exact ⟨cells',pos,hsession,hcells 0 (by decide) (by decide),hcells 1 (by decide) (by decide)⟩

end Results

end WeensyOS.ConsoleLayout
