import WeensyOS.ConsoleLayout
import WeensyOS.GradedRuns

/-!
# Panics of the kernel

`panic` prints its message on the screen and into the log, the same text in
both. An exception without a handler ends a run with such a line, and the
grader sees how far the run has come.
-/

set_option autoImplicit false

namespace WeensyOS.KernelPanics
open WeensyOS.FlatMemory WeensyOS.KernelState WeensyOS.PageTables WeensyOS.Exceptions
open WeensyOS.Boot WeensyOS.PagingInvariant WeensyOS.CheckedRuns WeensyOS.KernelInvariant WeensyOS.KernelSteps
open WeensyOS.KernelChecks WeensyOS.BootRun WeensyOS.BootResult WeensyOS.Runs
open WeensyOS.PrivateRuns WeensyOS.SelfChecks WeensyOS.Exhaustion WeensyOS.Clock
open WeensyOS.TextCursors WeensyOS.Printer WeensyOS.Directives WeensyOS.PrinterRuns
open WeensyOS.StringPrinter WeensyOS.PlainFormats WeensyOS.LogDumps WeensyOS.LogParser
open WeensyOS.LogRoundTrip WeensyOS.ConsolePrinter WeensyOS.RingBuffers WeensyOS.ConsoleLayout
open WeensyOS.Grader WeensyOS.GradedRuns WeensyOS.ForkAsserts

section Source

def CPOS (row col : ℤ) : ℤ := row*80+col

def CCOL (cpos : ℤ) : ℤ := cpos.tmod 80

/-- `"PANIC: "` -/
def panic_label : Text := ⟨['P','A','N','I','C',':',' '].map ascii,by decide +kernel⟩

/-- `"PANIC"` -/
def panic_word : Text := ⟨['P','A','N','I','C'].map ascii,by decide +kernel⟩

/-- `"Unexpected exception "` -/
def unexpected : List UInt8 :=
  ['U','n','e','x','p','e','c','t','e','d',' ','e','x','c','e','p','t','i','o','n',' '].map ascii

/-- `"Unexpected exception %d!\n"` -/
def unexpected_format : Text := ⟨unexpected++['%','d','!','\n'].map ascii,by decide +kernel⟩

/-- `"Copy pagetable failed..."` -/
def copy_failed : Text := ⟨['C','o','p','y',' ','p','a','g','e','t','a','b','l','e',' ','f','a',
  'i','l','e','d','.','.','.'].map ascii,by decide +kernel⟩

/-- The log is written first. -/
def error_vprintf (strs : UInt64 → Text) (cpos color : ℤ) (format : Text) (val : List UInt64)
    (log : Log) (cells : Cells) : Except Halt (Log × Output) := do
  let log ← log_printf strs format val log
  let out ← (console_vprintf strs cpos color format val cells).mapError .printer
  .ok (log,out)

abbrev error_printf := error_vprintf

/-- `panic` up to `fail`. -/
def panic (strs : UInt64 → Text) (format : Option Text) (val : List UInt64) (log : Log)
    (cells : Cells) : Except Halt (Log × Output) :=
  match format with
  | some format => do
    let (log,out) ← error_printf strs (CPOS 23 0) 0xC000 panic_label [] log cells
    let (log,out) ← error_vprintf strs out.pos 0xC000 format val log out.cells
    if CCOL out.pos ≠ 0 then error_printf strs out.pos 0xC000 newline_format [] log out.cells
    else .ok (log,out)
  | none => error_printf strs (CPOS 23 0) 0xC000 panic_word [] log cells

end Source

section Colors

variable {strs : UInt64 → Text} {f : List UInt8} {i : ℕ} {args : List UInt64}

/-- What a directive prints and takes does not depend on the color before it. -/
theorem directive_colors (strs : UInt64 → Text) (f : List UInt8) (i : ℕ) (args : List UInt64) :
    (∃ e, ∀ color, directive strs f i color args = .error e) ∨
    ∃ next args' text, ∀ color, ∃ color',
      directive strs f i color args = .ok ⟨next,color',args',text⟩ := by
  simp only [directive]
  rcases scan_flags f (i+1) {} with e | ⟨flags,i⟩
  · exact Or.inl ⟨e,fun _ => rfl⟩
  · rcases hwidth : scan_width f i args with e | ⟨width,j,args₁⟩
    · exact Or.inl ⟨e,fun _ => by simp only [ok_bind, hwidth]; rfl⟩
    · rcases hprec : scan_precision f j args₁ with e | ⟨precision,k,args₂⟩
      · exact Or.inl ⟨e,fun _ => by simp only [ok_bind, hwidth, hprec]; rfl⟩
      · rcases hlength : scan_length f k false with e | ⟨c,length,l⟩
        · exact Or.inl ⟨e,fun _ => by simp only [ok_bind, hwidth, hprec, hlength]; rfl⟩
        · simp only [ok_bind, hwidth, hprec, hlength, conversion]
          by_cases hc : c = ascii 'C'
          · simp only [if_pos hc]
            rcases va_int args₂ with e | ⟨color',args₃⟩
            · exact Or.inl ⟨e,fun _ => rfl⟩
            · exact Or.inr ⟨_,_,_,fun _ => ⟨color',rfl⟩⟩
          · simp only [if_neg hc]
            rcases hconvert : convert strs c length flags args₂ with e | ⟨item,args₃⟩
            · exact Or.inl ⟨e,fun _ => rfl⟩
            · rcases htext : item.text with e | data
              · exact Or.inl ⟨e,fun _ => by simp only [ok_bind, htext]; rfl⟩
              · exact Or.inr ⟨_,_,_,fun color => ⟨color,by simp only [ok_bind, htext]; rfl⟩⟩

/-- The characters of a text with some colors. -/
def Colored (text : List UInt8) (S : List (UInt8 × ℤ)) : Prop := S.map Prod.fst = text

theorem colored_inColor (color : ℤ) (text : List UInt8) : Colored text (inColor color text) := by
  rw [Colored, inColor, List.map_map]
  exact List.map_id text

theorem Colored.append {text text' : List UInt8} {S S' : List (UInt8 × ℤ)} (h : Colored text S)
    (h' : Colored text' S') : Colored (text++text') (S++S') := by
  rw [Colored, List.map_append, h, h']

/-- In all colors a format prints the same characters. -/
theorem prints_colors (strs : UInt64 → Text) (hf : 0 ∉ f) (h : i ≤ f.length) (args : List UInt64) :
    ∃ text short, ∀ color, ∃ S, Colored text S ∧ ∀ (σ : Type) (putc : Putc σ) (p : σ),
      vprintf_loop putc strs f i color args p = play putc S p >>= finish short := by
  induction hn : f.length-i using Nat.strong_induction_on generalizing i args with
  | _ n ih =>
    rcases hrest : f.drop i with _ | ⟨c,rest⟩
    · have A : At f i [] := ⟨h,hrest⟩
      refine ⟨[],false,fun color => ⟨[],rfl,fun σ putc p => ?_⟩⟩
      rw [vprintf_loop_nil A]
      rfl
    · have A : At f i (c :: rest) := ⟨h,hrest⟩
      have hlen := A.length
      rw [List.length_cons] at hlen
      have hzero : c ≠ 0 := by
        rintro rfl
        exact hf (List.mem_of_mem_drop (hrest ▸ List.mem_cons_self))
      by_cases hc : c = ascii '%'
      · subst hc
        rcases directive_colors strs f i args with ⟨e,he⟩ | ⟨next,args',text₁,hd⟩
        · have hdirects := directive_directs strs (A.peek_cons (e := Fault.format)) 0 args
          rw [he 0] at hdirects
          cases hdirects with
          | short hargs =>
            refine ⟨[],true,fun color => ⟨[],rfl,fun σ putc p => ?_⟩⟩
            rw [vprintf_loop_directive A, he color]
            rfl
        · obtain ⟨color₀,h₀⟩ := hd 0
          have hdirects := directive_directs strs (A.peek_cons (e := Fault.format)) 0 args
          rw [h₀] at hdirects
          cases hdirects with
          | ok lower upper taken clean =>
            have hlow : i ≤ next := lower
            have hup : next < f.length := upper
            obtain ⟨text,short,hrun⟩ := ih _ (by omega) (i := next+1) hup args' rfl
            refine ⟨text₁++text,short,fun color => ?_⟩
            obtain ⟨color',hcolor⟩ := hd color
            obtain ⟨S,hS,hplays⟩ := hrun color'
            refine ⟨inColor color' text₁++S,(colored_inColor _ _).append hS,fun σ putc p => ?_⟩
            rw [vprintf_loop_directive A, hcolor, play_append, ← emit_play]
            change emit putc color' text₁ p >>= _ = _
            rw [bind_assoc]
            congr 1
            funext p'
            exact hplays σ putc p'
      · obtain ⟨text,short,hrun⟩ := ih _ (by omega) (i := i+1) (by omega) args rfl
        refine ⟨c :: text,short,fun color => ?_⟩
        obtain ⟨S,hS,hplays⟩ := hrun color
        refine ⟨(c,color) :: S,congrArg (c :: ·) hS,fun σ putc p => ?_⟩
        rw [vprintf_loop_char A hzero hc, play_cons, bind_assoc]
        congr 1
        funext p'
        exact hplays σ putc p'

/-- In another color the format prints the same text. -/
theorem stream_color {f : Text} {color : ℤ} {S : List (UInt8 × ℤ)}
    (h : stream strs f color args = .ok S) (color' : ℤ) :
    ∃ S', Colored (S.map Prod.fst) S' ∧ stream strs f color' args = .ok S' := by
  obtain ⟨text,short,hrun⟩ := prints_colors strs f.2 (Nat.zero_le _) args
  have hstream : ∀ color S', (∀ (σ : Type) (putc : Putc σ) (p : σ),
      vprintf_loop putc strs f.val 0 color args p = play putc S' p >>= finish short) →
        stream strs f color args = finish short S' := by
    intro color S' hplays
    rw [stream, printer_vprintf, hplays, play_collect, List.nil_append]
    rfl
  obtain ⟨S₁,hS₁,hplays⟩ := hrun color
  rw [hstream color S₁ hplays] at h
  cases short with
  | true => cases h
  | false =>
    cases h
    obtain ⟨S₂,hS₂,hplays'⟩ := hrun color'
    exact ⟨S₂,hS₂.trans hS₁.symm,hstream color' S₂ hplays'⟩

end Colors

section Messages

variable {strs : UInt64 → Text} {f : Text} {args : List UInt64} {S : List (UInt8 × ℤ)}

/-- The log receives the text. -/
theorem play_log (S : List (UInt8 × ℤ)) (log : Log) :
    play parallel_port_putc S log = .ok (log++S.map Prod.fst) := by
  induction S generalizing log with
  | nil =>
    rw [List.map_nil, List.append_nil]
    rfl
  | cons x S ih =>
    rw [play_cons]
    change play parallel_port_putc S (log++[x.1]) = _
    rw [ih, List.append_assoc]
    rfl

/-- A message in the log and on the screen. -/
theorem error_says {color : ℤ} (h : stream strs f color args = .ok S) (cpos : ℤ) (log : Log)
    (cells : Cells) : ∃ out,
      error_vprintf strs cpos color f args log cells = .ok (log++S.map Prod.fst,out) ∧
      out.cells = ringFill CELLS (clamped cpos) (typeset (clamped cpos) S) cells ∧
      0 ≤ out.pos ∧ out.pos ≤ CELLS ∧
      clamped out.pos = (clamped cpos+(typeset (clamped cpos) S).length) % CELLS := by
  obtain ⟨S₀,hS₀,hlog⟩ := stream_color h 0
  obtain ⟨out,hcall,hcells,hlow,hhigh,hpos⟩ := console_shows h cpos cells
  refine ⟨out,?_,hcells,hlow,hhigh,hpos⟩
  rw [error_vprintf, log_printf, (stream_plays hlog).2, play_log, hS₀, hcall]
  rfl

/-- A format without directives. -/
theorem error_plain (strs : UInt64 → Text) (args : List UInt64) (hf : ascii '%' ∉ f.val)
    (cpos color : ℤ) (log : Log) (cells : Cells) : ∃ out,
      error_vprintf strs cpos color f args log cells = .ok (log++f.val,out) ∧
      out.cells = ringFill CELLS (clamped cpos)
        (typeset (clamped cpos) (inColor color f.val)) cells ∧
      clamped out.pos = (clamped cpos+
        (typeset (clamped cpos) (inColor color f.val)).length) % CELLS := by
  obtain ⟨out,hcall,hcells,-,-,hpos⟩ :=
    error_says (stream_plain hf : stream strs f color args = _) cpos log cells
  rw [colored_inColor] at hcall
  exact ⟨out,hcall,hcells,hpos⟩

/-- The line that `panic` writes: it is ended unless it ends at the edge of the screen or has a
newline already. -/
def panicLine (text : List UInt8) : List UInt8 :=
  panic_label.val++text++(if column 0 (panic_label.val++text) = 0 then [] else [newline])

/-- The line in its colors. -/
def panicStream (S : List (UInt8 × ℤ)) : List (UInt8 × ℤ) :=
  inColor 0xC000 panic_label.val++S++
    (if column 0 (panic_label.val++S.map Prod.fst) = 0 then [] else inColor 0xC000 [newline])

theorem panicStream_text (S : List (UInt8 × ℤ)) :
    Colored (panicLine (S.map Prod.fst)) (panicStream S) := by
  have hlabel := (colored_inColor 0xC000 panic_label.val).append (rfl : Colored _ S)
  rw [panicLine, panicStream]
  split_ifs with hend
  · rw [List.append_nil, List.append_nil]
    exact hlabel
  · exact hlabel.append (colored_inColor _ _)

theorem ccol_clamped {pos : ℤ} (h0 : 0 ≤ pos) (h : pos ≤ CELLS) : CCOL pos = (clamped pos % 80 : ℕ) := by
  have hsize : CELLS = 2000 := rfl
  rw [CCOL, Int.tmod_eq_emod_of_nonneg h0, clamped, hsize]
  rw [hsize] at h
  split_ifs
  · omega
  · omega

/-- What `panic` logs, and what it draws from row 23 on. -/
theorem panic_draws (h : stream strs f 0xC000 args = .ok S) (log : Log) (cells : Cells) :
    ∃ out, panic strs (some f) args log cells = .ok (log++panicLine (S.map Prod.fst),out) ∧
      out.cells = ringFill CELLS 1840 (typeset 1840 (panicStream S)) cells := by
  have hstart : clamped (CPOS 23 0) = 1840 := by decide
  have hring : ∀ {pos : ℤ} {n : ℕ}, clamped pos = n % CELLS → clamped pos % CELLS = n % CELLS ∧
      clamped pos % 80 = n % 80 := by
    intro pos n hpos
    have hsize : CELLS = 2000 := rfl
    rw [hpos, hsize]
    omega
  obtain ⟨out₁,hfirst,hcells₁,hpos₁⟩ := error_plain strs []
    (by decide +kernel : ascii '%' ∉ panic_label.val) (CPOS 23 0) 0xC000 log cells
  rw [hstart] at hcells₁ hpos₁
  obtain ⟨out₂,hsecond,hcells₂,hlow,hhigh,hpos₂⟩ :=
    error_says h out₁.pos (log++panic_label.val) out₁.cells
  obtain ⟨hmod₁,hcol₁⟩ := hring hpos₁
  rw [hcells₁, typeset_mod hcol₁, ringFill_mod hmod₁, ← ringFill_append, ← typeset_append] at hcells₂
  rw [typeset_mod hcol₁, Nat.add_mod, hmod₁, ← Nat.add_mod, Nat.add_assoc, ← List.length_append,
    ← typeset_append] at hpos₂
  obtain ⟨hmod₂,hcol₂⟩ := hring hpos₂
  have htext : Colored (panic_label.val++S.map Prod.fst) (inColor 0xC000 panic_label.val++S) :=
    (colored_inColor _ _).append rfl
  have hcol : CCOL out₂.pos = (column 0 (panic_label.val++S.map Prod.fst) : ℕ) := by
    rw [ccol_clamped hlow hhigh, hcol₂, typeset_column, htext]
  have hboth : panic strs (some f) args log cells =
      if CCOL out₂.pos ≠ 0 then error_printf strs out₂.pos 0xC000 newline_format []
        (log++panic_label.val++S.map Prod.fst) out₂.cells
      else .ok (log++panic_label.val++S.map Prod.fst,out₂) := by
    simp only [panic, error_printf, hfirst, ok_bind, hsecond]
  by_cases hend : column 0 (panic_label.val++S.map Prod.fst) = 0
  · have hdone : ¬CCOL out₂.pos ≠ 0 := by
      rw [hcol, hend]
      decide
    rw [if_neg hdone] at hboth
    refine ⟨out₂,?_,?_⟩
    · rw [hboth, panicLine, if_pos hend, List.append_nil, List.append_assoc]
    · rw [hcells₂, panicStream, if_pos hend, List.append_nil]
  · have hopen : CCOL out₂.pos ≠ 0 := by
      rw [hcol]
      exact fun hzero => hend (Int.natCast_eq_zero.1 hzero)
    obtain ⟨out₃,hthird,hcells₃,-⟩ := error_plain strs []
      (by decide : ascii '%' ∉ newline_format.val) out₂.pos 0xC000
      (log++panic_label.val++S.map Prod.fst) out₂.cells
    rw [hcells₂, typeset_mod hcol₂, ringFill_mod hmod₂, ← ringFill_append, ← typeset_append] at hcells₃
    rw [if_pos hopen] at hboth
    refine ⟨out₃,?_,?_⟩
    · rw [hboth, panicLine, if_neg hend]
      refine hthird.trans ?_
      simp only [List.append_assoc]
      rfl
    · rw [hcells₃, panicStream, if_neg hend]
      rfl

/-- The kernel says the same on the screen and in the log, in characters if the colors have no bits
in the low byte. -/
theorem panic_reported (h : stream strs f 0xC000 args = .ok S) (log : Log) (cells : Cells) :
    ∃ out, panic strs (some f) args log cells = .ok (log++panicLine (S.map Prod.fst),out) ∧
      (∀ k (hk : k < (typeset 1840 (panicStream S)).length),
        (typeset 1840 (panicStream S)).length ≤ k+CELLS →
          out.cells ((1840+k) % CELLS) = (typeset 1840 (panicStream S))[k]) ∧
      (∀ i, (∀ k < (typeset 1840 (panicStream S)).length, i ≠ (1840+k) % CELLS) →
        out.cells i = cells i) ∧
      ((∀ x ∈ S, x.2 % 256 = 0) →
        ∀ k (hk : k < (rows 1840 (panicLine (S.map Prod.fst))).length),
          (rows 1840 (panicLine (S.map Prod.fst))).length ≤ k+CELLS →
            glyph (out.cells ((1840+k) % CELLS)) =
              (rows 1840 (panicLine (S.map Prod.fst)))[k]) := by
  obtain ⟨out,hpanic,hcells⟩ := panic_draws h log cells
  refine ⟨out,hpanic,fun k hk hturn => ?_,fun i hi => ?_,fun hcolors k hk hturn => ?_⟩
  · rw [hcells]
    exact ringFill_last hk hturn
  · rw [hcells]
    exact ringFill_other hi
  · have hlabel : ∀ (text : List UInt8), ∀ x ∈ inColor 0xC000 text, x.2 % 256 = 0 := by
      intro text x hx
      obtain ⟨c,-,rfl⟩ := List.mem_map.1 hx
      rfl
    have hall : ∀ x ∈ panicStream S, x.2 % 256 = 0 := by
      intro x hx
      rw [panicStream, List.mem_append, List.mem_append] at hx
      rcases hx with (hx | hx) | hx
      · exact hlabel _ x hx
      · exact hcolors x hx
      · split_ifs at hx
        · cases hx
        · exact hlabel _ x hx
    have hrows := typeset_glyphs hall 1840
    rw [panicStream_text] at hrows
    simp only [← hrows, List.length_map, List.getElem_map] at hk hturn ⊢
    rw [hcells]
    exact congrArg glyph (ringFill_last hk hturn)

/-- `panic("Copy pagetable failed...")` ends its line. -/
theorem copy_panic_reported : ∃ out, panic noStrings (some copy_failed) [] [] (fun _ => 0) =
      .ok (panic_label.val++copy_failed.val++[newline],out) ∧
    out.cells 1839 = 0 ∧ out.cells 1840 = cell (ascii 'P') 0xC000 ∧
    glyph (out.cells 1847) = ascii 'C' := by
  obtain ⟨out,hpanic,hcells,hother,hglyphs⟩ := panic_reported
    (stream_plain (by decide +kernel) : stream noStrings copy_failed 0xC000 [] = _) [] fun _ => 0
  have hcolors : ∀ x ∈ inColor 0xC000 copy_failed.val, x.2 % 256 = 0 := by decide +kernel
  refine ⟨out,hpanic.trans ?_,hother 1839 (by decide +kernel),
    hcells 0 (by decide +kernel) (by decide +kernel),
    (hglyphs hcolors 7 (by decide +kernel) (by decide +kernel)).trans (by decide +kernel)⟩
  rw [colored_inColor, panicLine, if_neg (by decide +kernel)]
  rfl

end Messages

section Ends

variable {K : KernelImage} {allow : KState → x86_64_registers → Prop} {TICK_LIMIT : UInt32}
  {label : Labels} {s s' : KState} {reg : x86_64_registers} {start : Outcome} {l : List Entry}

/-- A vector that no case of `exception` handles. -/
structure Unexpected (reg : x86_64_registers) : Prop where
  vector : reg.reg_intno.toNat < 256
  unhandled : reg.reg_intno ∉ [INT_SYS_PANIC,INT_SYS_GETPID,INT_SYS_YIELD,INT_SYS_PAGE_ALLOC,
    INT_SYS_FORK,INT_TIMER,INT_PAGEFAULT]

theorem unexpected_panics (S : Sound K label s) (h : Unexpected reg) :
    exception K reg s = .error (.panic "Unexpected exception %d!\n") := by
  obtain ⟨t,henter⟩ := exception_enter_ok S.inv reg fun _ => S.mapped
  have hnot := h.unhandled
  simp only [List.mem_cons, List.not_mem_nil, or_false, not_or] at hnot
  obtain ⟨h₁,h₂,h₃,h₄,h₅,h₆,h₇⟩ := hnot
  rw [exception, henter]
  change exception_handle K reg t = _
  rw [exception_handle, if_neg h₁, if_neg h₂, if_neg h₃, if_neg h₄, if_neg h₅, if_neg h₆, if_neg h₇]

/-- The message for the vector `n`. -/
def unexpectedText (n : ℕ) : List UInt8 := unexpected++decimalText n++['!','\n'].map ascii

theorem unexpected_says (strs : UInt64 → Text) (h : Unexpected reg) :
    stream strs unexpected_format 0xC000 [reg.reg_intno] =
      .ok (inColor 0xC000 (unexpectedText reg.reg_intno.toNat)) := by
  have hsmall := h.vector
  have hnum : int32 reg.reg_intno.toNat = reg.reg_intno.toNat := by
    rw [int32]
    exact Int.bmod_eq_of_le (by omega) (by omega)
  apply renders_stream
  rw [unexpectedText, List.append_assoc]
  refine renders_plain (l := unexpected) (r := ['%','d','!','\n'].map ascii) ⟨Nat.zero_le _,rfl⟩
    (by decide +kernel) (by decide +kernel) ?_
  refine renders_signed (r := ['!','\n'].map ascii) ⟨by decide,rfl⟩ hnum ?_
  exact renders_char ⟨by decide,rfl⟩ (by decide) (by decide)
    (renders_char ⟨by decide,rfl⟩ (by decide) (by decide) (renders_nil ⟨by decide,rfl⟩ _))

/-- The line ends in its own newline. -/
theorem unexpected_line (n : ℕ) :
    panicLine (unexpectedText n) = panic_label.val++unexpectedText n := by
  have hend : panic_label.val++unexpectedText n =
      panic_label.val++unexpected++decimalText n++[ascii '!']++[newline] := by
    rw [unexpectedText]
    simp only [List.append_assoc]
    rfl
  rw [panicLine, hend, column_newline, if_pos rfl, List.append_nil]

/-- `'PANIC: Unexpected exception '` -/
def PANIC_HEAD : Str := str (panic_label.val++unexpected)

theorem unexpected_str (n : ℕ) : str (panic_label.val++unexpectedText n) =
    PANIC_HEAD++(str (decimalText n)++['!','\n']) := by
  have htail : str (['!','\n'].map ascii) = ['!','\n'] := by decide +kernel
  rw [unexpectedText, PANIC_HEAD]
  simp only [str, List.map_append, List.append_assoc] at htail ⊢
  rw [htail]

/-- The line that parse_log.py looks for is that of the vector 52. -/
theorem panic_label_iff (n : ℕ) :
    PANIC_PREFIX <+: PANIC_HEAD++(str (decimalText n)++['!','\n']) ↔ n = 52 := by
  have hsplit : PANIC_PREFIX = PANIC_HEAD++['5','2','!'] := by decide +kernel
  rw [hsplit, List.prefix_append_right_inj]
  constructor
  · rintro ⟨t,ht⟩
    have hdigits : ∀ c ∈ str (decimalText n), c.isDigit = true := by
      intro c hc
      obtain ⟨d,hd,rfl⟩ := decimal_char hc
      exact (digit_char d hd).2.1
    have hnumber := congrArg (List.takeWhile Char.isDigit) ht
    rw [List.takeWhile_append_of_pos hdigits] at hnumber
    have hshort : ['5','2'] = str (decimalText n) := by simpa using hnumber
    rw [← decimal_value n, ← hshort]
    decide
  · rintro rfl
    exact ⟨['\n'],by decide +kernel⟩

theorem unexpected_reads (E : Encoding) (n : ℕ) :
    Reads E (panic_label.val++unexpectedText n) (PANIC_HEAD++(str (decimalText n)++['!','\n'])) := by
  have hhead : (∀ c ∈ panic_label.val++unexpected, c < 128) ∧ '\n' ∉ PANIC_HEAD ∧
      '\r' ∉ PANIC_HEAD := by decide +kernel
  have hdigits : ∀ c ∈ str (decimalText n), c ≠ '\n' ∧ c ≠ '\r' := by
    intro c hc
    obtain ⟨b,hb,rfl⟩ := List.mem_map.1 hc
    obtain ⟨hlt,-,h₁,h₂⟩ := word_decimal n b hb
    exact ⟨asChar_ne hlt h₁,asChar_ne hlt h₂⟩
  rw [← unexpected_str]
  refine ⟨⟨panic_label.val++unexpected++decimalText n++[ascii '!'],?_⟩,
    ⟨PANIC_HEAD++(str (decimalText n)++['!']),?_,?_,?_⟩,decode_str fun c hc => ?_⟩
  · rw [unexpectedText]
    simp only [List.append_assoc]
    rfl
  · rw [unexpected_str]
    simp only [List.append_assoc]
    rfl
  · simp only [List.mem_append, not_or]
    exact ⟨hhead.2.1,fun h => (hdigits _ h).1 rfl,by decide⟩
  · simp only [List.mem_append, not_or]
    exact ⟨hhead.2.2,fun h => (hdigits _ h).2 rfl,by decide⟩
  · rw [unexpectedText, List.append_assoc, ← List.append_assoc] at hc
    rcases List.mem_append.1 hc with h | h
    · exact hhead.1 c h
    · rcases List.mem_append.1 h with h | h
      · exact (word_decimal n c h).1
      · have htail : ∀ c ∈ ['!','\n'].map ascii, c < 128 := by decide +kernel
        exact htail c h

end Ends

section Flags

variable {E : Encoding} {T T' : MemMapTimeline} {line : Str}

/-- Only a line that starts with `PANIC_PREFIX` sets the flag. -/
theorem line_flag (h : T.read_line line = .ok T') (hline : ¬PANIC_PREFIX <+: line) :
    T'.panic = T.panic := by
  rw [MemMapTimeline.read_line] at h
  split at h
  · rw [MemMapTimeline.read_pm] at h
    obtain ⟨-,h⟩ := (seq_ok_iff _ _ _).1 h
    obtain ⟨_,_,h⟩ := (bind_ok_iff _ _ _).1 h
    obtain ⟨_,_,h⟩ := (bind_ok_iff _ _ _).1 h
    obtain ⟨_,_,h⟩ := (bind_ok_iff _ _ _).1 h
    obtain ⟨_,_,h⟩ := (bind_ok_iff _ _ _).1 h
    cases h
    rfl
  · split at h
    · rw [MemMapTimeline.read_vm] at h
      obtain ⟨-,h⟩ := (seq_ok_iff _ _ _).1 h
      obtain ⟨_,_,h⟩ := (bind_ok_iff _ _ _).1 h
      obtain ⟨_,_,h⟩ := (bind_ok_iff _ _ _).1 h
      obtain ⟨_,_,h⟩ := (bind_ok_iff _ _ _).1 h
      obtain ⟨_,_,h⟩ := (bind_ok_iff _ _ _).1 h
      obtain ⟨_,_,h⟩ := (bind_ok_iff _ _ _).1 h
      obtain ⟨_,_,h⟩ := (bind_ok_iff _ _ _).1 h
      cases h
      rfl
    · cases h
      rfl

theorem lines_flag {lines : List Str} (h : lines.foldlM MemMapTimeline.read_line T = .ok T')
    (hlines : ∀ line ∈ lines, ¬PANIC_PREFIX <+: line) : T'.panic = T.panic := by
  induction lines generalizing T with
  | nil =>
    cases h
    rfl
  | cons line lines ih =>
    rw [List.foldlM_cons] at h
    obtain ⟨T₁,hfirst,hrest⟩ := (bind_ok_iff _ _ _).1 h
    rw [ih hrest fun line h => hlines line (List.mem_cons_of_mem _ h)]
    exact line_flag hfirst (hlines line List.mem_cons_self)

/-- Another letter in the second place. -/
theorem not_panic {word : Str} (h : word <+: line) (hword : ¬word <+: PANIC_PREFIX)
    (hshort : word.length ≤ PANIC_PREFIX.length) : ¬PANIC_PREFIX <+: line := fun hpanic =>
  hword (List.prefix_of_prefix_length_le h hpanic hshort)

theorem mem_of_forall₂ {α β : Type} {R : α → β → Prop} {xs : List α} {ys : List β}
    (h : List.Forall₂ R xs ys) {y : β} (hy : y ∈ ys) : ∃ x ∈ xs, R x y := by
  induction h with
  | nil => cases hy
  | @cons x y' xs ys hxy _ ih =>
    rcases List.mem_cons.1 hy with rfl | hy
    · exact ⟨x,List.mem_cons_self,hxy⟩
    · obtain ⟨x',hx',hR⟩ := ih hy
      exact ⟨x',List.mem_cons_of_mem _ hx',hR⟩

/-- The lines of a dump are no panics. -/
theorem dump_flag {s : KState} {x : List UInt8} (hx : x ∈ dumpLines s) (R : Reads E x line) :
    ¬PANIC_PREFIX <+: line := by
  have hnames : str pm_dump = PM_PREFIX ∧ str vm_dump = VM_PREFIX := by decide +kernel
  have hself : line = str x := by
    have hreads := dump_reads E s
    rw [List.forall₂_map_right_iff, List.forall₂_same] at hreads
    exact Option.some.inj (R.decoded.symm.trans (hreads x hx).decoded)
  rw [hself]
  rcases List.mem_cons.1 hx with rfl | hx
  · refine not_panic (?_ : PM_PREFIX <+: _) (by decide) (by decide)
    rw [← hnames.1]
    exact lineOf_prefix pm_dump _
  · obtain ⟨i,-,hi⟩ := List.mem_flatMap.1 hx
    rw [processLines] at hi
    split_ifs at hi
    · rw [List.mem_singleton.1 hi]
      refine not_panic (?_ : VM_PREFIX <+: _) (by decide) (by decide)
      rw [← hnames.2]
      exact lineOf_prefix vm_dump _
    · cases hi

theorem memory_flag (R : Reads E out_of_memory line) : ¬PANIC_PREFIX <+: line := by
  have hclean : ∀ c ∈ out_of_memory, c < 128 := by decide +kernel
  have hself : line = str out_of_memory :=
    Option.some.inj (R.decoded.symm.trans (decode_str hclean))
  rw [hself]
  exact not_panic (by decide +kernel : ['O'] <+: _) (by decide) (by decide)

end Flags

section Results

variable {K : KernelImage} {TICK_LIMIT : UInt32} {s s' : KState} {reg : x86_64_registers}
  {start : Outcome} {l : List Entry} {data : List (ℤ × Items)} {buf : ℕ}

/-- A run that ends in an exception without a handler, before its last tick. -/
structure Died (K : KernelImage) (TICK_LIMIT : UInt32) (start : Outcome) (l : List Entry)
    (s : KState) (reg : x86_64_registers) : Prop where
  run : GradedRun K (Supplied K) TICK_LIMIT start l (.user s)
  limit : s.ticks ≠ TICK_LIMIT
  unexpected : Unexpected reg

theorem invariants_iff {tick : ℤ} (hmax : (data.map Prod.fst).max? = some tick)
    (hfit : ∀ x ∈ data, ∀ y ∈ x.2, Fit y.1 y.2) (expected : ℤ) :
    CheckInvariants data false expected = .ok () ↔ expected = tick := by
  constructor
  · intro h
    by_contra hne
    rw [CheckInvariants] at h
    simp only [hmax, Bool.false_eq_true, not_false_eq_true, true_and, ne_eq, hne, if_true] at h
    cases h
  · rintro rfl
    exact invariants_hold hmax hfit

/-- A kernel that dies is no excuse: the log is read with the panic as its last line, the flag
stays down, and the invariants hold only if the last dump is the one that was expected. Before the
first tick there is nothing to check. -/
theorem early_death_noticed (E : Encoding) (hbuf : buf+4 ≤ 2^64) (hK : Loadable K)
    {command : Option String} (hboot : kernel K command s' = .ok start) (hpower : s'.ticks = 0)
    (D : Died K TICK_LIMIT start l s reg) (cells : Cells) :
    exception K reg s = .error (.panic "Unexpected exception %d!\n") ∧
    ∃ log log' out T, write_log buf l = .ok log ∧
      panic noStrings (some unexpected_format) [reg.reg_intno] log cells = .ok (log',out) ∧
      MemMapTimeline.init E log' = .ok T ∧ T.panic = false ∧ (∃ data, Sorted T data) ∧
      ∀ data, Sorted T data → ∀ expected : ℤ, CheckInvariants data T.panic expected = .ok () ↔
        s.ticks = 0 ∨ expected = lastDump s.ticks.toNat := by
  obtain ⟨label,S,-⟩ := run_sound hK (D.run.run (.boot hboot))
  refine ⟨unexpected_panics S D.unexpected,?_⟩
  have Q := graded_kept hK hboot hpower D.run
  -- the last line looks like no dump
  have hreads := unexpected_reads E reg.reg_intno.toNat
  have hhead : ∀ word : Str, word.length ≤ PANIC_HEAD.length → ¬word <+: PANIC_HEAD →
      ¬word <+: PANIC_HEAD++(str (decimalText reg.reg_intno.toNat)++['!','\n']) :=
    fun word hlen hword h => hword (List.prefix_of_prefix_length_le h (List.prefix_append _ _) hlen)
  have htail : ∀ x ∈ [panic_label.val++unexpectedText reg.reg_intno.toNat], OtherLine E x := by
    intro x hx
    rw [List.mem_singleton.1 hx]
    exact ⟨_,hreads,hhead PM_PREFIX (by decide +kernel) (by decide +kernel),
      hhead VM_PREFIX (by decide +kernel) (by decide +kernel)⟩
  obtain ⟨log',T,lines,hwrite,hread,R,hforall,hfold⟩ := ended_read E hbuf Q htail
  have hne : reg.reg_intno.toNat ≠ 52 := by
    intro h
    have hfork : reg.reg_intno = INT_SYS_FORK := UInt64.toNat_inj.1 h
    exact D.unexpected.unhandled (by rw [hfork]; decide)
  have hflag : T.panic = false := by
    refine lines_flag hfold fun line hline => ?_
    obtain ⟨x,hx,hxline⟩ := mem_of_forall₂ hforall hline
    obtain ⟨e,he,hxe⟩ := List.mem_flatMap.1 hx
    rcases List.mem_append.1 he with he | he
    · cases e with
      | line y =>
        rw [Entry.lines, List.mem_singleton] at hxe
        rw [hxe, Q.lines y he] at hxline
        exact memory_flag hxline
      | dump u stack => exact dump_flag hxe hxline
    · rw [List.map_singleton, List.mem_singleton] at he
      subst he
      rw [Entry.lines, List.mem_singleton] at hxe
      rw [hxe] at hxline
      rw [Option.some.inj (hxline.decoded.symm.trans hreads.decoded), panic_label_iff]
      exact hne
  have hsay := unexpected_says noStrings D.unexpected
  rw [write_log, List.foldlM_append] at hwrite
  obtain ⟨log,hlog,hlast⟩ := (bind_ok_iff _ _ _).1 hwrite
  obtain ⟨out,hpanic,-⟩ := panic_draws hsay log cells
  rw [colored_inColor, unexpected_line] at hpanic
  cases hlast
  refine ⟨log,_,out,T,hlog,hpanic,hread,hflag,read_sorted R,fun data hdata expected => ?_⟩
  rw [hflag]
  by_cases hticks : s.ticks = 0
  · have hempty : data = [] := by
      rw [← List.map_eq_nil_iff (f := Prod.fst), List.eq_nil_iff_forall_not_mem]
      intro tick htick
      obtain ⟨n,hn,-⟩ := (read_keys R tick).1 ((hdata.ticks tick).1 htick)
      have hlt := (mem_dumpTicks.1 hn).1
      change n < s.ticks.toNat at hlt
      rw [hticks] at hlt
      exact absurd hlt (Nat.not_lt_zero n)
    rw [hempty]
    exact ⟨fun _ => Or.inl hticks,fun _ => rfl⟩
  · rw [invariants_iff (read_last R hdata hticks).1 (read_fit R hdata)]
    exact ⟨Or.inr,fun h => h.resolve_left hticks⟩

/-- A process that calls `sys_exit` after the first dump: the checks pass if they expect the tick 0
and fail if they expect the tick 900. -/
theorem exit_noticed : ∃ s log T data,
    exception sampleKernel (syscall 53 0) s = .error (.panic "Unexpected exception %d!\n") ∧
    s.ticks = 1 ∧ MemMapTimeline.init latin1 log = .ok T ∧ T.panic = false ∧ Sorted T data ∧
    CheckInvariants data T.panic 0 = .ok () ∧ CheckInvariants data T.panic 900 ≠ .ok () := by
  obtain ⟨label,s,hboot,-⟩ := sample_solo powerOn
  obtain ⟨l,t,G,hafter⟩ := first_tick sample_loadable (.boot hboot) (kernel_ticks hboot)
  have hone : t.ticks = 1 := hafter
  have D : Died sampleKernel 1000 (.user s) l t (syscall 53 0) :=
    ⟨G.mono fun _ _ h => h.1,by rw [hone]; decide,by decide,by decide⟩
  obtain ⟨hpanic,-,log,-,T,-,-,hread,hflag,⟨data,S⟩,hchecks⟩ := early_death_noticed latin1
    (show 0+4 ≤ 2^64 by norm_num) sample_loadable hboot rfl D fun _ => 0
  have hiff := hchecks data S
  rw [hone] at hiff
  exact ⟨t,log,T,data,hpanic,hone,hread,hflag,S,(hiff 0).2 (Or.inr rfl),fun h =>
    absurd ((hiff 900).1 h) (by decide)⟩

end Results

end WeensyOS.KernelPanics
