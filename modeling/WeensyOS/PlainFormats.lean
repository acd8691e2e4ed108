import WeensyOS.Conversions
import WeensyOS.StringPrinter

/-!
# Formats with bare directives

A format of plain characters and of `%u`, `%d` and `%s` without flags, width,
precision or length is printed piece by piece.
-/

set_option autoImplicit false

namespace WeensyOS.PlainFormats
open WeensyOS.TextCursors WeensyOS.Printer WeensyOS.Directives WeensyOS.PrinterRuns
open WeensyOS.Conversions WeensyOS.StringPrinter

/-- The decimal numeral of `v`. -/
def decimalText (v : ℕ) : List UInt8 := numeral (digitsOf 10) 10 v

variable {strs : UInt64 → Text} {f r text : List UInt8} {i : ℕ} {c : UInt8} {args : List UInt64}

section Scans

/-- The scanning loops stop at once at a letter that is no modifier. -/
theorem directive_bare (A : At f i (ascii '%' :: c :: r)) (hc : Ends c) (hmod : c ∉ modifiers)
    (args : List UInt64) (color : ℤ) : directive strs f i color args =
      conversion strs c false (i+1) {} (-1) (-1) color args := by
  have hread : read f (i+1) = .ok c := A.next.peek_cons
  have hfirst : ¬(ascii '1' ≤ c ∧ c ≤ ascii '9') := fun h =>
    hc.digit ⟨UInt8.le_trans (by decide) h.1,h.2⟩
  have hletter : ¬(c = ascii 'l' ∨ c = ascii 'z') := fun h => hmod (by simpa [modifiers] using h)
  have hflags : scan_flags f (i+1) {} = .ok ({},i+1) := by
    rw [scan_flags_step hread, set_flag_none hc.flag]
    split_ifs
    · rfl
    · rfl
  have hwidth : scan_width f (i+1) args = .ok (-1,i+1,args) := by
    rw [scan_width_step hread, if_neg hfirst, if_neg hc.star]
  have hprec : scan_precision f (i+1) args = .ok (-1,i+1,args) := by
    rw [scan_precision_step hread, if_neg hc.dot]
  have hlength : scan_length f (i+1) false = .ok (c,false,i+1) := by
    rw [scan_length_step hread, if_neg hletter]
  rw [directive, hflags]
  change scan_width f (i+1) args >>= _ = _
  rw [hwidth]
  change scan_precision f (i+1) args >>= _ = _
  rw [hprec]
  change scan_length f (i+1) false >>= _ = _
  rw [hlength]
  rfl

/-- Without width and precision nothing is added. -/
theorem layout_bare {flags : Flags} {data : List UInt8} (hzero : flags.zero = false)
    (hlen : data.length < 2^30) : layout flags (-1) (-1) [] data = data := by
  have htext : text_len flags (-1) data = data.length := by
    rw [text_len, if_neg (fun h => by omega), strlen, int32_small (by omega) (by omega)]
  have hzeros : zero_count flags (-1) (-1) data.length (strlen []) = 0 := by
    rw [zero_count, if_neg (fun h => by omega), if_neg (fun h => by rw [hzero] at h; cases h.2.1)]
  have hwidth : int32 (-1-(data.length+0+strlen [])) = -1-data.length := by
    have hnil : strlen [] = 0 := rfl
    rw [hnil, int32_small (by omega) (by omega)]
    omega
  have hnone : ∀ n : ℤ, n ≤ 0 → repeated n (ascii ' ') = [] := fun n hn => by
    rw [repeated, Int.toNat_of_nonpos hn]
    rfl
  rw [layout]
  simp only [htext, hzeros, hwidth, hnone (-1-data.length) (by omega), ite_self, List.length_nil,
    Nat.cast_zero, sub_zero, Int.toNat_natCast, List.take_length]
  rw [repeated, Int.toNat_zero, List.replicate_zero, List.append_nil, List.nil_append,
    List.nil_append, List.nil_append]

end Scans

section Rendering

/-- From the cursor `i` any printer receives `text` in the color that it has there. -/
def Renders (strs : UInt64 → Text) (f : List UInt8) (i : ℕ) (args : List UInt64)
    (text : List UInt8) : Prop :=
  ∀ (color : ℤ) (σ : Type) (putc : Putc σ) (p : σ),
    vprintf_loop putc strs f i color args p = play putc (inColor color text) p

theorem renders_nil (A : At f i []) (args : List UInt64) : Renders strs f i args [] :=
  fun color _ _ p => vprintf_loop_nil A color args p

theorem renders_char (A : At f i (c :: r)) (hzero : c ≠ 0) (hc : c ≠ ascii '%')
    (R : Renders strs f (i+1) args text) : Renders strs f i args (c :: text) := by
  intro color σ putc p
  rw [vprintf_loop_char A hzero hc, inColor, List.map_cons, play_cons]
  congr 1
  funext p'
  exact R color σ putc p'

/-- Plain characters before the end or a directive. -/
theorem renders_plain {l : List UInt8} (A : At f i (l++r)) (hzero : 0 ∉ l)
    (hplain : ascii '%' ∉ l) (R : Renders strs f (i+l.length) args text) :
    Renders strs f i args (l++text) := by
  induction l generalizing i with
  | nil => exact R
  | cons c l ih =>
    rw [List.mem_cons, not_or] at hzero hplain
    have hnext : i+1+l.length = i+(c :: l).length := by
      rw [List.length_cons]
      omega
    exact renders_char A (Ne.symm hzero.1) (Ne.symm hplain.1)
      (ih A.next hzero.2 hplain.2 (by rw [hnext]; exact R))

/-- A bare directive whose conversion leaves `data` for the output. -/
theorem renders_directive {x : Item} {data : List UInt8} {args' : List UInt64}
    (A : At f i (ascii '%' :: c :: r)) (hc : Ends c) (hmod : c ∉ modifiers)
    (hletter : c ≠ ascii 'C' ∧ c ≠ 0) (hconv : convert strs c false {} args = .ok (x,args'))
    (hdata : x.text = .ok data) (hpre : prefix_of x.flags x.base x.num = [])
    (hzero : x.flags.zero = false) (hlen : data.length < 2^30)
    (R : Renders strs f (i+2) args' text) : Renders strs f i args (data++text) := by
  have hd : ∀ color, directive strs f i color args = .ok ⟨i+1,color,args',data⟩ := fun color => by
    rw [directive_bare A hc hmod, conversion, if_neg hletter.1, hconv]
    change x.text >>= _ = _
    rw [hdata]
    change Except.ok (Directive.mk _ _ _ _) = _
    rw [hpre, layout_bare hzero hlen, step_back, if_neg hletter.2]
  intro color σ putc p
  rw [vprintf_loop_directive A, hd, inColor, List.map_append, play_append]
  change emit putc color data p >>= _ = _
  rw [emit_play]
  congr 1
  funext p'
  exact R color σ putc p'

theorem decimalText_length {v : ℕ} (h : v < 2^64) : (decimalText v).length < 2^30 := by
  have hlen : (decimalText v).length ≤ 20 :=
    numeral_length _ (by decide) (by decide) (h.trans (by decide))
  omega

/-- `%u` -/
theorem renders_unsigned (A : At f i (ascii '%' :: ascii 'u' :: r)) {w : UInt64} {v : ℕ}
    (hv : w.toNat % 2^32 = v) (R : Renders strs f (i+2) args text) :
    Renders strs f i (w :: args) (decimalText v++text) := by
  have hv' : v < 2^64 := by omega
  have hnum : (UInt64.ofNat (w.toNat % 2^32)).toNat = v := by
    rw [UInt64.toNat_ofNat', hv]
    omega
  have hconv : convert strs (ascii 'u') false {} (w :: args) =
      convert_unsigned false 10 {} (w :: args) := rfl
  refine renders_directive A ⟨by decide,by decide,by decide,by decide⟩ (by decide) (by decide)
    hconv ?_ rfl rfl (decimalText_length hv') R
  rw [Item.text, if_pos rfl, fill_numbuf_ok (Or.inl rfl)]
  change Except.ok (numeral (digitsOf 10) 10 (UInt64.ofNat (w.toNat % 2^32)).toNat) = _
  rw [hnum, decimalText]

/-- `%d` for a number that is not negative. -/
theorem renders_signed (A : At f i (ascii '%' :: ascii 'd' :: r)) {w : UInt64} {v : ℕ}
    (hv : int32 w.toNat = v) (R : Renders strs f (i+2) args text) :
    Renders strs f i (w :: args) (decimalText v++text) := by
  have hsmall : v < 2^64 := by
    have hrange := int32_range w.toNat
    omega
  have hnum : (UInt64.ofInt (v : ℤ)).toNat = v := by
    rw [UInt64.ofInt, UInt64.toNat_ofNat']
    omega
  have hconv : ∀ x : ℤ, (if false then int64 w.toNat else int32 w.toNat) = x →
      convert strs (ascii 'd') false {} (w :: args) =
      .ok ({ flags := { numeric := true, signed := true, negative := decide (x < 0) }
             num := UInt64.ofInt (if decide (x < 0) then -x else x) },args) := by
    rintro x rfl
    rw [convert, if_pos (Or.inl rfl)]
    rfl
  have hneg : decide ((v : ℤ) < 0) = false := decide_eq_false (by omega)
  have hitem := hconv v ((if_neg Bool.false_ne_true).trans hv)
  rw [hneg, if_neg Bool.false_ne_true] at hitem
  refine renders_directive A ⟨by decide,by decide,by decide,by decide⟩ (by decide) (by decide)
    hitem ?_ rfl rfl (decimalText_length hsmall) R
  rw [Item.text, if_pos rfl, fill_numbuf_ok (Or.inl rfl), hnum]
  rfl

/-- `%s` -/
theorem renders_string (A : At f i (ascii '%' :: ascii 's' :: r)) (w : UInt64)
    (hlen : (strs w).val.length < 2^30) (R : Renders strs f (i+2) args text) :
    Renders strs f i (w :: args) ((strs w).val++text) :=
  renders_directive A ⟨by decide,by decide,by decide,by decide⟩ (by decide) (by decide)
    (x := { flags := {}, data := strs w }) rfl rfl rfl rfl hlen R

end Rendering
end WeensyOS.PlainFormats
