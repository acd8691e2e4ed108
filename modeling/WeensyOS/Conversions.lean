import WeensyOS.PrinterRuns

/-!
# Integer conversions

The text of a directive is taken apart into flags, width, precision, length
modifiers and conversion character. What the directive prints is the numeral of
its argument with a prefix, padded with zeros and spaces.
-/

set_option autoImplicit false

namespace WeensyOS.Conversions
open WeensyOS.TextCursors WeensyOS.Printer WeensyOS.Directives WeensyOS.PrinterRuns

variable {f rest : List UInt8} {i : ℕ} {c : UInt8} {args : List UInt64}

section Texts

/-- The number that a row of decimal digits denotes, behind the digits of `n`. -/
def decimalFrom (n : ℕ) (l : List UInt8) : ℕ := l.foldl (fun n c => 10*n+(c.toNat-48)) n

abbrev decimal (l : List UInt8) : ℕ := decimalFrom 0 l

/-- The largest width and precision for which no `int` overflows. -/
abbrev LIMIT : ℕ := 2^30

/-- The text of a width, the arguments it takes and its value. -/
inductive WidthText : List UInt8 → List UInt64 → ℕ → Prop where
  | absent : WidthText [] [] 0
  | digits {c : UInt8} {l : List UInt8} (first : ascii '1' ≤ c ∧ c ≤ ascii '9')
    (others : ∀ d ∈ l, isdigit d) (bound : decimal (c :: l) ≤ LIMIT) :
    WidthText (c :: l) [] (decimal (c :: l))
  | star {w : UInt64} {n : ℕ} (value : int32 w.toNat = n) (bound : n ≤ LIMIT) :
    WidthText [ascii '*'] [w] n

/-- The text of a precision, the arguments it takes and its value. -/
inductive PrecisionText : List UInt8 → List UInt64 → ℕ → Prop where
  | absent : PrecisionText [] [] 0
  | digits {l : List UInt8} (all : ∀ d ∈ l, isdigit d) (bound : decimal l ≤ LIMIT) :
    PrecisionText (ascii '.' :: l) [] (decimal l)
  | star {w : UInt64} {n : ℕ} (value : int32 w.toNat = n) (bound : n ≤ LIMIT) :
    PrecisionText [ascii '.',ascii '*'] [w] n

/-- The characters in `flag_chars`. -/
def flag_chars : List UInt8 := ['#','0','-',' ','+'].map ascii

/-- The length modifiers. -/
def modifiers : List UInt8 := ['l','z'].map ascii

/-- The integer conversions. -/
def integers : List UInt8 := ['d','i','u','x','X','p'].map ascii

end Texts

section Scans

theorem int32_small {x : ℤ} (hlow : -2^31 ≤ x) (hhigh : x < 2^31) : int32 x = x := by
  rw [int32, Int.bmod_eq_of_le_mul_two] <;> norm_num <;> omega

theorem isdigit_iff : isdigit c ↔ 48 ≤ c.toNat ∧ c.toNat ≤ 57 := by
  rw [isdigit, UInt8.le_iff_toNat_le, UInt8.le_iff_toNat_le]
  rfl

theorem decimal_ge (n : ℕ) (l : List UInt8) : n ≤ decimalFrom n l := by
  induction l generalizing n with
  | nil => exact le_rfl
  | cons c l ih =>
    have hrest := ih (10*n+(c.toNat-48))
    rw [decimalFrom, List.foldl_cons]
    rw [decimalFrom] at hrest
    omega

/-- The digit loop reads the whole number when it does not overflow. -/
theorem scan_digits_decimal {l : List UInt8} (A : At f i (l++c :: rest))
    (hl : ∀ d ∈ l, isdigit d) (hc : ¬isdigit c) (n : ℕ) (hbound : decimalFrom n l ≤ LIMIT) :
    scan_digits f i n = .ok ((decimalFrom n l : ℕ),i+l.length) := by
  induction l generalizing i n with
  | nil =>
    rw [scan_digits_step A.peek_cons, if_neg hc]
    rfl
  | cons d l ih =>
    have hd := hl d List.mem_cons_self
    have hdigit := isdigit_iff.1 hd
    have hle := decimal_ge (10*n+(d.toNat-48)) l
    have hlimit : LIMIT = 2^30 := rfl
    rw [decimalFrom, List.foldl_cons] at hbound
    rw [decimalFrom] at hle
    have hnext : int32 (10*n+d.toNat-(ascii '0').toNat) = ((10*n+(d.toNat-48) : ℕ) : ℤ) := by
      have hzero : ((ascii '0').toNat : ℤ) = 48 := rfl
      rw [hzero, int32_small (by omega) (by omega)]
      omega
    rw [scan_digits_step A.peek_cons, if_pos hd, hnext,
      ih A.next (fun e he => hl e (List.mem_cons_of_mem _ he)) _ hbound, List.length_cons]
    congr 2
    omega

/-- The flags of `flags` and of a row of flag characters. -/
def withFlags (flags : Flags) (l : List UInt8) : Flags :=
  { flags with
    alt := flags.alt || decide (ascii '#' ∈ l)
    zero := flags.zero || decide (ascii '0' ∈ l)
    leftjustify := flags.leftjustify || decide (ascii '-' ∈ l)
    spacepositive := flags.spacepositive || decide (ascii ' ' ∈ l)
    pluspositive := flags.pluspositive || decide (ascii '+' ∈ l) }

theorem set_flag_some (hc : c ∈ flag_chars) (flags : Flags) (l : List UInt8) : ∃ flags',
    set_flag c flags = some flags' ∧ withFlags flags' l = withFlags flags (c :: l) := by
  have hcases : c = ascii '#' ∨ c = ascii '0' ∨ c = ascii '-' ∨ c = ascii ' ' ∨ c = ascii '+' := by
    simpa [flag_chars] using hc
  have h : ∀ a b : Char, ascii a ≠ ascii b → (ascii a ∈ (ascii b :: l) ↔ ascii a ∈ l) :=
    fun a b hab => List.mem_cons.trans (or_iff_right hab)
  rcases hcases with rfl | rfl | rfl | rfl | rfl
  · refine ⟨_,rfl,?_⟩
    simp [withFlags, h '0' '#' (by decide), h '-' '#' (by decide), h ' ' '#' (by decide),
      h '+' '#' (by decide)]
  · refine ⟨_,rfl,?_⟩
    simp [withFlags, h '#' '0' (by decide), h '-' '0' (by decide), h ' ' '0' (by decide),
      h '+' '0' (by decide)]
  · refine ⟨_,rfl,?_⟩
    simp [withFlags, h '#' '-' (by decide), h '0' '-' (by decide), h ' ' '-' (by decide),
      h '+' '-' (by decide)]
  · refine ⟨_,rfl,?_⟩
    simp [withFlags, h '#' ' ' (by decide), h '0' ' ' (by decide), h '-' ' ' (by decide),
      h '+' ' ' (by decide)]
  · refine ⟨_,rfl,?_⟩
    simp [withFlags, h '#' '+' (by decide), h '0' '+' (by decide), h '-' '+' (by decide),
      h ' ' '+' (by decide)]

theorem set_flag_none (hc : c ∉ flag_chars) (flags : Flags) : set_flag c flags = none := by
  simp only [flag_chars, List.map_cons, List.map_nil, List.mem_cons, List.not_mem_nil, or_false,
    not_or] at hc
  obtain ⟨h₁,h₂,h₃,h₄,h₅⟩ := hc
  rw [set_flag, if_neg h₁, if_neg h₂, if_neg h₃, if_neg h₄, if_neg h₅]

theorem scan_flags_chars {l : List UInt8} (A : At f i (l++c :: rest))
    (hl : ∀ d ∈ l, d ∈ flag_chars) (hc : c ∉ flag_chars) (flags : Flags) :
    scan_flags f i flags = .ok (withFlags flags l,i+l.length) := by
  induction l generalizing i flags with
  | nil =>
    have hsame : withFlags flags [] = flags := by simp [withFlags]
    rw [scan_flags_step A.peek_cons, set_flag_none hc, hsame]
    split_ifs
    · rfl
    · rfl
  | cons d l ih =>
    have hd := hl d List.mem_cons_self
    have hne : d ≠ 0 := by
      rintro rfl
      exact absurd hd (by decide)
    obtain ⟨flags',hset,hflags⟩ := set_flag_some hd flags l
    rw [scan_flags_step A.peek_cons, if_pos hne, hset]
    change scan_flags f (i+1) flags' = _
    rw [ih A.next (fun e he => hl e (List.mem_cons_of_mem _ he)), hflags, List.length_cons]
    congr 2
    omega

/-- A missing number is -1 to the code. -/
def Scanned (v : ℤ) (n : ℕ) : Prop := v = n ∨ (v = -1 ∧ n = 0)

theorem scan_width_text {l : List UInt8} {used : List UInt64} {n : ℕ} (W : WidthText l used n)
    (A : At f i (l++c :: rest)) (hc : ¬isdigit c) (hstar : c ≠ ascii '*') (args : List UInt64) :
    ∃ width, Scanned width n ∧ scan_width f i (used++args) = .ok (width,i+l.length,args) := by
  have hless : ascii '0' ≤ ascii '1' := by decide
  cases W with
  | absent =>
    have hfirst : ¬(ascii '1' ≤ c ∧ c ≤ ascii '9') := fun h => hc ⟨UInt8.le_trans hless h.1,h.2⟩
    refine ⟨-1,Or.inr ⟨rfl,rfl⟩,?_⟩
    rw [scan_width_step A.peek_cons, if_neg hfirst, if_neg hstar]
    rfl
  | @digits d l first others bound =>
    have hall : ∀ e ∈ d :: l, isdigit e := by
      intro e he
      rcases List.mem_cons.1 he with rfl | he
      · exact ⟨UInt8.le_trans hless first.1,first.2⟩
      · exact others e he
    have hdigits := scan_digits_decimal A hall hc 0 bound
    refine ⟨_,Or.inl rfl,?_⟩
    rw [scan_width_step A.peek_cons, if_pos first]
    change scan_digits f i ((0 : ℕ) : ℤ) >>= _ = _
    rw [hdigits]
    rfl
  | @star w n value bound =>
    have hva : va_int ([w]++args) = .ok (n,args) := by
      rw [← value]
      rfl
    refine ⟨n,Or.inl rfl,?_⟩
    rw [scan_width_step A.peek_cons, if_neg (by decide), if_pos rfl, hva]
    rfl

theorem scan_count_digits {l : List UInt8} (A : At f i (l++c :: rest)) (hl : ∀ d ∈ l, isdigit d)
    (hc : ¬isdigit c) (hstar : c ≠ ascii '*') (hbound : decimal l ≤ LIMIT) (args : List UInt64) :
    ∃ v, Scanned v (decimal l) ∧ scan_count f i args = .ok (v,i+l.length,args) := by
  cases l with
  | nil =>
    refine ⟨-1,Or.inr ⟨rfl,rfl⟩,?_⟩
    rw [scan_count_step A.peek_cons, if_neg hc, if_neg hstar]
    rfl
  | cons d l =>
    have hdigits := scan_digits_decimal A hl hc 0 hbound
    refine ⟨_,Or.inl rfl,?_⟩
    rw [scan_count_step A.peek_cons, if_pos (hl d List.mem_cons_self)]
    change scan_digits f i ((0 : ℕ) : ℤ) >>= _ = _
    rw [hdigits]
    rfl

theorem scan_precision_text {l : List UInt8} {used : List UInt64} {n : ℕ}
    (P : PrecisionText l used n) (A : At f i (l++c :: rest)) (hc : ¬isdigit c)
    (hstar : c ≠ ascii '*') (hdot : c ≠ ascii '.') (args : List UInt64) : ∃ precision,
      Scanned precision n ∧ scan_precision f i (used++args) = .ok (precision,i+l.length,args) := by
  cases P with
  | absent =>
    refine ⟨-1,Or.inr ⟨rfl,rfl⟩,?_⟩
    rw [scan_precision_step A.peek_cons, if_neg hdot]
    rfl
  | @digits l all bound =>
    obtain ⟨v,hv,hcount⟩ := scan_count_digits A.next all hc hstar bound args
    have hmax : (if v < 0 then 0 else v) = decimal l := by
      rcases hv with rfl | ⟨rfl,hzero⟩
      · rw [if_neg (by omega)]
      · rw [if_pos (by decide), hzero]
        rfl
    have hlen : i+1+l.length = i+(ascii '.' :: l).length := by
      rw [List.length_cons]
      omega
    refine ⟨decimal l,Or.inl rfl,?_⟩
    rw [scan_precision_step A.peek_cons, if_pos rfl, List.nil_append, hcount, ← hmax, ← hlen]
    rfl
  | @star w n value bound =>
    have hva : va_int ([w]++args) = .ok (n,args) := by
      rw [← value]
      rfl
    have hcount : scan_count f (i+1) ([w]++args) = .ok (n,i+1+1,args) := by
      rw [scan_count_step A.next.peek_cons, if_neg (by decide), if_pos rfl, hva]
      rfl
    have hmax : (if (n : ℤ) < 0 then 0 else (n : ℤ)) = n := if_neg (by omega)
    refine ⟨n,Or.inl rfl,?_⟩
    rw [scan_precision_step A.peek_cons, if_pos rfl, hcount]
    change Except.ok (if (n : ℤ) < 0 then 0 else (n : ℤ),_) = _
    rw [hmax]
    rfl

theorem scan_length_text {l : List UInt8} (A : At f i (l++c :: rest))
    (hl : ∀ d ∈ l, d ∈ modifiers) (hc : c ∉ modifiers) (length : Bool) :
    scan_length f i length = .ok (c,length || decide (l ≠ []),i+l.length) := by
  have hiff : ∀ d, d ∈ modifiers ↔ d = ascii 'l' ∨ d = ascii 'z' := fun d => by simp [modifiers]
  induction l generalizing i length with
  | nil =>
    rw [scan_length_step A.peek_cons, if_neg fun h => hc ((hiff c).2 h)]
    simp
  | cons d l ih =>
    have hd := (hiff d).1 (hl d List.mem_cons_self)
    rw [scan_length_step A.peek_cons, if_pos hd,
      ih A.next (fun e he => hl e (List.mem_cons_of_mem _ he))]
    simp only [Bool.true_or, List.length_cons, ne_eq, reduceCtorEq, not_false_eq_true,
      decide_true, Bool.or_true]
    congr 3
    omega

end Scans

section Numbers

/-- The value of an argument at the type of its conversion. -/
def argumentValue (c : UInt8) (long : Bool) (w : UInt64) : ℤ :=
  if c = ascii 'd' ∨ c = ascii 'i' then
    if long then int64 w.toNat else int32 w.toNat
  else if long ∨ c = ascii 'p' then w.toNat
  else (w.toNat % 2^32 : ℕ)

def radix (c : UInt8) : ℕ := if c ∈ ['x','X','p'].map ascii then 16 else 10

/-- The digits of a conversion. Only `X` has upper case ones. -/
def figure (c : UInt8) (d : ℕ) : UInt8 :=
  if d < 10 then UInt8.ofNat (48+d)
  else if c = ascii 'X' then UInt8.ofNat (55+d)
  else UInt8.ofNat (87+d)

/-- What stands before the digits of `v`. -/
def signOf (c : UInt8) (flags : List UInt8) (v : ℤ) : List UInt8 :=
  if c = ascii 'd' ∨ c = ascii 'i' then
    if v < 0 then [ascii '-']
    else if ascii '+' ∈ flags then [ascii '+']
    else if ascii ' ' ∈ flags then [ascii ' ']
    else []
  else if c = ascii 'p' then [ascii '0',ascii 'x']
  else if c = ascii 'u' then []
  else if ascii '#' ∈ flags ∧ v ≠ 0 then [ascii '0',c]
  else []

/-- An item that is the number `v` in the notation of `c`. -/
structure Denotes (c : UInt8) (flags : List UInt8) (v : ℤ) (item : Item) : Prop where
  numeric : item.flags.numeric = true
  left : item.flags.leftjustify = decide (ascii '-' ∈ flags)
  base : Base item.base
  digits : item.base.natAbs = radix c
  figures : ∀ d < radix c, digitsOf item.base d = figure c d
  num : item.num.toNat = v.natAbs
  sign : prefix_of item.flags item.base item.num = signOf c flags v

theorem natAbs_register {x : ℤ} (hlow : -2^63 ≤ x) (hhigh : x < 2^63) :
    (UInt64.ofInt (if decide (x < 0) then -x else x)).toNat = x.natAbs := by
  have hreg : ∀ n : ℕ, n < 2^64 → (UInt64.ofInt (n : ℤ)).toNat = n := fun n hn => by
    rw [UInt64.ofInt, UInt64.toNat_ofNat']
    omega
  by_cases hx : x < 0
  · have habs : -x = (x.natAbs : ℤ) := by omega
    rw [if_pos (decide_eq_true hx), habs, hreg _ (by omega)]
  · have habs : x = (x.natAbs : ℤ) := by omega
    rw [if_neg (by simpa using hx), habs, hreg _ (by omega), Int.natAbs_natCast]

theorem int64_range (x : ℤ) : -2^63 ≤ int64 x ∧ int64 x < 2^63 := by
  rw [int64]
  have hlow := Int.le_bmod (x := x) (m := 2^64) (by norm_num)
  have hhigh := Int.bmod_lt (x := x) (m := 2^64) (by norm_num)
  norm_num at hlow hhigh ⊢
  omega

theorem int32_range (x : ℤ) : -2^31 ≤ int32 x ∧ int32 x < 2^31 := by
  rw [int32]
  have hlow := Int.le_bmod (x := x) (m := 2^32) (by norm_num)
  have hhigh := Int.bmod_lt (x := x) (m := 2^32) (by norm_num)
  norm_num at hlow hhigh ⊢
  omega

variable {strs : UInt64 → Text} {flags : List UInt8} {long : Bool}

theorem convert_signed_denotes (hc : c = ascii 'd' ∨ c = ascii 'i') (w : UInt64)
    (rest : List UInt64) : ∃ item,
      convert strs c long (withFlags {} flags) (w :: rest) = .ok (item,rest) ∧
        Denotes c flags (argumentValue c long w) item := by
  set x := if long then int64 w.toNat else int32 w.toNat with hx
  have hrange : -2^63 ≤ x ∧ x < 2^63 := by
    have h64 := int64_range w.toNat
    have h32 := int32_range w.toNat
    rw [hx]
    split_ifs
    · exact h64
    · omega
  have hv : argumentValue c long w = x := if_pos hc
  have hradix : radix c = 10 := by rcases hc with rfl | rfl <;> rfl
  refine ⟨⟨{ withFlags {} flags with numeric := true, signed := true, negative := decide (x < 0) },
    10,UInt64.ofInt (if decide (x < 0) then -x else x),[]⟩,?_,?_⟩
  · rw [convert, if_pos hc]
    rfl
  · rw [hv]
    refine ⟨rfl,?_,Or.inl rfl,hradix.symm,?_,natAbs_register hrange.1 hrange.2,?_⟩
    · simp [withFlags]
    · rw [hradix]
      intro d hd
      have htable : ∀ d < 10, digitsOf 10 d = UInt8.ofNat (48+d) := by decide
      rw [htable d hd, figure, if_pos hd]
    · rw [signOf, if_pos hc]
      simp [prefix_of, withFlags]

theorem convert_unsigned_denotes {base : ℤ} (hbase : Base base) {num : UInt64} {v : ℕ}
    (hnum : num.toNat = v) (hradix : base.natAbs = radix c)
    (hfigures : ∀ d < radix c, digitsOf base d = figure c d)
    (hsign : (if ascii '#' ∈ flags ∧ (base = 16 ∨ base = -16) ∧ num ≠ 0 then
      [ascii '0',if base = -16 then ascii 'x' else ascii 'X'] else []) = signOf c flags v) :
    Denotes c flags v ⟨{ withFlags {} flags with numeric := true },base,num,[]⟩ := by
  refine ⟨rfl,?_,hbase,hradix,hfigures,hnum,?_⟩
  · simp [withFlags]
  · rw [← hsign]
    simp [prefix_of, withFlags]

theorem unsigned_value (c : UInt8) (w : UInt64)
    (h : c ≠ ascii 'd' ∧ c ≠ ascii 'i' ∧ c ≠ ascii 'p') :
    argumentValue c long w =
      ((if long then w else UInt64.ofNat (w.toNat % 2^32)).toNat : ℕ) := by
  rw [argumentValue, if_neg (not_or.2 ⟨h.1,h.2.1⟩)]
  cases long with
  | true => rfl
  | false =>
    rw [if_neg (by simpa using h.2.2), if_neg (by decide), UInt64.toNat_ofNat']
    congr 1
    omega

theorem hex_sign (hc : c = ascii 'x' ∨ c = ascii 'X') (num : UInt64) :
    signOf c flags (num.toNat : ℕ) =
      if ascii '#' ∈ flags ∧ num ≠ 0 then [ascii '0',c] else [] := by
  have hother : ¬(c = ascii 'd' ∨ c = ascii 'i') ∧ c ≠ ascii 'p' ∧ c ≠ ascii 'u' := by
    rcases hc with rfl | rfl <;> decide
  have hzero : ((num.toNat : ℕ) : ℤ) ≠ 0 ↔ num ≠ 0 := by
    rw [Ne, Nat.cast_eq_zero, Ne, ← UInt64.toNat_inj]
    rfl
  rw [signOf, if_neg hother.1, if_neg hother.2.1, if_neg hother.2.2]
  simp only [hzero]

/-- Each integer conversion makes the number that its argument denotes. -/
theorem convert_denotes (strs : UInt64 → Text) (hc : c ∈ integers) (flags : List UInt8)
    (long : Bool) (w : UInt64) (rest : List UInt64) : ∃ item,
      convert strs c long (withFlags {} flags) (w :: rest) = .ok (item,rest) ∧
        Denotes c flags (argumentValue c long w) item := by
  have hcases : (c = ascii 'd' ∨ c = ascii 'i') ∨ c = ascii 'u' ∨ c = ascii 'x' ∨
      c = ascii 'X' ∨ c = ascii 'p' := by
    simpa [integers, or_assoc] using hc
  have htable : ∀ d < 16, (d < 10 → digitsOf 10 d = UInt8.ofNat (48+d)) ∧
      digitsOf (-16) d = figure (ascii 'x') d ∧ digitsOf 16 d = figure (ascii 'X') d ∧
      digitsOf (-16) d = figure (ascii 'p') d := by decide
  rcases hcases with hd | rfl | rfl | rfl | rfl
  · exact convert_signed_denotes hd w rest
  · rw [unsigned_value _ w (by decide)]
    refine ⟨_,rfl,convert_unsigned_denotes (Or.inl rfl) rfl rfl (fun d hd => ?_) ?_⟩
    · have hd' : d < 10 := hd
      rw [(htable d (by omega)).1 hd', figure, if_pos hd']
    · rw [if_neg fun h => absurd h.2.1 (by decide), signOf, if_neg (by decide),
        if_neg (by decide), if_pos rfl]
  · rw [unsigned_value _ w (by decide)]
    refine ⟨_,rfl,convert_unsigned_denotes (Or.inr (Or.inr rfl)) rfl rfl
      (fun d hd => (htable d hd).2.1) ?_⟩
    rw [hex_sign (Or.inl rfl)]
    simp
  · rw [unsigned_value _ w (by decide)]
    refine ⟨_,rfl,convert_unsigned_denotes (Or.inr (Or.inl rfl)) rfl rfl
      (fun d hd => (htable d hd).2.2.1) ?_⟩
    rw [hex_sign (Or.inr rfl)]
    simp
  · have hv : argumentValue (ascii 'p') long w = (w.toNat : ℕ) := by
      rw [argumentValue, if_neg (by decide), if_pos (Or.inr rfl)]
    rw [hv]
    refine ⟨_,rfl,⟨rfl,?_,Or.inr (Or.inr rfl),rfl,fun d hd => (htable d hd).2.2.2,rfl,?_⟩⟩
    · simp [withFlags]
    · rw [signOf, if_neg (by decide), if_pos rfl]
      simp [prefix_of, withFlags]

end Numbers

section Padding

/-- `text` is the number `digits` with its prefix, padded to at least `width` characters. -/
def Padded (left : Prop) (width precision : ℕ) (pre digits text : List UInt8) : Prop :=
  ∃ a z b : ℕ, text = List.replicate a (ascii ' ')++pre++List.replicate z (ascii '0')++digits++
      List.replicate b (ascii ' ') ∧
    precision ≤ z+digits.length ∧ (left → a = 0) ∧ (¬left → b = 0) ∧
    text.length = max width (pre.length+z+digits.length)

theorem zero_count_range {flags : Flags} {width precision : ℤ} {n p len plen : ℕ}
    (hnum : flags.numeric = true) (hn : Scanned width n) (hp : Scanned precision p)
    (hn' : n ≤ LIMIT) (hp' : p ≤ LIMIT) (hlen : len < NUMBUFSIZ) (hplen : plen ≤ 2) : ∃ z : ℕ,
      zero_count flags width precision len plen = z ∧ z ≤ LIMIT ∧ p ≤ z+len := by
  have hlimit : LIMIT = 2^30 := rfl
  have hsiz : NUMBUFSIZ = 24 := rfl
  have hsum : int32 ((len : ℤ)+plen) = len+plen := int32_small (by omega) (by omega)
  rw [zero_count, hnum, hsum]
  rcases hp with rfl | ⟨rfl,rfl⟩
  · rw [if_pos ⟨rfl,by omega⟩]
    split_ifs with hless
    · exact ⟨p-len,by omega,by omega,by omega⟩
    · exact ⟨0,rfl,by omega,by omega⟩
  · rw [if_neg (by omega)]
    split_ifs with hzero
    · have hw := hzero.2.2.2
      rcases hn with rfl | ⟨rfl,rfl⟩
      · rw [int32_small (by omega) (by omega)]
        exact ⟨n-len-plen,by omega,by omega,by omega⟩
      · omega
    · exact ⟨0,rfl,by omega,by omega⟩

theorem layout_padded {flags : Flags} {width precision : ℤ} {n p : ℕ} {pre data : List UInt8}
    (hnum : flags.numeric = true) (hn : Scanned width n) (hp : Scanned precision p)
    (hn' : n ≤ LIMIT) (hp' : p ≤ LIMIT) (hdata : data.length < NUMBUFSIZ)
    (hpre : pre.length ≤ 2) : Padded (flags.leftjustify = true) n p pre data
      (layout flags width precision pre data) := by
  have hlimit : LIMIT = 2^30 := rfl
  have hsiz : NUMBUFSIZ = 24 := rfl
  have hlen : text_len flags precision data = data.length := by
    rw [text_len, hnum, if_neg (by simp), strlen, int32_small (by omega) (by omega)]
  obtain ⟨z,hz,hz',hpz⟩ := zero_count_range hnum hn hp hn' hp' hdata hpre
  have hw : -1 ≤ width ∧ width ≤ LIMIT := by
    rcases hn with rfl | ⟨rfl,-⟩ <;> omega
  have hwidth : int32 (width-(data.length+z+strlen pre)) = width-(data.length+z+pre.length) := by
    rw [strlen, int32_small (by omega) (by omega)]
  have hfull : ∀ a b : ℕ, (a+b : ℤ) = max 0 (width-(data.length+z+pre.length)) →
      (List.replicate a (ascii ' ')++pre++List.replicate z (ascii '0')++data++
        List.replicate b (ascii ' ')).length = max n (pre.length+z+data.length) := fun a b hab => by
    simp only [List.length_append, List.length_replicate]
    rcases hn with rfl | ⟨rfl,rfl⟩ <;> omega
  rw [layout]
  simp only [hlen, strlen, hz, repeated, Int.toNat_natCast, List.take_length] at hwidth ⊢
  rw [hwidth]
  set gap := width-(data.length+z+pre.length) with hgap
  cases hleft : flags.leftjustify with
  | true =>
    refine ⟨0,z,gap.toNat,?_,hpz,fun _ => rfl,fun h => absurd rfl h,?_⟩
    · simp
    · rw [← hfull 0 gap.toNat (by omega)]
      simp
  | false =>
    refine ⟨gap.toNat,z,0,?_,hpz,(fun h => by cases h),fun _ => rfl,?_⟩
    · simp
    · rw [← hfull gap.toNat 0 (by omega)]
      simp

end Padding

section Directive

variable {post flags wtext ptext ltext : List UInt8}
  {wargs pargs : List UInt64} {n p : ℕ}

theorem width_bound {l : List UInt8} {used : List UInt64} (W : WidthText l used n) : n ≤ LIMIT := by
  cases W with
  | absent => exact Nat.zero_le _
  | digits first others bound => exact bound
  | star value bound => exact bound

theorem precision_bound {l : List UInt8} {used : List UInt64} (P : PrecisionText l used n) :
    n ≤ LIMIT := by
  cases P with
  | absent => exact Nat.zero_le _
  | digits all bound => exact bound
  | star value bound => exact bound

/-- A character that can follow a number: none of flags, digits, `*` and `.`. -/
structure Ends (c : UInt8) : Prop where
  flag : c ∉ flag_chars
  digit : ¬isdigit c
  star : c ≠ ascii '*'
  dot : c ≠ ascii '.'

theorem ends_of_letter (hc : c ∈ modifiers ∨ c ∈ integers) : Ends c := by
  have hall : ∀ c ∈ modifiers++integers, c ∉ flag_chars ∧ ¬isdigit c ∧ c ≠ ascii '*' ∧
      c ≠ ascii '.' := by decide +kernel
  obtain ⟨h₁,h₂,h₃,h₄⟩ := hall c (List.mem_append.2 hc)
  exact ⟨h₁,h₂,h₃,h₄⟩

theorem letters_head (hl : ∀ d ∈ ltext, d ∈ modifiers) (hc : c ∈ integers) (post : List UInt8) :
    ∃ d rest, ltext++c :: post = d :: rest ∧ Ends d := by
  cases ltext with
  | nil => exact ⟨c,post,rfl,ends_of_letter (Or.inr hc)⟩
  | cons d l => exact ⟨d,l++c :: post,rfl,ends_of_letter (Or.inl (hl d List.mem_cons_self))⟩

/-- What follows the flags does not start with a flag. -/
theorem width_head (W : WidthText wtext wargs n) {d : UInt8} (hd : d ∉ flag_chars)
    (rest : List UInt8) : ∃ e rest', wtext++d :: rest = e :: rest' ∧ e ∉ flag_chars := by
  cases W with
  | absent => exact ⟨d,rest,rfl,hd⟩
  | @digits e l first others bound =>
    refine ⟨e,l++d :: rest,rfl,fun h => ?_⟩
    have hall : ∀ e ∈ flag_chars, ¬(ascii '1' ≤ e ∧ e ≤ ascii '9') := by decide +kernel
    exact hall e h first
  | star value bound => exact ⟨ascii '*',d :: rest,rfl,by decide⟩

/-- What follows a width does not go on with it. -/
theorem precision_head (P : PrecisionText ptext pargs p) {d : UInt8} (hd : Ends d)
    (rest : List UInt8) : ∃ e rest', ptext++d :: rest = e :: rest' ∧ e ∉ flag_chars ∧
      ¬isdigit e ∧ e ≠ ascii '*' := by
  cases P with
  | absent => exact ⟨d,rest,rfl,hd.flag,hd.digit,hd.star⟩
  | @digits l all bound => exact ⟨ascii '.',l++d :: rest,rfl,by decide,by decide,by decide⟩
  | star value bound =>
    exact ⟨ascii '.',ascii '*' :: d :: rest,rfl,by decide,by decide,by decide⟩

/-- The scanning loops take a directive apart as it was put together. -/
theorem directive_scan (strs : UInt64 → Text) (hflags : ∀ d ∈ flags, d ∈ flag_chars)
    (W : WidthText wtext wargs n)
    (P : PrecisionText ptext pargs p) (hl : ∀ d ∈ ltext, d ∈ modifiers) (hc : c ∈ integers)
    (A : At f i (ascii '%' :: (flags++(wtext++(ptext++(ltext++c :: post))))))
    (args : List UInt64) (color : ℤ) : ∃ width precision, Scanned width n ∧ Scanned precision p ∧
      directive strs f i color (wargs++(pargs++args)) =
        conversion strs c (decide (ltext ≠ []))
          (i+1+flags.length+wtext.length+ptext.length+ltext.length) (withFlags {} flags) width
          precision color args := by
  obtain ⟨d₁,r₁,hhead₁,hends⟩ := letters_head hl hc post
  obtain ⟨d₂,r₂,hhead₂,hflag₂,hdigit₂,hstar₂⟩ := precision_head P hends r₁
  obtain ⟨d₃,r₃,hhead₃,hflag₃⟩ := width_head W hflag₂ r₂
  have A₁ := A.next
  have A₂ := A₁.skip
  have A₃ := A₂.skip
  have A₄ := A₃.skip
  rw [hhead₁, hhead₂, hhead₃] at A₁
  rw [hhead₁, hhead₂] at A₂
  rw [hhead₁] at A₃
  obtain ⟨width,hwidth,hscan₂⟩ := scan_width_text W A₂ hdigit₂ hstar₂ (pargs++args)
  obtain ⟨precision,hprec,hscan₃⟩ := scan_precision_text P A₃ hends.digit hends.star hends.dot args
  have hmod : c ∉ modifiers := by
    have hall : ∀ c ∈ integers, c ∉ modifiers := by decide +kernel
    exact hall c hc
  have hscan₁ := scan_flags_chars A₁ hflags hflag₃ {}
  have hscan₄ := scan_length_text A₄ hl hmod false
  refine ⟨width,precision,hwidth,hprec,?_⟩
  rw [directive, hscan₁]
  change scan_width f _ (wargs++(pargs++args)) >>= _ = _
  rw [hscan₂]
  change scan_precision f _ (pargs++args) >>= _ = _
  rw [hscan₃]
  change scan_length f _ false >>= _ = _
  rw [hscan₄, Bool.false_or]
  rfl

theorem argument_small (c : UInt8) (long : Bool) (w : UInt64) :
    (argumentValue c long w).natAbs < 2^64 := by
  have hw := w.toNat_lt
  have h64 := int64_range w.toNat
  have h32 := int32_range w.toNat
  rw [argumentValue]
  split_ifs <;> omega

/-- The numeral of an argument has less than 24 characters and starts with a zero only for
zero. -/
theorem numeral_shape (c : UInt8) {v : ℕ} (hv : v < 2^64) :
    (numeral (figure c) (radix c) v).length < NUMBUFSIZ ∧
      (v ≠ 0 → (numeral (figure c) (radix c) v).head? ≠ some (ascii '0')) := by
  have hb : 10 ≤ radix c ∧ radix c ≤ 16 := by
    rw [radix]
    split_ifs <;> decide
  refine ⟨?_,fun hne => ?_⟩
  · have hpow : 10^20 ≤ (radix c)^20 := Nat.pow_le_pow_left hb.1 20
    have hlen : (numeral (figure c) (radix c) v).length ≤ 20 :=
      numeral_length _ (by omega) (by decide) (by omega)
    exact hlen.trans_lt (by decide)
  · obtain ⟨d,rest,hnum,hpos,hlt⟩ := numeral_head (figure c) (b := radix c) (by omega) hne
    rw [hnum, List.head?_cons]
    have hfig : ∀ d < 16, 0 < d → UInt8.ofNat (48+d) ≠ ascii '0' ∧
        (10 ≤ d → UInt8.ofNat (55+d) ≠ ascii '0' ∧ UInt8.ofNat (87+d) ≠ ascii '0') := by decide
    obtain ⟨h₁,h₂⟩ := hfig d (by omega) hpos
    intro h
    have hzero := Option.some.inj h
    rw [figure] at hzero
    split_ifs at hzero with h10 hX
    · exact h₁ hzero
    · exact (h₂ (by omega)).1 hzero
    · exact (h₂ (by omega)).2 hzero

end Directive

/-- An integer conversion anywhere in a format prints the number, padded, and goes on behind
it. -/
theorem integer_printed {f flags wtext ptext ltext post : List UInt8} {i n p : ℕ} {c : UInt8}
    {wargs pargs : List UInt64} (hflags : ∀ d ∈ flags, d ∈ flag_chars)
    (W : WidthText wtext wargs n) (P : PrecisionText ptext pargs p)
    (hl : ∀ d ∈ ltext, d ∈ modifiers) (hc : c ∈ integers)
    (A : At f i (ascii '%' :: (flags++(wtext++(ptext++(ltext++c :: post))))))
    (strs : UInt64 → Text) (w : UInt64) (rest : List UInt64) (color : ℤ) :
    ∃ text digits : List UInt8, ∃ v : ℤ, v = argumentValue c (decide (ltext ≠ [])) w ∧
      digits = numeral (figure c) (radix c) v.natAbs ∧ digits.length < NUMBUFSIZ ∧
      (v ≠ 0 → digits.head? ≠ some (ascii '0')) ∧
      Padded (ascii '-' ∈ flags) n p (signOf c flags v) digits text ∧
      ∀ (σ : Type) (putc : Putc σ) (st : σ),
        vprintf_loop putc strs f i color (wargs++(pargs++w :: rest)) st =
          play putc (inColor color text) st >>= vprintf_loop putc strs f
            (i+1+flags.length+wtext.length+ptext.length+ltext.length+1) color rest := by
  obtain ⟨width,precision,hwidth,hprec,hscan⟩ :=
    directive_scan strs hflags W P hl hc A (w :: rest) color
  obtain ⟨item,hconv,D⟩ := convert_denotes strs hc flags (decide (ltext ≠ [])) w rest
  have hsmall := argument_small c (decide (ltext ≠ [])) w
  obtain ⟨hlen,hhead⟩ := numeral_shape c hsmall
  have htext : item.text = .ok (numeral (figure c) (radix c)
      (argumentValue c (decide (ltext ≠ [])) w).natAbs) := by
    have hb : 1 < radix c := by
      rw [radix]
      split_ifs <;> decide
    rw [Item.text, if_pos D.numeric, fill_numbuf_ok D.base, D.digits, D.num,
      numeral_congr hb D.figures]
  have hletter : c ≠ ascii 'C' ∧ c ≠ 0 := by
    have hall : ∀ c ∈ integers, c ≠ ascii 'C' ∧ c ≠ 0 := by decide +kernel
    exact hall c hc
  have hsign : ∀ v, (signOf c flags v).length ≤ 2 := by
    intro v
    rw [signOf]
    split_ifs <;> simp
  have hpad := layout_padded D.numeric hwidth hprec (width_bound W) (precision_bound P) hlen
    (hsign (argumentValue c (decide (ltext ≠ [])) w))
  rw [D.left, decide_eq_true_eq] at hpad
  refine ⟨_,_,_,rfl,rfl,hlen,fun hv => hhead (Int.natAbs_ne_zero.2 hv),hpad,?_⟩
  intro σ putc st
  rw [vprintf_loop_directive A, hscan, conversion, if_neg hletter.1, hconv]
  change item.text >>= _ >>= _ = _
  rw [htext]
  change emit putc color (layout item.flags width precision
    (prefix_of item.flags item.base item.num) _) st >>= _ = _
  rw [emit_play, D.sign, step_back, if_neg hletter.2]

/-- The format `%-6.3d` with the argument -7. -/
theorem minus_seven_printed : ∃ text, Padded (ascii '-' ∈ [ascii '-']) 6 3 [ascii '-'] [ascii '7']
    text ∧ vprintf_loop collect (fun _ => ⟨[],List.not_mem_nil⟩)
      (['%','-','6','.','3','d'].map ascii) 0 0 [UInt64.ofNat (2^64-7)] [] =
        .ok (inColor 0 text) := by
  have W : WidthText [ascii '6'] [] 6 :=
    .digits (by decide +kernel) (by decide +kernel) (by decide +kernel)
  have P : PrecisionText [ascii '.',ascii '3'] [] 3 :=
    .digits (by decide +kernel) (by decide +kernel)
  have A : At (['%','-','6','.','3','d'].map ascii) 0 (ascii '%' :: ([ascii '-']++([ascii '6']++
      ([ascii '.',ascii '3']++([]++ascii 'd' :: []))))) := ⟨Nat.zero_le _,rfl⟩
  obtain ⟨text,digits,v,hv,hdigits,-,-,hpad,hrun⟩ := integer_printed (by decide +kernel) W P
    (by decide +kernel) (by decide +kernel) A (fun _ => ⟨[],List.not_mem_nil⟩) (UInt64.ofNat (2^64-7)) [] 0
  have hvalue : v = -7 := hv.trans (by decide)
  have hseven : digits = [ascii '7'] := by
    rw [hdigits, hvalue]
    exact numeral_small (by decide)
  have hsign : signOf (ascii 'd') [ascii '-'] v = [ascii '-'] := by
    rw [hvalue]
    decide
  rw [hseven, hsign] at hpad
  refine ⟨text,hpad,?_⟩
  have hend : At (['%','-','6','.','3','d'].map ascii) 6 [] := ⟨by decide,rfl⟩
  refine (hrun _ collect []).trans ?_
  rw [play_collect]
  exact vprintf_loop_nil hend 0 [] _

end WeensyOS.Conversions
