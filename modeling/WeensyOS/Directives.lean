import WeensyOS.Printer

/-!
# Directives stay inside the format

Every scanning step leaves the format pointer between where it was and the NUL
and takes a bounded number of arguments, so a directive can only fail for lack
of arguments. Numbers of 64 bits fit into `numbuf`.
-/

set_option autoImplicit false

namespace WeensyOS.Directives
open WeensyOS.TextCursors WeensyOS.Printer

variable {f rest : List UInt8} {i n m : ℕ} {c : UInt8} {args : List UInt64}

section Steps

theorem scan_flags_step (h : read f i = .ok c) (flags : Flags) : scan_flags f i flags =
    if c ≠ 0 then
      match set_flag c flags with
      | some flags => scan_flags f (i+1) flags
      | none => .ok (flags,i)
    else .ok (flags,i) := by
  rw [scan_flags]
  split
  · rename_i e he
    rw [h] at he
    cases he
  · rename_i c' hc'
    rw [h] at hc'
    cases hc'
    split_ifs
    · rfl
    · rfl

theorem scan_digits_step (h : read f i = .ok c) (n : ℤ) : scan_digits f i n =
    if isdigit c then scan_digits f (i+1) (int32 (10*n+c.toNat-(ascii '0').toNat))
    else .ok (n,i) := by
  rw [scan_digits]
  split
  · rename_i e he
    rw [h] at he
    cases he
  · rename_i c' hc'
    rw [h] at hc'
    cases hc'
    rfl

theorem scan_length_step (h : read f i = .ok c) (length : Bool) : scan_length f i length =
    if c = ascii 'l' ∨ c = ascii 'z' then scan_length f (i+1) true else .ok (c,length,i) := by
  rw [scan_length]
  split
  · rename_i e he
    rw [h] at he
    cases he
  · rename_i c' hc'
    rw [h] at hc'
    cases hc'
    rfl

theorem scan_width_step (h : read f i = .ok c) (args : List UInt64) : scan_width f i args =
    if ascii '1' ≤ c ∧ c ≤ ascii '9' then
      scan_digits f i 0 >>= fun r => .ok (r.1,r.2,args)
    else if c = ascii '*' then va_int args >>= fun r => .ok (r.1,i+1,r.2)
    else .ok (-1,i,args) := by
  rw [scan_width, h]
  rfl

theorem scan_count_step (h : read f i = .ok c) (args : List UInt64) : scan_count f i args =
    if isdigit c then scan_digits f i 0 >>= fun r => .ok (r.1,r.2,args)
    else if c = ascii '*' then va_int args >>= fun r => .ok (r.1,i+1,r.2)
    else .ok (-1,i,args) := by
  rw [scan_count, h]
  rfl

theorem scan_precision_step (h : read f i = .ok c) (args : List UInt64) :
    scan_precision f i args = if c = ascii '.' then
      scan_count f (i+1) args >>= fun r => .ok (if r.1 < 0 then 0 else r.1,r.2)
    else .ok (-1,i,args) := by
  rw [scan_precision, h]
  rfl

end Steps

section Scans

theorem scan_flags_ok (A : At f i rest) (flags : Flags) : ∃ flags' j,
    scan_flags f i flags = .ok (flags',j) ∧ i ≤ j ∧ j ≤ f.length := by
  induction rest generalizing i flags with
  | nil =>
    rw [scan_flags_step A.peek_nil, if_neg (by decide)]
    exact ⟨flags,i,rfl,le_rfl,A.bound⟩
  | cons c rest ih =>
    rw [scan_flags_step A.peek_cons]
    split_ifs with hc
    · cases set_flag c flags with
      | none => exact ⟨flags,i,rfl,le_rfl,A.bound⟩
      | some flags' =>
        obtain ⟨flags'',j,hj,hle,hlen⟩ := ih A.next flags'
        exact ⟨flags'',j,hj,by omega,hlen⟩
    · exact ⟨flags,i,rfl,le_rfl,A.bound⟩

theorem scan_digits_ok (A : At f i rest) (n : ℤ) : ∃ n' j,
    scan_digits f i n = .ok (n',j) ∧ i ≤ j ∧ j ≤ f.length := by
  induction rest generalizing i n with
  | nil =>
    rw [scan_digits_step A.peek_nil, if_neg (by decide)]
    exact ⟨n,i,rfl,le_rfl,A.bound⟩
  | cons c rest ih =>
    rw [scan_digits_step A.peek_cons]
    split_ifs with hc
    · obtain ⟨n',j,hj,hle,hlen⟩ := ih A.next (int32 (10*n+c.toNat-(ascii '0').toNat))
      exact ⟨n',j,hj,by omega,hlen⟩
    · exact ⟨n,i,rfl,le_rfl,A.bound⟩

/-- The loop over `l` and `z` ends on the conversion character or on the NUL. -/
theorem scan_length_ok (A : At f i rest) (length : Bool) : ∃ c length' j,
    scan_length f i length = .ok (c,length',j) ∧ i ≤ j ∧ j ≤ f.length ∧ read f j = .ok c := by
  induction rest generalizing i length with
  | nil =>
    rw [scan_length_step A.peek_nil, if_neg (by decide)]
    exact ⟨0,length,i,rfl,le_rfl,A.bound,A.peek_nil⟩
  | cons c rest ih =>
    rw [scan_length_step A.peek_cons]
    split_ifs with hc
    · obtain ⟨c',length',j,hj,hle,hlen,hread⟩ := ih A.next true
      exact ⟨c',length',j,hj,by omega,hlen,hread⟩
    · exact ⟨c,length,i,rfl,le_rfl,A.bound,A.peek_cons⟩

variable {α β : Type}

/-- A scan from `i` takes at most `n` arguments and stops at or before the NUL. -/
inductive Within (f : List UInt8) (i n : ℕ) (args : List UInt64) :
    Except Fault (α × ℕ × List UInt64) → Prop where
  | short (hlen : args.length < n) : Within f i n args (.error .arguments)
  | ok {a : α} {j : ℕ} {rest : List UInt64} (lower : i ≤ j) (upper : j ≤ f.length)
    (taken : args.length ≤ rest.length+n) : Within f i n args (.ok (a,j,rest))

theorem read_ok (h : i ≤ f.length) : ∃ c, read f i = .ok c := peek_ok h

/-- `va_arg` fails exactly when nothing is left. -/
theorem va_int_cases (args : List UInt64) : (args = [] ∧ va_int args = .error .arguments) ∨
    ∃ w rest, args = w :: rest ∧ va_int args = .ok (int32 w.toNat,rest) := by
  cases args with
  | nil => exact Or.inl ⟨rfl,rfl⟩
  | cons w rest => exact Or.inr ⟨w,rest,rfl,rfl⟩

theorem scan_width_within (h : i ≤ f.length) (args : List UInt64) :
    Within f i 1 args (scan_width f i args) := by
  obtain ⟨c,hread⟩ := read_ok h
  rw [scan_width_step hread]
  split_ifs with hdigit hstar
  · obtain ⟨width,j,hj,hle,hlen⟩ := scan_digits_ok (at_drop h) 0
    rw [hj]
    exact .ok hle hlen (by omega)
  · have hi : i < f.length := peek_lt hread (by rw [hstar]; decide)
    rcases va_int_cases args with ⟨rfl,hva⟩ | ⟨w,rest,rfl,hva⟩
    · rw [hva]
      exact .short Nat.one_pos
    · rw [hva]
      exact .ok (by omega) hi le_rfl
  · exact .ok le_rfl h (by omega)

theorem scan_count_within (h : i ≤ f.length) (args : List UInt64) :
    Within f i 1 args (scan_count f i args) := by
  obtain ⟨c,hread⟩ := read_ok h
  rw [scan_count_step hread]
  split_ifs with hdigit hstar
  · obtain ⟨precision,j,hj,hle,hlen⟩ := scan_digits_ok (at_drop h) 0
    rw [hj]
    exact .ok hle hlen (by omega)
  · have hi : i < f.length := peek_lt hread (by rw [hstar]; decide)
    rcases va_int_cases args with ⟨rfl,hva⟩ | ⟨w,rest,rfl,hva⟩
    · rw [hva]
      exact .short Nat.one_pos
    · rw [hva]
      exact .ok (by omega) hi le_rfl
  · exact .ok le_rfl h (by omega)

theorem scan_precision_within (h : i ≤ f.length) (args : List UInt64) :
    Within f i 1 args (scan_precision f i args) := by
  obtain ⟨c,hread⟩ := read_ok h
  rw [scan_precision_step hread]
  split_ifs with hdot
  · have hi : i < f.length := peek_lt hread (by rw [hdot]; decide)
    have hcount := scan_count_within (f := f) (i := i+1) hi args
    cases hr : scan_count f (i+1) args with
    | error e =>
      rw [hr] at hcount
      cases hcount with
      | short hlen => exact .short hlen
    | ok r =>
      rw [hr] at hcount
      cases hcount with
      | ok lower upper taken => exact .ok (by omega) upper taken
  · exact .ok le_rfl h (by omega)

end Scans

section Numbers

variable {digits : List UInt8} {base val : UInt64} {room : ℕ}

/-- Character `d` of a table of digits. -/
def digitAt (digits : List UInt8) (d : ℕ) : UInt8 := digits.getD d 0

/-- The loop of `fill_numbuf` writes the numeral, if there is room for it. -/
theorem fill_digits_numeral (hb : 1 < base.toNat) (hroom : 0 < room)
    (h : val.toNat < base.toNat^room) (data : List UInt8) :
    fill_digits digits base room val data =
      .ok (numeral (digitAt digits) base.toNat val.toNat++data) := by
  induction room generalizing val data with
  | zero => omega
  | succ room ih =>
    rw [fill_digits]
    simp only [UInt64.toNat_mod]
    have hdiv : (val/base).toNat = val.toNat/base.toNat := UInt64.toNat_div _ _
    by_cases hval : val.toNat < base.toNat
    · have hzero : val/base = 0 := by
        apply UInt64.toNat_inj.1
        rw [hdiv, Nat.div_eq_of_lt hval]
        rfl
      rw [if_neg (not_not.2 hzero), numeral_small hval, Nat.mod_eq_of_lt hval]
      rfl
    · have hne : val/base ≠ 0 := fun hzero => by
        have hpos := Nat.div_pos (Nat.le_of_not_lt hval) (by omega)
        rw [← hdiv, hzero] at hpos
        exact absurd hpos (by decide)
      have hroom' : 0 < room := Nat.pos_of_ne_zero fun h0 => by
        rw [h0, Nat.zero_add, pow_one] at h
        exact hval h
      have hless : (val/base).toNat < base.toNat^room := by
        rw [hdiv]
        apply Nat.div_lt_of_lt_mul
        rw [← pow_succ']
        exact h
      rw [if_pos hne, ih hroom' hless, hdiv, numeral_step hb (Nat.le_of_not_lt hval),
        List.append_assoc]
      rfl

/-- The table that `fill_numbuf` uses for a base. -/
def digitsOf (base : ℤ) : ℕ → UInt8 := digitAt (if base < 0 then lower_digits else upper_digits)

/-- The bases of the conversions. -/
def Base (base : ℤ) : Prop := base = 10 ∨ base = 16 ∨ base = -16

/-- Every number of 64 bits fits into `numbuf`. -/
theorem fill_numbuf_ok {base : ℤ} (hb : Base base) (val : UInt64) :
    fill_numbuf val base = .ok (numeral (digitsOf base) base.natAbs val.toNat) := by
  have hval := val.toNat_lt
  have hfill : ∀ (digits : List UInt8) (b : UInt64), 1 < b.toNat → 10 ≤ b.toNat →
      fill_digits digits b (NUMBUFSIZ-1) val [] =
        .ok (numeral (digitAt digits) b.toNat val.toNat) := fun digits b hb hten => by
    have hpow : (10 : ℕ)^(NUMBUFSIZ-1) ≤ b.toNat^(NUMBUFSIZ-1) := Nat.pow_le_pow_left hten _
    have hlt : 2^64 ≤ (10 : ℕ)^(NUMBUFSIZ-1) := by decide
    rw [fill_digits_numeral hb (by decide) (by omega), List.append_nil]
  rcases hb with rfl | rfl | rfl
  · exact hfill upper_digits 10 (by decide) (by decide)
  · exact hfill upper_digits 16 (by decide) (by decide)
  · exact hfill lower_digits 16 (by decide) (by decide)

theorem numeral_clean {base : ℤ} (hb : Base base) (v : ℕ) :
    0 ∉ numeral (digitsOf base) base.natAbs v := by
  have htable : ∀ d < 16, digitAt upper_digits d ≠ 0 ∧ digitAt lower_digits d ≠ 0 := by decide
  have hone : 1 < base.natAbs ∧ base.natAbs ≤ 16 := by
    rcases hb with rfl | rfl | rfl <;> decide
  intro h
  obtain ⟨d,hd,hzero⟩ := numeral_mem hone.1 h
  have hne := htable d (by omega)
  rw [digitsOf] at hzero
  split_ifs at hzero
  · exact hne.2 hzero.symm
  · exact hne.1 hzero.symm

end Numbers

section Conversions

variable {strs : UInt64 → Text} {flags : Flags} {length : Bool}

/-- A conversion takes at most one argument. -/
inductive Converts (args : List UInt64) : Except Fault (Item × List UInt64) → Prop where
  | short (hargs : args = []) : Converts args (.error .arguments)
  | ok {item : Item} {rest : List UInt64} (taken : args.length ≤ rest.length+1)
    (base : Base item.base) (clean : 0 ∉ item.data) : Converts args (.ok (item,rest))

theorem charbuf_clean (c : UInt8) : 0 ∉ charbuf c := by
  rw [charbuf]
  split_ifs with hc
  · exact List.not_mem_nil
  · exact fun h => hc (List.mem_singleton.1 h).symm

theorem convert_signed_converts (args : List UInt64) :
    Converts args (convert_signed length flags args) := by
  cases args with
  | nil => exact .short rfl
  | cons w rest => exact .ok le_rfl (Or.inl rfl) List.not_mem_nil

theorem convert_unsigned_converts {base : ℤ} (hb : Base base) (args : List UInt64) :
    Converts args (convert_unsigned length base flags args) := by
  cases args with
  | nil => exact .short rfl
  | cons w rest => exact .ok le_rfl hb List.not_mem_nil

theorem convert_converts (strs : UInt64 → Text) (length : Bool) (flags : Flags) (c : UInt8)
    (args : List UInt64) :
    Converts args (convert strs c length flags args) := by
  rw [convert]
  split_ifs with hd hu hx hX hp hs hc
  · exact convert_signed_converts args
  · exact convert_unsigned_converts (Or.inl rfl) args
  · exact convert_unsigned_converts (Or.inr (Or.inr rfl)) args
  · exact convert_unsigned_converts (Or.inr (Or.inl rfl)) args
  · cases args with
    | nil => exact .short rfl
    | cons w rest => exact .ok le_rfl (Or.inr (Or.inr rfl)) List.not_mem_nil
  · cases args with
    | nil => exact .short rfl
    | cons w rest => exact .ok le_rfl (Or.inl rfl) (strs w).2
  · cases args with
    | nil => exact .short rfl
    | cons w rest => exact .ok le_rfl (Or.inl rfl) (charbuf_clean _)
  · exact .ok (Nat.le_succ _) (Or.inl rfl) (charbuf_clean _)

theorem item_text_ok {item : Item} (base : Base item.base) (clean : 0 ∉ item.data) :
    ∃ data, item.text = .ok data ∧ 0 ∉ data := by
  rw [Item.text]
  split_ifs
  · exact ⟨_,fill_numbuf_ok base item.num,numeral_clean base _⟩
  · exact ⟨_,rfl,clean⟩

theorem prefix_of_clean (flags : Flags) (base : ℤ) (num : UInt64) :
    0 ∉ prefix_of flags base num := by
  rw [prefix_of]
  split_ifs <;> decide

theorem repeated_clean (n : ℤ) {c : UInt8} (hc : c ≠ 0) : 0 ∉ repeated n c := fun h =>
  hc (List.eq_of_mem_replicate h).symm

theorem layout_clean (width precision : ℤ) {pre data : List UInt8} (hpre : 0 ∉ pre)
    (hdata : 0 ∉ data) : 0 ∉ layout flags width precision pre data := by
  have hspace : ascii ' ' ≠ 0 := by decide
  have hzero : ascii '0' ≠ 0 := by decide
  rw [layout]
  simp only [List.mem_append, not_or]
  refine ⟨⟨⟨⟨?_,hpre⟩,repeated_clean _ hzero⟩,fun h => hdata (List.mem_of_mem_take h)⟩,
    repeated_clean _ hspace⟩
  split_ifs
  · exact List.not_mem_nil
  · exact repeated_clean _ hspace

/-- A directive at `i` prints no NUL and stops before the NUL of the format. -/
inductive Directs (f : List UInt8) (i n : ℕ) (args : List UInt64) :
    Except Fault Directive → Prop where
  | short (hlen : args.length < n) : Directs f i n args (.error .arguments)
  | ok {d : Directive} (lower : i ≤ d.next) (upper : d.next < f.length)
    (taken : args.length ≤ d.args.length+n) (clean : 0 ∉ d.text) : Directs f i n args (.ok d)

theorem conversion_directs (strs : UInt64 → Text) (length : Bool) (flags : Flags) {j : ℕ}
    (hij : i < j) (hread : read f j = .ok c)
    (hj : j ≤ f.length) (width precision color : ℤ) (args : List UInt64) :
    Directs f i 1 args
      (conversion strs c length j flags width precision color args) := by
  have hnext : i ≤ step_back c j ∧ step_back c j < f.length := by
    rw [step_back]
    split_ifs with hc
    · omega
    · exact ⟨hij.le,peek_lt hread hc⟩
  rw [conversion]
  split_ifs with hC
  · have hlt : j < f.length := peek_lt hread (by rw [hC]; decide)
    rcases va_int_cases args with ⟨rfl,hva⟩ | ⟨w,rest,rfl,hva⟩
    · rw [hva]
      exact .short Nat.one_pos
    · rw [hva]
      exact .ok hij.le hlt le_rfl List.not_mem_nil
  · have hconv := convert_converts strs length flags c args
    cases hr : convert strs c length flags args with
    | error e =>
      rw [hr] at hconv
      cases hconv with
      | short hargs =>
        rw [hargs]
        exact .short Nat.one_pos
    | ok r =>
      rw [hr] at hconv
      cases hconv with
      | @ok item rest taken base clean =>
        obtain ⟨data,hdata,hclean⟩ := item_text_ok base clean
        have hpre := prefix_of_clean item.flags item.base item.num
        change Directs f i 1 args (item.text >>= _)
        rw [hdata]
        exact .ok hnext.1 hnext.2 taken (layout_clean _ _ hpre hclean)

end Conversions

/-- The seven loops of a directive, one after the other. -/
theorem directive_directs (strs : UInt64 → Text) (hread : read f i = .ok (ascii '%')) (color : ℤ)
    (args : List UInt64) : Directs f i 3 args (directive strs f i color args) := by
  have hi : i < f.length := peek_lt hread (by decide)
  obtain ⟨flags,j₁,hflags,hle₁,hj₁⟩ := scan_flags_ok (at_drop (f := f) (i := i+1) hi) {}
  rw [directive, hflags]
  change Directs f i 3 args (scan_width f j₁ args >>= _)
  have hwidth := scan_width_within hj₁ args
  cases hr₂ : scan_width f j₁ args with
  | error e =>
    rw [hr₂] at hwidth
    cases hwidth with
    | short hlen => exact .short (by omega)
  | ok r₂ =>
    rw [hr₂] at hwidth
    cases hwidth with
    | @ok width j₂ args₂ hle₂ hj₂ htaken₂ =>
      change Directs f i 3 args (scan_precision f j₂ args₂ >>= _)
      have hprec := scan_precision_within hj₂ args₂
      cases hr₃ : scan_precision f j₂ args₂ with
      | error e =>
        rw [hr₃] at hprec
        cases hprec with
        | short hlen => exact .short (by omega)
      | ok r₃ =>
        rw [hr₃] at hprec
        cases hprec with
        | @ok precision j₃ args₃ hle₃ hj₃ htaken₃ =>
          obtain ⟨c,length,j₄,hlength,hle₄,hj₄,hread₄⟩ := scan_length_ok (at_drop hj₃) false
          change Directs f i 3 args (scan_length f j₃ false >>= _)
          rw [hlength]
          change Directs f i 3 args (conversion strs c length j₄ flags width precision color args₃)
          have hconv := conversion_directs strs length flags (i := i) (by omega) hread₄ hj₄ width
            precision color args₃
          cases hr₅ : conversion strs c length j₄ flags width precision color args₃ with
          | error e =>
            rw [hr₅] at hconv
            cases hconv with
            | short hlen => exact .short (by omega)
          | ok d =>
            rw [hr₅] at hconv
            cases hconv with
            | ok lower upper taken clean => exact .ok lower upper (by omega) clean

end WeensyOS.Directives
