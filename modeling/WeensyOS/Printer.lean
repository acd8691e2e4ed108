import WeensyOS.TextCursors

/-!
# printer_vprintf

The formatter of lib.c. Format strings and string arguments are texts, a
`va_list` is the list of its 64-bit words, and `int` arithmetic wraps. A printer
is any function that takes a character and its color.
-/

set_option autoImplicit false

namespace WeensyOS.Printer
open WeensyOS.TextCursors

/-- What a run can do that C leaves undefined. -/
inductive Fault where
  | format     -- a read behind the NUL of the format
  | arguments  -- more `va_arg` than arguments
  | numbuf     -- a write before the first byte of `numbuf`
deriving DecidableEq, Repr

/-- An `int` after arithmetic. -/
def int32 (x : ℤ) : ℤ := Int.bmod x (2^32)

/-- A `long` after arithmetic. -/
def int64 (x : ℤ) : ℤ := Int.bmod x (2^64)

def ascii (c : Char) : UInt8 := c.toNat.toUInt8

def isdigit (c : UInt8) : Prop := ascii '0' ≤ c ∧ c ≤ ascii '9'

instance (c : UInt8) : Decidable (isdigit c) := inferInstanceAs (Decidable (_ ∧ _))

def va_arg : List UInt64 → Except Fault (UInt64 × List UInt64)
  | [] => .error .arguments
  | w :: args => .ok (w,args)

/-- `va_arg` at type `int`. -/
def va_int (args : List UInt64) : Except Fault (ℤ × List UInt64) := do
  let (w,args) ← va_arg args
  .ok (int32 w.toNat,args)

section Numbers

abbrev NUMBUFSIZ : ℕ := 24

def upper_digits : List UInt8 :=
  ['0','1','2','3','4','5','6','7','8','9','A','B','C','D','E','F'].map ascii

def lower_digits : List UInt8 :=
  ['0','1','2','3','4','5','6','7','8','9','a','b','c','d','e','f'].map ascii

/-- The digit loop of `fill_numbuf`, with the bytes left in the buffer. -/
def fill_digits (digits : List UInt8) (base : UInt64) :
    ℕ → UInt64 → List UInt8 → Except Fault (List UInt8)
  | 0, _, _ => .error .numbuf
  | room+1, val, data =>
    let data := digits.getD (val % base).toNat 0 :: data
    let val := val/base
    if val ≠ 0 then fill_digits digits base room val data else .ok data

/-- The last byte of the buffer takes the NUL. A negative base asks for lower case. -/
def fill_numbuf (val : UInt64) (base : ℤ) : Except Fault (List UInt8) :=
  let digits := if base < 0 then lower_digits else upper_digits
  let base := if base < 0 then -base else base
  fill_digits digits (UInt64.ofInt base) (NUMBUFSIZ-1) val []

end Numbers

/-- The bits of `flags`. -/
structure Flags where
  alt : Bool := false
  zero : Bool := false
  leftjustify : Bool := false
  spacepositive : Bool := false
  pluspositive : Bool := false
  numeric : Bool := false
  signed : Bool := false
  negative : Bool := false
  alt2 : Bool := false
deriving DecidableEq, Repr

section Scanning

/-- The flag at the position of `c` in `flag_chars`. -/
def set_flag (c : UInt8) (flags : Flags) : Option Flags :=
  if c = ascii '#' then some { flags with alt := true }
  else if c = ascii '0' then some { flags with zero := true }
  else if c = ascii '-' then some { flags with leftjustify := true }
  else if c = ascii ' ' then some { flags with spacepositive := true }
  else if c = ascii '+' then some { flags with pluspositive := true }
  else none

abbrev read (f : List UInt8) (i : ℕ) : Except Fault UInt8 := peek .format f i

def scan_flags (f : List UInt8) (i : ℕ) (flags : Flags) : Except Fault (Flags × ℕ) :=
  match _ : read f i with
  | .error e => .error e
  | .ok c =>
    if _ : c ≠ 0 then
      match set_flag c flags with
      | some flags => scan_flags f (i+1) flags
      | none => .ok (flags,i)
    else .ok (flags,i)
termination_by f.length-i
decreasing_by
  have hi := peek_lt ‹read f i = .ok _› ‹_›
  omega

theorem isdigit_ne (c : UInt8) (h : isdigit c) : c ≠ 0 := by
  rintro rfl
  exact absurd h (by decide)

/-- `for (n = 0; isdigit(*format); ) n = 10*n + *format++ - '0'` -/
def scan_digits (f : List UInt8) (i : ℕ) (n : ℤ) : Except Fault (ℤ × ℕ) :=
  match h : read f i with
  | .error e => .error e
  | .ok c =>
    if hc : isdigit c then scan_digits f (i+1) (int32 (10*n+c.toNat-(ascii '0').toNat))
    else .ok (n,i)
termination_by f.length-i
decreasing_by
  have hi := peek_lt h (isdigit_ne c hc)
  omega

def scan_width (f : List UInt8) (i : ℕ) (args : List UInt64) :
    Except Fault (ℤ × ℕ × List UInt64) := do
  let c ← read f i
  if ascii '1' ≤ c ∧ c ≤ ascii '9' then do
    let (width,i) ← scan_digits f i 0
    .ok (width,i,args)
  else if c = ascii '*' then do
    let (width,args) ← va_int args
    .ok (width,i+1,args)
  else .ok (-1,i,args)

/-- What follows the `.` of a precision. -/
def scan_count (f : List UInt8) (i : ℕ) (args : List UInt64) :
    Except Fault (ℤ × ℕ × List UInt64) := do
  let c ← read f i
  if isdigit c then do
    let (precision,i) ← scan_digits f i 0
    .ok (precision,i,args)
  else if c = ascii '*' then do
    let (precision,args) ← va_int args
    .ok (precision,i+1,args)
  else .ok (-1,i,args)

def scan_precision (f : List UInt8) (i : ℕ) (args : List UInt64) :
    Except Fault (ℤ × ℕ × List UInt64) := do
  let c ← read f i
  if c = ascii '.' then do
    let (precision,i,args) ← scan_count f (i+1) args
    .ok (if precision < 0 then 0 else precision,i,args)
  else .ok (-1,i,args)

/-- `goto again` for `l` and `z`, up to the conversion character. -/
def scan_length (f : List UInt8) (i : ℕ) (length : Bool) : Except Fault (UInt8 × Bool × ℕ) :=
  match h : read f i with
  | .error e => .error e
  | .ok c =>
    if hc : c = ascii 'l' ∨ c = ascii 'z' then scan_length f (i+1) true
    else .ok (c,length,i)
termination_by f.length-i
decreasing_by
  have hi := peek_lt h (by rintro rfl; revert hc; decide)
  omega

end Scanning

/-- What the `switch` leaves for the output. -/
structure Item where
  flags : Flags
  base : ℤ := 10
  num : UInt64 := 0
  data : List UInt8 := []

/-- The string in `numbuf` after a character and a NUL. -/
def charbuf (c : UInt8) : List UInt8 := if c = 0 then [] else [c]

/-- What an unknown conversion prints: itself, or `%` at the NUL. -/
def shown_char (c : UInt8) : UInt8 := if c ≠ 0 then c else ascii '%'

/-- The string that `data` points to after the `switch`. -/
def Item.text (item : Item) : Except Fault (List UInt8) :=
  if item.flags.numeric then fill_numbuf item.num item.base else .ok item.data

section Conversion

variable (strs : UInt64 → Text)

def convert_signed (length : Bool) (flags : Flags) (args : List UInt64) :
    Except Fault (Item × List UInt64) := do
  let (w,args) ← va_arg args
  let x := if length then int64 w.toNat else int32 w.toNat
  let negative := decide (x < 0)
  let num := UInt64.ofInt (if negative then -x else x)
  .ok ({ flags := { flags with numeric := true, signed := true, negative }, num },args)

def convert_unsigned (length : Bool) (base : ℤ) (flags : Flags) (args : List UInt64) :
    Except Fault (Item × List UInt64) := do
  let (w,args) ← va_arg args
  let num := if length then w else UInt64.ofNat (w.toNat % 2^32)
  .ok ({ flags := { flags with numeric := true }, base, num },args)

/-- The `switch` on the conversion character, without `C`. -/
def convert (c : UInt8) (length : Bool) (flags : Flags) (args : List UInt64) :
    Except Fault (Item × List UInt64) :=
  if c = ascii 'd' ∨ c = ascii 'i' then convert_signed length flags args
  else if c = ascii 'u' then convert_unsigned length 10 flags args
  else if c = ascii 'x' then convert_unsigned length (-16) flags args
  else if c = ascii 'X' then convert_unsigned length 16 flags args
  else if c = ascii 'p' then do
    let (w,args) ← va_arg args
    .ok ({ flags := { flags with alt := true, alt2 := true, numeric := true }
           base := -16
           num := w },args)
  else if c = ascii 's' then do
    let (w,args) ← va_arg args
    .ok ({ flags, data := strs w },args)
  else if c = ascii 'c' then do
    let (w,args) ← va_arg args
    .ok ({ flags, data := charbuf w.toUInt8 },args)
  else .ok ({ flags, data := charbuf (shown_char c) },args)

end Conversion

section Layout

def prefix_of (flags : Flags) (base : ℤ) (num : UInt64) : List UInt8 :=
  if flags.numeric ∧ flags.signed then
    if flags.negative then [ascii '-']
    else if flags.pluspositive then [ascii '+']
    else if flags.spacepositive then [ascii ' ']
    else []
  else if flags.numeric ∧ flags.alt ∧ (base = 16 ∨ base = -16) ∧ (num ≠ 0 ∨ flags.alt2) then
    [ascii '0',if base = -16 then ascii 'x' else ascii 'X']
  else []

def strlen (data : List UInt8) : ℤ := data.length

def strnlen (data : List UInt8) (maxlen : ℤ) : ℤ := min data.length maxlen

def text_len (flags : Flags) (precision : ℤ) (data : List UInt8) : ℤ :=
  int32 (if 0 ≤ precision ∧ ¬flags.numeric then strnlen data precision else strlen data)

def zero_count (flags : Flags) (width precision len plen : ℤ) : ℤ :=
  if flags.numeric ∧ 0 ≤ precision then if len < precision then precision-len else 0
  else if flags.numeric ∧ flags.zero ∧ ¬flags.leftjustify ∧ int32 (len+plen) < width then
    int32 (width-len-plen)
  else 0

/-- `for (; n > 0; --n) putc(c)` -/
def repeated (n : ℤ) (c : UInt8) : List UInt8 := List.replicate n.toNat c

/-- The characters of one conversion, in the order of the output loops. -/
def layout (flags : Flags) (width precision : ℤ) (pre data : List UInt8) : List UInt8 :=
  let len := text_len flags precision data
  let zeros := zero_count flags width precision len (strlen pre)
  let width := int32 (width-(len+zeros+strlen pre))
  let spaces := if flags.leftjustify then [] else repeated width (ascii ' ')
  let width := width-spaces.length
  spaces++pre++repeated zeros (ascii '0')++data.take len.toNat++repeated width (ascii ' ')

end Layout

section Main

/-- One `%` directive: the format pointer at `done`, and what it prints. -/
structure Directive where
  next : ℕ
  color : ℤ
  args : List UInt64
  text : List UInt8

variable (strs : UInt64 → Text)

/-- A directive cut short by the NUL leaves the pointer before it. -/
def step_back (c : UInt8) (i : ℕ) : ℕ := if c = 0 then i-1 else i

/-- From the conversion character to `done`. -/
def conversion (c : UInt8) (length : Bool) (i : ℕ) (flags : Flags) (width precision color : ℤ)
    (args : List UInt64) : Except Fault Directive :=
  if c = ascii 'C' then do
    let (color,args) ← va_int args
    .ok ⟨i,color,args,[]⟩
  else do
    let (item,args) ← convert strs c length flags args
    let data ← item.text
    let pre := prefix_of item.flags item.base item.num
    .ok ⟨step_back c i,color,args,layout item.flags width precision pre data⟩

/-- The loop body at a `%`. -/
def directive (f : List UInt8) (i : ℕ) (color : ℤ) (args : List UInt64) :
    Except Fault Directive := do
  let (flags,i) ← scan_flags f (i+1) {}
  let (width,i,args) ← scan_width f i args
  let (precision,i,args) ← scan_precision f i args
  let (c,length,i) ← scan_length f i false
  conversion strs c length i flags width precision color args

end Main

end WeensyOS.Printer
