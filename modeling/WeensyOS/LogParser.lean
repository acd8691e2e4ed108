import WeensyOS.LogDumps
import Mathlib.Data.List.DropRight

/-!
# Reading the log

`MemMapTimeline` of parse_log.py. A Python string is the list of its
characters, and what the script raises is the error of its functions.
-/

set_option autoImplicit false

namespace WeensyOS.LogParser
open WeensyOS.TextCursors WeensyOS.Printer WeensyOS.Directives WeensyOS.PlainFormats
open WeensyOS.LogDumps

abbrev Str := List Char

inductive Exc where
  | AssertionError
  | IndexError
  | UnicodeDecodeError
  | ValueError
deriving DecidableEq, Repr

section Python

/-- The character of an ASCII byte. -/
def asChar (c : UInt8) : Char := Char.ofNat c.toNat

/-- The encoding that `open` decodes a file with. A character of ASCII stands for itself, and no
other character goes on behind a newline. -/
structure Encoding where
  decode : List UInt8 → Option Str
  decode_nil : decode [] = some []
  decode_ascii : ∀ (c : UInt8) (l : List UInt8), c < 128 →
    decode (c :: l) = (decode l).map (asChar c :: ·)
  decode_line : ∀ x l : List UInt8, decode (x++ascii '\n' :: l) =
    (decode (x++[ascii '\n'])).bind fun text => (decode l).map (text++·)

/-- Newlines of any kind become `\n` in text mode. -/
def translate : Str → Str
  | [] => []
  | '\r' :: '\n' :: l => '\n' :: translate l
  | '\r' :: l => '\n' :: translate l
  | c :: l => c :: translate l

/-- The lines of a text, each with its newline. -/
def readlines : Str → List Str
  | [] => []
  | c :: l =>
    if c = '\n' then [c] :: readlines l
    else match readlines l with
      | [] => [[c]]
      | line :: lines => (c :: line) :: lines

/-- `list(filter(bool, line.split(' ')))` -/
def words (line : Str) : List Str := (line.splitOn ' ').filter (· ≠ [])

/-- The blanks that `int` strips from an ASCII string. -/
def isspace (c : Char) : Bool := c = ' ' ∨ (9 ≤ c.toNat ∧ c.toNat ≤ 13)

/-- The number that a row of decimal digits denotes. -/
def digitsValue (s : Str) : ℕ := s.foldl (fun n c => 10*n+(c.toNat-48)) 0

/-- A sign and the text behind it. -/
def sign : Str → ℤ × Str
  | '-' :: s => (-1,s)
  | '+' :: s => (1,s)
  | s => (1,s)

/-- `int` of a string: digits in groups, with a sign and blanks around. The blanks and digits of
other scripts are left out. -/
def int (s : Str) : Except Exc ℤ :=
  let (sign,s) := sign ((s.dropWhile isspace).rdropWhile isspace)
  let groups := s.splitOn '_'
  if ∀ g ∈ groups, g ≠ [] ∧ ∀ c ∈ g, c.isDigit then .ok (sign*digitsValue groups.flatten)
  else .error .ValueError

/-- `assert` -/
def pyassert (c : Prop) [Decidable c] : Except Exc Unit :=
  if c then .ok () else .error .AssertionError

/-- `l[i]` -/
def index {α : Type} (l : List α) (i : ℕ) : Except Exc α :=
  match l[i]? with
  | some x => .ok x
  | none => .error .IndexError

/-- `l[a:b]` -/
def slice {α : Type} (l : List α) (a b : ℕ) : List α := (l.drop a).take (b-a)

end Python

section Source

def PM_PREFIX : Str := ['P','M','_','D','U','M','P']
def VM_PREFIX : Str := ['V','M','_','D','U','M','P']

/-- `'PANIC: Unexpected exception 52!'` -/
def PANIC_PREFIX : Str :=
  ['P','A','N','I','C',':',' ','U','n','e','x','p','e','c','t','e','d',' ',
    'e','x','c','e','p','t','i','o','n',' ','5','2','!']

structure PMEntry where
  owner : ℤ
  refcount : ℤ
deriving DecidableEq, Repr

structure VMEntry where
  owner : ℤ
  refcount : ℤ
  ua : ℤ
  perm : ℤ
deriving DecidableEq, Repr

def PTE_U : ℤ := 4

/-- The two attributes that `__init__` sets. -/
@[ext]
structure MemMapInstance where
  pm_state : Option (List PMEntry) := none
  vm_state : ℤ → Option (List VMEntry) := fun _ => none

namespace MemMapInstance

def set_pm_state (self : MemMapInstance) (pm_state : List PMEntry) : Except Exc MemMapInstance := do
  pyassert (self.pm_state = none)
  .ok { self with pm_state := some pm_state }

def add_vm_state (self : MemMapInstance) (process_id : ℤ) (vm_state : List VMEntry) :
    Except Exc MemMapInstance := do
  pyassert (self.vm_state process_id = none)
  .ok { self with vm_state := Function.update self.vm_state process_id (some vm_state) }

end MemMapInstance

structure MemMapTimeline where
  mem_data : ℤ → Option MemMapInstance := fun _ => none
  panic : Bool := false

/-- `PMEntry` of the page `i` -/
def pm_entry (line_split : List Str) (i : ℕ) : Except Exc PMEntry :=
  match slice line_split (2*i+2) (2*i+4) with
  | [owner,refcount] => do
    let owner ← int owner
    let refcount ← int refcount
    .ok ⟨owner,refcount⟩
  | _ => .error .ValueError

/-- `VMEntry` of the page `i` -/
def vm_entry (line_split : List Str) (i : ℕ) : Except Exc VMEntry :=
  match slice line_split (3*i+3) (3*i+6) with
  | [owner,refcount,perm] => do
    let owner ← int owner
    let refcount ← int refcount
    let perm ← int perm
    .ok ⟨owner,refcount,Int.land perm PTE_U,perm⟩
  | _ => .error .ValueError

namespace MemMapTimeline

/-- `self.mem_data[tick]`, which `defaultdict` makes on demand. -/
def item (self : MemMapTimeline) (tick : ℤ) : MemMapInstance := (self.mem_data tick).getD {}

def setItem (self : MemMapTimeline) (tick : ℤ) (data : MemMapInstance) : MemMapTimeline :=
  { self with mem_data := Function.update self.mem_data tick (some data) }

theorem item_setItem (self : MemMapTimeline) (tick : ℤ) (data : MemMapInstance) :
    (self.setItem tick data).item tick = data := by
  change (Function.update self.mem_data tick (some data) tick).getD {} = data
  rw [Function.update_self, Option.getD_some]

theorem setItem_setItem (self : MemMapTimeline) (tick : ℤ) (data data' : MemMapInstance) :
    (self.setItem tick data).setItem tick data' = self.setItem tick data' := by
  rw [setItem, setItem, setItem]
  simp only [Function.update_idem]

/-- A line that starts with `PM_PREFIX`. -/
def read_pm (self : MemMapTimeline) (line : Str) : Except Exc MemMapTimeline := do
  let line_split := words line
  pyassert ((line_split.length : ℤ)-3 = 512*2)
  let tick ← index line_split 1
  let tick ← int tick
  let data ← (List.range 512).mapM (pm_entry line_split)
  let data ← (self.item tick).set_pm_state data
  .ok (self.setItem tick data)

/-- A line that starts with `VM_PREFIX`. -/
def read_vm (self : MemMapTimeline) (line : Str) : Except Exc MemMapTimeline := do
  let line_split := words line
  pyassert ((line_split.length : ℤ)-4 = 768*3)
  let process_id ← index line_split 1
  let process_id ← int process_id
  let tick ← index line_split 2
  let tick ← int tick
  let data ← (List.range 768).mapM (vm_entry line_split)
  let data ← (self.item tick).add_vm_state process_id data
  .ok (self.setItem tick data)

def read_line (self : MemMapTimeline) (line : Str) : Except Exc MemMapTimeline :=
  if PM_PREFIX <+: line then self.read_pm line
  else if VM_PREFIX <+: line then self.read_vm line
  else if PANIC_PREFIX <+: line then .ok { self with panic := true }
  else .ok self

/-- `__init__`, on the bytes of the log file. -/
def init (E : Encoding) (log_file : List UInt8) : Except Exc MemMapTimeline :=
  match E.decode log_file with
  | none => .error .UnicodeDecodeError
  | some text => (readlines (translate text)).foldlM read_line {}

end MemMapTimeline
end Source

section Lines

variable {line : Str}

theorem translate_plain {text : Str} (h : '\r' ∉ text) : translate text = text := by
  fun_induction translate text with
  | case1 => rfl
  | case2 l ih => exact absurd List.mem_cons_self h
  | case3 l hl ih => exact absurd List.mem_cons_self h
  | case4 c l h₁ h₂ ih => rw [ih fun hmem => h (List.mem_cons_of_mem _ hmem)]

/-- The first line ends at the first newline. -/
theorem readlines_line (h : '\n' ∉ line) (text : Str) :
    readlines (line++('\n' :: text)) = (line++['\n']) :: readlines text := by
  induction line with
  | nil => rw [List.nil_append, readlines, if_pos rfl, List.nil_append]
  | cons c line ih =>
    rw [List.mem_cons, not_or] at h
    rw [List.cons_append, readlines, if_neg (Ne.symm h.1), ih h.2]
    rfl

/-- Words with a blank behind each are read back, apart from the empty ones. The newline is the
last word. -/
theorem words_line {ws : List Str} (h : ∀ w ∈ ws, ' ' ∉ w) :
    words (ws.flatMap (·++[' '])++['\n']) = ws.filter (· ≠ [])++[['\n']] := by
  have hsplit : (ws.flatMap (·++[' '])++['\n']).splitOn ' ' = ws++[['\n']] := by
    induction ws with
    | nil =>
      rw [List.flatMap_nil, List.nil_append, List.nil_append]
      exact List.splitOn_eq_singleton (by decide)
    | cons w ws ih =>
      have hw := h w List.mem_cons_self
      have hline : (w :: ws).flatMap (·++[' '])++['\n'] =
          w++(' ' :: (ws.flatMap (·++[' '])++['\n'])) := by
        simp
      rw [hline, List.splitOn_append_cons_self_of_not_mem hw,
        ih fun v hv => h v (List.mem_cons_of_mem _ hv)]
      rfl
  rw [words, hsplit, List.filter_append]
  rfl

theorem flatMap_length {α : Type} {n k : ℕ} {g : ℕ → List α} (hg : ∀ j, (g j).length = k) :
    ((List.range n).flatMap g).length = n*k := by
  rw [List.length_flatMap, List.map_congr_left fun j _ => hg j]
  simp

/-- A part of a list made of pieces of one length. -/
theorem slice_pieces {α : Type} {g : ℕ → List α} {k n i : ℕ} (hg : ∀ j, (g j).length = k)
    (hi : i < n) (pre post : List α) :
    slice (pre++(List.range n).flatMap g++post) (k*i+pre.length) (k*i+pre.length+k) = g i := by
  obtain ⟨m,rfl⟩ := Nat.exists_eq_add_of_lt hi
  have hsplit : (List.range (i+m+1)).flatMap g = (List.range i).flatMap g++
      (g i++((List.range m).map fun j => i+(j+1)).flatMap g) := by
    have hsize : i+m+1 = i+(m+1) := rfl
    rw [hsize, List.range_add, List.flatMap_append, List.range_succ_eq_map, List.map_cons,
      List.flatMap_cons, Nat.add_zero, List.map_map]
    rfl
  have hdrop : k*i+pre.length = (pre++(List.range i).flatMap g).length := by
    rw [List.length_append, flatMap_length hg, Nat.add_comm, Nat.mul_comm]
  rw [slice, hsplit, Nat.add_sub_cancel_left, hdrop]
  simp only [← List.append_assoc]
  rw [List.append_assoc, List.append_assoc, List.drop_left, ← hg i, List.take_left]

theorem mapM_ok {α β : Type} {step : α → Except Exc β} {g : α → β} (l : List α)
    (h : ∀ x ∈ l, step x = .ok (g x)) : l.mapM step = .ok (l.map g) := by
  induction l with
  | nil => rfl
  | cons x l ih =>
    rw [List.mapM_cons, h x List.mem_cons_self, ok_bind,
      ih fun y hy => h y (List.mem_cons_of_mem _ hy), ok_bind]
    rfl

end Lines

section Numerals

/-- The characters of a row of ASCII bytes. -/
def str (l : List UInt8) : Str := l.map asChar

theorem digit_char : ∀ d < 10, (asChar (digitsOf 10 d)).toNat = 48+d ∧
    (asChar (digitsOf 10 d)).isDigit = true ∧ asChar (digitsOf 10 d) ≠ '_' ∧
    asChar (digitsOf 10 d) ≠ '-' ∧ asChar (digitsOf 10 d) ≠ '+' ∧
    asChar (digitsOf 10 d) ≠ ' ' ∧ isspace (asChar (digitsOf 10 d)) = false := by decide +kernel

variable {v : ℕ}

theorem decimal_char {c : Char} (h : c ∈ str (decimalText v)) :
    ∃ d < 10, c = asChar (digitsOf 10 d) := by
  obtain ⟨b,hb,rfl⟩ := List.mem_map.1 h
  obtain ⟨d,hd,rfl⟩ := numeral_mem (by decide) hb
  exact ⟨d,hd,rfl⟩

theorem decimal_value (v : ℕ) : digitsValue (str (decimalText v)) = v := by
  induction v using Nat.strong_induction_on with
  | _ v ih =>
    by_cases h : v < 10
    · have hd := (digit_char v h).1
      rw [decimalText, numeral_small h, digitsValue, str, List.map_singleton, List.foldl_cons,
        List.foldl_nil, hd]
      omega
    · have hd := (digit_char (v % 10) (Nat.mod_lt _ (by decide))).1
      have hrest := ih (v/10) (by omega)
      rw [decimalText, digitsValue] at hrest
      rw [decimalText, numeral_step (by decide) (Nat.le_of_not_lt h), digitsValue, str,
        List.map_append, List.foldl_append, ← str, hrest, List.map_singleton, List.foldl_cons,
        List.foldl_nil, hd]
      omega

theorem decimal_nonempty (v : ℕ) : str (decimalText v) ≠ [] := by
  intro h
  have hv := decimal_value v
  rw [h] at hv
  subst hv
  exact absurd h (by decide +kernel)

/-- What the kernel prints as a decimal number is read as that number. -/
theorem int_decimal (v : ℕ) : int (str (decimalText v)) = .ok v := by
  have hfacts : ∀ c ∈ str (decimalText v), c.isDigit = true ∧ c ≠ '_' ∧ c ≠ '-' ∧ c ≠ '+' ∧
      isspace c = false := by
    intro c hc
    obtain ⟨d,hd,rfl⟩ := decimal_char hc
    obtain ⟨-,h₁,h₂,h₃,h₄,-,h₅⟩ := digit_char d hd
    exact ⟨h₁,h₂,h₃,h₄,h₅⟩
  have hstrip : ((str (decimalText v)).dropWhile isspace).rdropWhile isspace =
      str (decimalText v) := by
    have hfirst : (str (decimalText v)).dropWhile isspace = str (decimalText v) := by
      rw [List.dropWhile_eq_self_iff]
      intro hlen
      simp [(hfacts _ (List.getElem_mem hlen)).2.2.2.2]
    rw [hfirst, List.rdropWhile_eq_self_iff]
    intro hne
    simp [(hfacts _ (List.getLast_mem hne)).2.2.2.2]
  have hsign : sign (str (decimalText v)) = (1,str (decimalText v)) := by
    rcases hs : str (decimalText v) with _ | ⟨c,s⟩
    · rfl
    · obtain ⟨-,-,hminus,hplus,-⟩ := hfacts c (hs ▸ List.mem_cons_self)
      rw [sign]
      · intro s' h
        exact hminus (List.cons.inj h).1
      · intro s' h
        exact hplus (List.cons.inj h).1
  have hgroups : (str (decimalText v)).splitOn '_' = [str (decimalText v)] :=
    List.splitOn_eq_singleton fun h => (hfacts _ h).2.1 rfl
  rw [int]
  simp only [hstrip, hsign, hgroups]
  rw [if_pos, List.flatten_singleton, decimal_value, one_mul]
  intro g hg
  rw [List.mem_singleton] at hg
  subst hg
  exact ⟨decimal_nonempty v,fun c hc => (hfacts c hc).1⟩

end Numerals
end WeensyOS.LogParser
