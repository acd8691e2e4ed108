import Mathlib.Data.Nat.Bitwise
import Mathlib.Algebra.Group.Nat.Even
import Mathlib.Data.List.Basic

/-!
# The keyboard

`keyboard_readc` turns the bytes of the keyboard into characters. What it keeps
between calls says which modifier keys are held down and which locks are on,
after any sequence of bytes.
-/

set_option autoImplicit false

namespace WeensyOS.Keyboard

section Source

def MOD_SHIFT : ℕ := 1 <<< 0
def MOD_CONTROL : ℕ := 1 <<< 1
def MOD_CAPSLOCK : ℕ := 1 <<< 3

def KEY_SHIFT : ℕ := 0o372
def KEY_CONTROL : ℕ := 0o373
def KEY_ALT : ℕ := 0o374
def KEY_CAPSLOCK : ℕ := 0o375
def KEY_NUMLOCK : ℕ := 0o376
def KEY_SCROLLLOCK : ℕ := 0o377

def KEY_UP : ℕ := 0o300
def KEY_RIGHT : ℕ := 0o301
def KEY_DOWN : ℕ := 0o302
def KEY_LEFT : ℕ := 0o303
def KEY_HOME : ℕ := 0o304
def KEY_END : ℕ := 0o305
def KEY_PAGEUP : ℕ := 0o306
def KEY_PAGEDOWN : ℕ := 0o307
def KEY_INSERT : ℕ := 0o310
def KEY_DELETE : ℕ := 0o311

def CKEY (cn : ℕ) : ℕ := 0x80+cn

/-- Characters as the numbers of their codes. -/
def codes (l : List Char) : List ℕ := l.map Char.toNat

def zeros (n : ℕ) : List ℕ := List.replicate n 0

/-- 33 is the escape character, 8 the backspace and 9 the tab. -/
def keymap : List ℕ :=
  [0,0o33,CKEY 0,CKEY 1,CKEY 2,CKEY 3,CKEY 4,CKEY 5,
    CKEY 6,CKEY 7,CKEY 8,CKEY 9,CKEY 10,CKEY 11,8,9]++
  codes ['q','w','e','r','t','y','u','i','o','p']++
  [CKEY 12,CKEY 13,CKEY 14,KEY_CONTROL]++codes ['a','s']++
  codes ['d','f','g','h','j','k','l']++[CKEY 15,CKEY 16,CKEY 17,KEY_SHIFT,CKEY 18]++
  codes ['z','x','c','v']++
  codes ['b','n','m']++[CKEY 19,CKEY 20,CKEY 21,KEY_SHIFT]++codes ['*']++
  [KEY_ALT]++codes [' ']++[KEY_CAPSLOCK]++zeros 5++
  zeros 5++[KEY_NUMLOCK,KEY_SCROLLLOCK]++codes ['7','8','9','-','4','5','6','+','1']++
  codes ['2','3','0','.']++zeros 12++
  zeros 16++
  zeros 16++
  zeros 16++
  zeros 12++[CKEY 14,KEY_CONTROL]++zeros 2++
  zeros 16++
  zeros 5++codes ['/']++zeros 2++[KEY_ALT]++zeros 7++
  zeros 7++[KEY_HOME,KEY_UP,KEY_PAGEUP,0,KEY_LEFT,0,KEY_RIGHT,0,KEY_END]++
  [KEY_DOWN,KEY_PAGEDOWN,KEY_INSERT,KEY_DELETE]++zeros 12++
  zeros 16++
  zeros 16

/-- A character that depends on the modifiers. 39 is the apostrophe, 34 the double quote, 96 the
grave accent, 92 the backslash, 10 the newline and 13 the carriage return. -/
def complex_keymap : List (List ℕ) :=
  [codes ['1','!']++[0,0],codes ['2','@']++[0,0],codes ['3','#']++[0,0],codes ['4','$']++[0,0],
    codes ['5','%']++[0,0],codes ['6','^']++[0,0o36],codes ['7','&']++[0,0],
    codes ['8','*']++[0,0],codes ['9','(']++[0,0],codes ['0',')']++[0,0],
    codes ['-','_']++[0,0o37],codes ['=','+']++[0,0],codes ['[','{']++[0o33,0],
    codes [']','}']++[0o35,0],[10,10,13,13],codes [';',':']++[0,0],[39,34,0,0],
    [96]++codes ['~']++[0,0],[92]++codes ['|']++[0o34,0],codes [',','<']++[0,0],
    codes ['.','>']++[0,0],codes ['/','?']++[0,0]]

/-- The static variables of `keyboard_readc`. -/
structure KeyState where
  modifiers : ℕ := 0
  last_escape : ℕ := 0
deriving DecidableEq, Repr

/-- A key that goes down, for its entry in `keymap`. -/
def key_press (ch : ℕ) (k : KeyState) : Option (ℤ × KeyState) :=
  if 'a'.toNat ≤ ch ∧ ch ≤ 'z'.toNat then
    if k.modifiers &&& MOD_CONTROL ≠ 0 then some (ch-0x60,k)
    else if ¬(k.modifiers &&& MOD_SHIFT = 0 ↔ k.modifiers &&& MOD_CAPSLOCK = 0) then
      some (ch-0x20,k)
    else some (ch,k)
  else if KEY_CAPSLOCK ≤ ch then
    some (0,{ k with modifiers := k.modifiers ^^^ 1 <<< (ch-KEY_SHIFT) })
  else if KEY_SHIFT ≤ ch then
    some (0,{ k with modifiers := k.modifiers ||| 1 <<< (ch-KEY_SHIFT) })
  else if CKEY 0 ≤ ch ∧ ch ≤ CKEY 21 then do
    let map ← complex_keymap[ch-CKEY 0]?
    let ch ← map[k.modifiers &&& 3]?
    some (ch,k)
  else if ch < 0x80 ∧ k.modifiers &&& MOD_CONTROL ≠ 0 then some (0,k)
  else some (ch,k)

/-- A key that goes up. -/
def key_release (ch : ℕ) (k : KeyState) : KeyState :=
  if KEY_SHIFT ≤ ch ∧ ch < KEY_CAPSLOCK then
    { k with modifiers := k.modifiers &&& (0xFF ^^^ 1 <<< (ch-KEY_SHIFT)) }
  else k

/-- `data` is what the port holds if the keyboard is ready. No value stands for a read outside one
of the tables. -/
def keyboard_readc (data : Option UInt8) (k : KeyState) : Option (ℤ × KeyState) :=
  match data with
  | none => some (-1,k)
  | some data =>
    let escape := k.last_escape
    let k := { k with last_escape := 0 }
    if data = 0xE0 then some (0,{ k with last_escape := 0x80 })
    else if data.toNat &&& 0x80 ≠ 0 then do
      let ch ← keymap[(data.toNat &&& 0x7F) ||| escape]?
      some (0,key_release ch k)
    else do
      let ch ← keymap[data.toNat ||| escape]?
      key_press ch k

end Source

/-- What the keyboard has reported about a key. -/
inductive Stroke where
  | press (key : ℕ)
  | release (key : ℕ)

def keyCode (key : ℕ) : ℕ := keymap.getD key 0

/-- A modifier key is down: the last that was heard of its kind is a press. -/
def Held (code : ℕ) (l : List Stroke) : Prop :=
  ∃ before key after, l = before++.press key :: after ∧ keyCode key = code ∧
    ∀ key', .release key' ∈ after → keyCode key' ≠ code

/-- A lock is on: its key has gone down an odd number of times. -/
def Locked (code : ℕ) (l : List Stroke) : Prop :=
  Odd (l.countP fun x => match x with
    | .press key => keyCode key = code
    | .release _ => false)

/-- The strokes that bytes report, where the last byte before them was an escape or not. -/
def strokes : ℕ → List UInt8 → List Stroke
  | _, [] => []
  | escape, data :: bytes =>
    if data = 0xE0 then strokes 0x80 bytes
    else if data.toNat &&& 0x80 ≠ 0 then
      .release ((data.toNat &&& 0x7F) ||| escape) :: strokes 0 bytes
    else .press (data.toNat ||| escape) :: strokes 0 bytes

section Strokes

variable {l : List Stroke} {code key : ℕ}

theorem held_nil (code : ℕ) : ¬Held code [] := by
  rintro ⟨before,key,after,h,-⟩
  exact List.cons_ne_nil _ _ (List.append_eq_nil_iff.1 h.symm).2

theorem held_press : Held code (l++[.press key]) ↔ keyCode key = code ∨ Held code l := by
  constructor
  · rintro ⟨before,key₀,after,h,hcode,hafter⟩
    rcases List.eq_nil_or_concat' after with rfl | ⟨after,x,rfl⟩
    · obtain ⟨-,hlast⟩ := List.append_inj' h rfl
      cases hlast
      exact Or.inl hcode
    · rw [← List.cons_append, ← List.append_assoc] at h
      obtain ⟨rfl,-⟩ := List.append_inj' h rfl
      exact Or.inr ⟨before,key₀,after,rfl,hcode,fun key' h => hafter key' (List.mem_append_left _ h)⟩
  · rintro (hcode | ⟨before,key₀,after,rfl,hcode,hafter⟩)
    · exact ⟨l,key,[],rfl,hcode,fun key' h => absurd h List.not_mem_nil⟩
    · refine ⟨before,key₀,after++[.press key],?_,hcode,fun key' h => ?_⟩
      · rw [List.append_assoc, List.cons_append]
      · rcases List.mem_append.1 h with h | h
        · exact hafter key' h
        · cases List.mem_singleton.1 h

theorem held_release : Held code (l++[.release key]) ↔ keyCode key ≠ code ∧ Held code l := by
  constructor
  · rintro ⟨before,key₀,after,h,hcode,hafter⟩
    rcases List.eq_nil_or_concat' after with rfl | ⟨after,x,rfl⟩
    · obtain ⟨-,hlast⟩ := List.append_inj' h rfl
      cases hlast
    · rw [← List.cons_append, ← List.append_assoc] at h
      obtain ⟨rfl,hlast⟩ := List.append_inj' h rfl
      cases hlast
      exact ⟨hafter key (by simp),before,key₀,after,rfl,hcode,
        fun key' h => hafter key' (List.mem_append_left _ h)⟩
  · rintro ⟨hne,before,key₀,after,rfl,hcode,hafter⟩
    refine ⟨before,key₀,after++[.release key],?_,hcode,fun key' h => ?_⟩
    · rw [List.append_assoc, List.cons_append]
    · rcases List.mem_append.1 h with h | h
      · exact hafter key' h
      · cases List.mem_singleton.1 h
        exact hne

theorem locked_nil (code : ℕ) : ¬Locked code [] := by
  rw [Locked, List.countP_nil]
  decide

theorem locked_press : Locked code (l++[.press key]) ↔ ¬(keyCode key = code ↔ Locked code l) := by
  rw [Locked, Locked, List.countP_append, List.countP_singleton]
  by_cases hcode : keyCode key = code
  · simp [hcode, Nat.odd_add_one]
  · simp [hcode]

theorem locked_release : Locked code (l++[.release key]) ↔ Locked code l := by
  rw [Locked, Locked, List.countP_append, List.countP_singleton]
  simp

end Strokes

section Bits

variable {m j n : ℕ}

theorem bit_set : (m ||| 1 <<< j).testBit n = true ↔ j = n ∨ m.testBit n = true := by
  rw [Nat.testBit_or, Nat.one_shiftLeft, Nat.testBit_two_pow, Bool.or_eq_true, decide_eq_true_iff,
    or_comm]

theorem bit_flip : (m ^^^ 1 <<< j).testBit n = true ↔ ¬(j = n ↔ m.testBit n = true) := by
  rw [Nat.testBit_xor, Nat.one_shiftLeft, Nat.testBit_two_pow]
  by_cases hj : j = n
  · cases m.testBit n <;> simp [hj]
  · cases m.testBit n <;> simp [hj]

theorem bit_clear (hn : n < 8) :
    (m &&& (0xFF ^^^ 1 <<< j)).testBit n = true ↔ j ≠ n ∧ m.testBit n = true := by
  have hbyte : ∀ n < 8, Nat.testBit 0xFF n = true := by decide
  rw [Nat.testBit_and, Bool.and_eq_true, bit_flip, hbyte n hn, and_comm]
  simp

theorem bit_test : m &&& 1 <<< n ≠ 0 ↔ m.testBit n = true := by
  rw [Nat.one_shiftLeft, Nat.and_two_pow]
  cases m.testBit n <;> simp

end Bits

section Tables

theorem keyCode_small : ∀ key < 256, keymap[key]? = some (keyCode key) ∧ keyCode key < 256 := by
  decide +kernel

/-- Each of the special characters has its entries. -/
theorem complex_entry : ∀ i < 22, ∀ j < 4, ∃ map, complex_keymap[i]? = some map ∧
    ∃ ch, map[j]? = some ch ∧ ch < 256 := by
  have hall : ∀ i < 22, ∀ j < 4, ∃ ch < 256, complex_keymap[i]?.bind (·[j]?) = some ch := by
    decide +kernel
  intro i hi j hj
  obtain ⟨ch,hch,h⟩ := hall i hi j hj
  obtain ⟨map,hmap,hentry⟩ := Option.bind_eq_some_iff.1 h
  exact ⟨map,hmap,ch,hentry,hch⟩

end Tables

section Tracking

variable {l : List Stroke} {k : KeyState} {key : ℕ}

/-- The static variables after the strokes `l`. -/
structure Tracks (l : List Stroke) (k : KeyState) : Prop where
  escape : k.last_escape = 0 ∨ k.last_escape = 0x80
  held : ∀ n < 3, k.modifiers.testBit n = true ↔ Held (KEY_SHIFT+n) l
  locked : ∀ n, 3 ≤ n → n < 6 → (k.modifiers.testBit n = true ↔ Locked (KEY_SHIFT+n) l)

theorem tracks_start : Tracks [] {} where
  escape := Or.inl rfl
  held n _ := by simp [held_nil]
  locked n _ _ := by simp [locked_nil]

/-- Ordinary keys leave the modifiers alone. -/
theorem Tracks.other (T : Tracks l k) (h : keyCode key < KEY_SHIFT) :
    Tracks (l++[.press key]) k := by
  have hne : ∀ n, keyCode key ≠ KEY_SHIFT+n := fun n => by omega
  refine ⟨T.escape,fun n hn => ?_,fun n hlow hn => ?_⟩
  · rw [held_press, T.held n hn]
    exact ⟨Or.inr,fun h => h.resolve_left (hne n)⟩
  · rw [locked_press, T.locked n hlow hn]
    have hcode := hne n
    tauto

theorem Tracks.modifier (T : Tracks l k) (h : KEY_SHIFT ≤ keyCode key)
    (hlt : keyCode key < KEY_CAPSLOCK) :
    Tracks (l++[.press key])
      { k with modifiers := k.modifiers ||| 1 <<< (keyCode key-KEY_SHIFT) } := by
  have hcode : ∀ n, keyCode key-KEY_SHIFT = n ↔ keyCode key = KEY_SHIFT+n := fun n => by omega
  refine ⟨T.escape,fun n hn => ?_,fun n hlow hn => ?_⟩
  · rw [bit_set, held_press, T.held n hn, hcode]
  · have hne : keyCode key ≠ KEY_SHIFT+n := by
      simp only [KEY_SHIFT, KEY_CAPSLOCK] at h hlt ⊢
      omega
    rw [bit_set, locked_press, T.locked n hlow hn, hcode]
    tauto

theorem Tracks.lock (T : Tracks l k) (h : KEY_CAPSLOCK ≤ keyCode key) :
    Tracks (l++[.press key])
      { k with modifiers := k.modifiers ^^^ 1 <<< (keyCode key-KEY_SHIFT) } := by
  have hcode : ∀ n, keyCode key-KEY_SHIFT = n ↔ keyCode key = KEY_SHIFT+n := fun n => by
    simp only [KEY_SHIFT, KEY_CAPSLOCK] at h ⊢
    omega
  refine ⟨T.escape,fun n hn => ?_,fun n hlow hn => ?_⟩
  · have hne : keyCode key ≠ KEY_SHIFT+n := by
      simp only [KEY_SHIFT, KEY_CAPSLOCK] at h ⊢
      omega
    rw [bit_flip, held_press, T.held n hn, hcode]
    tauto
  · rw [bit_flip, locked_press, T.locked n hlow hn, hcode]

theorem Tracks.release (T : Tracks l k) (hkey : keyCode key < 256) :
    Tracks (l++[.release key]) (key_release (keyCode key) k) := by
  rw [key_release]
  split_ifs with h
  · have hcode : ∀ n, keyCode key-KEY_SHIFT ≠ n ↔ keyCode key ≠ KEY_SHIFT+n := fun n => by omega
    refine ⟨T.escape,fun n hn => ?_,fun n hlow hn => ?_⟩
    · rw [bit_clear (by omega), held_release, T.held n hn, hcode]
    · have hne : keyCode key ≠ KEY_SHIFT+n := by
        simp only [KEY_SHIFT, KEY_CAPSLOCK] at h ⊢
        omega
      rw [bit_clear (by omega), locked_release, T.locked n hlow hn, hcode]
      exact ⟨And.right,fun h => ⟨hne,h⟩⟩
  · refine ⟨T.escape,fun n hn => ?_,fun n hlow hn => ?_⟩
    · have hne : keyCode key ≠ KEY_SHIFT+n := by
        simp only [KEY_SHIFT, KEY_CAPSLOCK] at h ⊢
        omega
      rw [held_release, T.held n hn]
      exact ⟨fun h => ⟨hne,h⟩,And.right⟩
    · rw [locked_release]
      exact T.locked n hlow hn

theorem Tracks.press (T : Tracks l k) (hkey : keyCode key < 256) : ∃ ch k',
    key_press (keyCode key) k = some (ch,k') ∧ 0 ≤ ch ∧ ch < 256 ∧ Tracks (l++[.press key]) k' ∧
      k'.last_escape = k.last_escape := by
  have hz : 'a'.toNat = 97 ∧ 'z'.toNat = 122 := by decide
  rw [key_press]
  split_ifs with hletter hcontrol hupper hlock hmodifier hcomplex hplain
  · rw [hz.1, hz.2] at hletter
    exact ⟨_,k,rfl,by omega,by omega,T.other (by simp only [KEY_SHIFT]; omega),rfl⟩
  · rw [hz.1, hz.2] at hletter
    exact ⟨_,k,rfl,by omega,by omega,T.other (by simp only [KEY_SHIFT]; omega),rfl⟩
  · exact ⟨_,k,rfl,by omega,by omega,T.other (by simp only [KEY_SHIFT]; omega),rfl⟩
  · exact ⟨0,_,rfl,by decide,by decide,T.lock hlock,rfl⟩
  · exact ⟨0,_,rfl,by decide,by decide,T.modifier hmodifier (not_le.1 hlock),rfl⟩
  · simp only [CKEY] at hcomplex
    have hindex : k.modifiers &&& 3 < 4 :=
      lt_of_le_of_lt Nat.and_le_right (by decide)
    obtain ⟨map,hmap,ch,hentry,hch⟩ :=
      complex_entry (keyCode key-CKEY 0) (by simp only [CKEY]; omega) _ hindex
    rw [hmap]
    change ∃ _ _, (map[k.modifiers &&& 3]? >>= _) = _ ∧ _
    rw [hentry]
    exact ⟨ch,k,rfl,by omega,by omega,T.other (not_le.1 hmodifier),rfl⟩
  · exact ⟨0,k,rfl,by decide,by decide,T.other (not_le.1 hmodifier),rfl⟩
  · exact ⟨_,k,rfl,by omega,by omega,T.other (not_le.1 hmodifier),rfl⟩

end Tracking

section Reading

variable {l : List Stroke} {k k' : KeyState} {bytes : List UInt8}

/-- The bytes of the keyboard one after the other. -/
def read_bytes (bytes : List UInt8) (k : KeyState) : Option KeyState :=
  bytes.foldlM (fun k data => (keyboard_readc (some data) k).map Prod.snd) k

/-- The escape that a byte leaves for the next. -/
def escapeOf (data : UInt8) : ℕ := if data = 0xE0 then 0x80 else 0

theorem strokes_cons (escape : ℕ) (data : UInt8) (bytes : List UInt8) :
    strokes escape (data :: bytes) = strokes escape [data]++strokes (escapeOf data) bytes := by
  simp only [strokes, escapeOf]
  split_ifs
  · rfl
  · rfl
  · rfl

/-- A key has an index in the table. -/
theorem key_index {a escape : ℕ} (ha : a < 128) (h : escape = 0 ∨ escape = 0x80) :
    a ||| escape < 256 :=
  Nat.or_lt_two_pow (n := 8) (by omega) (by omega)

theorem byte_low {data : UInt8} (h : data.toNat &&& 0x80 = 0) : data.toNat < 128 := by
  have hall : ∀ n < 256, n &&& 0x80 = 0 → n < 128 := by decide +kernel
  exact hall _ data.toNat_lt h

/-- One byte is read within the tables. -/
theorem Tracks.read (T : Tracks l k) (data : UInt8) : ∃ ch k',
    keyboard_readc (some data) k = some (ch,k') ∧ 0 ≤ ch ∧ ch < 256 ∧
      Tracks (l++strokes k.last_escape [data]) k' ∧ k'.last_escape = escapeOf data := by
  have hclear : Tracks l { k with last_escape := 0 } := ⟨Or.inl rfl,T.held,T.locked⟩
  simp only [keyboard_readc, strokes, escapeOf]
  split_ifs with hescape hup
  · rw [List.append_nil]
    exact ⟨0,_,rfl,by decide,by decide,⟨Or.inr rfl,T.held,T.locked⟩,rfl⟩
  · have hindex := key_index (a := data.toNat &&& 0x7F)
      (lt_of_le_of_lt Nat.and_le_right (by decide)) T.escape
    obtain ⟨hentry,hcode⟩ := keyCode_small _ hindex
    have hkept : (key_release (keyCode ((data.toNat &&& 0x7F) ||| k.last_escape))
        { k with last_escape := 0 }).last_escape = 0 := by
      rw [key_release]
      split_ifs
      · rfl
      · rfl
    rw [hentry]
    exact ⟨0,_,rfl,by decide,by decide,hclear.release hcode,hkept⟩
  · have hindex := key_index (byte_low (not_not.1 hup)) T.escape
    obtain ⟨hentry,hcode⟩ := keyCode_small _ hindex
    obtain ⟨ch,k',hpress,hlow,hhigh,T',hkept⟩ := hclear.press hcode
    rw [hentry]
    exact ⟨ch,k',hpress,hlow,hhigh,T',hkept⟩

/-- All bytes are read, and the modifiers follow them. -/
theorem Tracks.read_bytes (T : Tracks l k) (bytes : List UInt8) : ∃ k',
    read_bytes bytes k = some k' ∧ Tracks (l++strokes k.last_escape bytes) k' := by
  induction bytes generalizing l k with
  | nil =>
    refine ⟨k,rfl,?_⟩
    rw [strokes, List.append_nil]
    exact T
  | cons data bytes ih =>
    obtain ⟨ch,k₁,hread,-,-,T₁,hescape⟩ := T.read data
    obtain ⟨k₂,hrest,T₂⟩ := ih T₁
    rw [hescape, List.append_assoc, ← strokes_cons] at T₂
    refine ⟨k₂,?_,T₂⟩
    rw [Keyboard.read_bytes, List.foldlM_cons, hread]
    exact hrest

end Reading

section Results

variable {l : List Stroke} {k k' : KeyState} {ch : ℤ}

/-- What a letter key types. -/
theorem Tracks.letter (T : Tracks l k) {letter : ℕ} (hlow : 'a'.toNat ≤ letter)
    (hhigh : letter ≤ 'z'.toNat) (h : key_press letter k = some (ch,k')) :
    (Held KEY_CONTROL l → ch = letter-0x60) ∧
    (¬Held KEY_CONTROL l → ((Held KEY_SHIFT l ↔ Locked KEY_CAPSLOCK l) → ch = letter) ∧
      (¬(Held KEY_SHIFT l ↔ Locked KEY_CAPSLOCK l) → ch = letter-0x20)) := by
  have hcontrol : k.modifiers &&& MOD_CONTROL ≠ 0 ↔ Held KEY_CONTROL l :=
    bit_test.trans (T.held 1 (by decide))
  have hshift : k.modifiers &&& MOD_SHIFT ≠ 0 ↔ Held KEY_SHIFT l :=
    bit_test.trans (T.held 0 (by decide))
  have hcaps : k.modifiers &&& MOD_CAPSLOCK ≠ 0 ↔ Locked KEY_CAPSLOCK l :=
    bit_test.trans (T.locked 3 (by decide) (by decide))
  have hsame : (k.modifiers &&& MOD_SHIFT = 0 ↔ k.modifiers &&& MOD_CAPSLOCK = 0) ↔
      (Held KEY_SHIFT l ↔ Locked KEY_CAPSLOCK l) := by
    rw [← hshift, ← hcaps, not_iff_not]
  rw [key_press, if_pos ⟨hlow,hhigh⟩] at h
  split_ifs at h with hcase hupper
  · cases h
    exact ⟨fun _ => rfl,fun hnot => absurd (hcontrol.1 hcase) hnot⟩
  · cases h
    exact ⟨fun hheld => absurd (hcontrol.2 hheld) hcase,
      fun _ => ⟨fun _ => rfl,fun hne => absurd (hsame.1 hupper) hne⟩⟩
  · cases h
    exact ⟨fun hheld => absurd (hcontrol.2 hheld) hcase,
      fun _ => ⟨fun heq => absurd (hsame.2 heq) hupper,fun _ => rfl⟩⟩

theorem press_read (T : Tracks l k) {data : UInt8} {key : ℕ}
    (hkey : strokes k.last_escape [data] = [.press key])
    (h : keyboard_readc (some data) k = some (ch,k')) :
    key_press (keyCode key) { k with last_escape := 0 } = some (ch,k') := by
  simp only [keyboard_readc] at h
  simp only [strokes] at hkey
  split_ifs at hkey with hescape hup
  · cases hkey
  · rw [if_neg hescape, if_neg hup] at h
    cases hkey
    rw [(keyCode_small _ (key_index (byte_low (not_not.1 hup)) T.escape)).1] at h
    exact h

/-- Whatever the keyboard has sent, no table is read outside its bounds, the bits of `modifiers` say
which modifier keys are down and which locks are on, and a letter is typed as a capital exactly if
one of shift and caps lock asks for it, and as a control character with control. -/
theorem keys_tracked (bytes : List UInt8) : ∃ k, read_bytes bytes {} = some k ∧
    (∀ n < 3, k.modifiers.testBit n = true ↔ Held (KEY_SHIFT+n) (strokes 0 bytes)) ∧
    (∀ n, 3 ≤ n → n < 6 →
      (k.modifiers.testBit n = true ↔ Locked (KEY_SHIFT+n) (strokes 0 bytes))) ∧
    ∀ data, ∃ ch k', keyboard_readc (some data) k = some (ch,k') ∧ 0 ≤ ch ∧ ch < 256 ∧
      ∀ key, strokes k.last_escape [data] = [.press key] →
        'a'.toNat ≤ keyCode key → keyCode key ≤ 'z'.toNat →
        (Held KEY_CONTROL (strokes 0 bytes) → ch = keyCode key-0x60) ∧
        (¬Held KEY_CONTROL (strokes 0 bytes) →
          ((Held KEY_SHIFT (strokes 0 bytes) ↔ Locked KEY_CAPSLOCK (strokes 0 bytes)) →
            ch = keyCode key) ∧
          (¬(Held KEY_SHIFT (strokes 0 bytes) ↔ Locked KEY_CAPSLOCK (strokes 0 bytes)) →
            ch = keyCode key-0x20)) := by
  obtain ⟨k,hread,T⟩ := tracks_start.read_bytes bytes
  refine ⟨k,hread,T.held,T.locked,fun data => ?_⟩
  obtain ⟨ch,k',hdata,hlow,hhigh,-⟩ := T.read data
  refine ⟨ch,k',hdata,hlow,hhigh,fun key hkey ha hz => ?_⟩
  have hclear : Tracks (strokes 0 bytes) { k with last_escape := 0 } :=
    ⟨Or.inl rfl,T.held,T.locked⟩
  exact hclear.letter ha hz (press_read T hkey hdata)

end Results

end WeensyOS.Keyboard
