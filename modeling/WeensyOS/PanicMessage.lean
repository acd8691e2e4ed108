import WeensyOS.Conversions
import WeensyOS.StringPrinter

/-!
# The panic message of a process

`panic` formats its message behind `PANIC: ` into a buffer of 160 bytes and
ends the line. String literals are values, as formats are.
-/

set_option autoImplicit false

namespace WeensyOS.PanicMessage
open WeensyOS.TextCursors WeensyOS.Printer WeensyOS.PrinterRuns WeensyOS.StringPrinter
open WeensyOS.Conversions WeensyOS.FlatMemory

section Source

/-- `memcpy` of the characters of a literal. -/
def memcpy (m : Memory) (dst : ℕ) : List UInt8 → Memory
  | [] => m
  | c :: src => memcpy (Function.update m dst c) (dst+1) src

/-- `strcpy` of a literal, whose characters are followed by a NUL. -/
def strcpy (m : Memory) (d : ℕ) : List UInt8 → Memory
  | [] => Function.update m d 0
  | c :: src => strcpy (Function.update m d c) (d+1) src

/-- `"PANIC: "` -/
def panic_text : List UInt8 :=
  [ascii 'P',ascii 'A',ascii 'N',ascii 'I',ascii 'C',ascii ':',ascii ' ']

/-- What `panic` writes to `char buf[160]`. -/
def panic_buf (strs : UInt64 → Text) (format : Text) (val : List UInt64) (m : Memory) (buf : ℕ) :
    Except Fault Memory := do
  let m := memcpy m buf panic_text
  let (m,n) ← vsnprintf strs format val m (buf+7) (160-7)
  let len := int32 (n+7)
  if len > 0 ∧ m ((buf+(len-1) : ℤ)).toNat ≠ ascii '\n' then
    .ok (strcpy m ((buf+len-(if len = 160-1 then 1 else 0) : ℤ)).toNat [ascii '\n'])
  else
    .ok m

end Source

section Lines

variable {m : Memory} {buf : ℕ} {msg : List UInt8}

theorem memcpy_putBytes (m : Memory) (a : ℕ) (l src : List UInt8) :
    memcpy (putBytes m a l) (a+l.length) src = putBytes m a (l++src) := by
  induction src generalizing l with
  | nil => rw [memcpy, List.append_nil]
  | cons c src ih =>
    have hlen : a+l.length+1 = a+(l++[c]).length := by
      rw [List.length_append, List.length_singleton, Nat.add_assoc]
    rw [memcpy, putBytes_snoc, hlen, ih, List.append_assoc]
    rfl

theorem strcpy_memcpy (m : Memory) (d : ℕ) (src : List UInt8) :
    strcpy m d src = memcpy m d (src++[0]) := by
  induction src generalizing m d with
  | nil => rfl
  | cons c src ih => exact ih _ _

theorem memcpy_bytes (m : Memory) (d : ℕ) (src : List UInt8) : memcpy m d src = putBytes m d src := by
  have h := memcpy_putBytes m d [] src
  rw [putBytes_nil, List.length_nil, Nat.add_zero, List.nil_append] at h
  exact h

/-- A message made to end in a newline within 152 characters. -/
def endLine (msg : List UInt8) : List UInt8 :=
  if msg.getLast? = some (ascii '\n') then msg
  else if msg.length < 152 then msg++[ascii '\n']
  else msg.dropLast++[ascii '\n']

/-- The line made of the text `k` and its last character, of which the buffer holds 159. -/
def closeText (k : List UInt8) (c : UInt8) : List UInt8 :=
  if c = ascii '\n' then k++[c]
  else if k.length = 158 then k++[ascii '\n']
  else k++[c]++[ascii '\n']

/-- The end of `panic_buf`, on a buffer that holds a text and a NUL. -/
theorem text_closed (m : Memory) (buf : ℕ) (k : List UInt8) (c : UInt8) (len : ℤ)
    (hlen : len = k.length+1) :
    (if len > 0 ∧ putBytes m buf (k++[c]++[0]) ((buf+(len-1) : ℤ)).toNat ≠ ascii '\n' then
      (.ok (strcpy (putBytes m buf (k++[c]++[0]))
        ((buf+len-(if len = 160-1 then 1 else 0) : ℤ)).toNat [ascii '\n']) : Except Fault Memory)
    else .ok (putBytes m buf (k++[c]++[0]))) = .ok (putBytes m buf (closeText k c++[0])) := by
  have hlast : ((buf+(len-1) : ℤ)).toNat = buf+k.length := by omega
  have hbyte : putBytes m buf (k++[c]++[0]) (buf+k.length) = c := by
    rw [putBytes_inside (by simp)]
    simp
  rw [hlast, hbyte, strcpy_memcpy, memcpy_bytes, closeText]
  by_cases hc : c = ascii '\n'
  · rw [if_neg (fun h => h.2 hc), if_pos hc]
  · rw [if_pos ⟨by omega,hc⟩, if_neg hc]
    by_cases hfull : k.length = 158
    · -- the NUL is in the last byte: the newline replaces the character before it
      have hat : ((buf+len-(if len = 160-1 then 1 else 0) : ℤ)).toNat = buf+k.length := by
        rw [if_pos (by omega)]
        omega
      rw [hat, if_pos hfull, List.append_assoc, putBytes_over m buf (by simp), List.append_assoc]
    · have hat : ((buf+len-(if len = 160-1 then 1 else 0) : ℤ)).toNat = buf+(k++[c]).length := by
        rw [if_neg (by omega), List.length_append, List.length_singleton]
        omega
      rw [hat, if_neg hfull, putBytes_over m buf (by simp), List.append_assoc (k++[c])]

/-- Behind `PANIC: ` the line is the ended message. -/
theorem endLine_text (msg : List UInt8) (hmsg : msg.length ≤ 152) :
    ∃ k c, panic_text++msg = k++[c] ∧ panic_text++endLine msg = closeText k c := by
  rcases List.eq_nil_or_concat msg with rfl | ⟨init,c,rfl⟩
  · exact ⟨panic_text.dropLast,ascii ' ',rfl,by decide +kernel⟩
  · have hseven : panic_text.length = 7 := rfl
    rw [List.concat_eq_append, List.length_append, List.length_singleton] at hmsg
    refine ⟨panic_text++init,c,?_,?_⟩
    · rw [List.concat_eq_append, List.append_assoc]
    · rw [endLine, closeText, List.concat_eq_append, List.getLast?_concat, List.dropLast_concat,
        List.length_append, List.length_singleton, List.length_append, hseven]
      by_cases hc : c = ascii '\n'
      · rw [if_pos (congrArg some hc), if_pos hc, List.append_assoc]
      · rw [if_neg (fun h => hc (Option.some.inj h)), if_neg hc]
        by_cases hroom : init.length+1 < 152
        · rw [if_pos hroom, if_neg (by omega)]
          simp only [List.append_assoc]
        · rw [if_neg hroom, if_pos (by omega), List.append_assoc]

theorem endLine_length (hmsg : msg.length ≤ 152) : (endLine msg).length ≤ 152 := by
  rw [endLine]
  split_ifs with hend hroom
  · exact hmsg
  · rw [List.length_append, List.length_singleton]
    omega
  · rw [List.length_append, List.length_singleton, List.length_dropLast]
    omega

theorem endLine_clean (hmsg : 0 ∉ msg) : 0 ∉ endLine msg := by
  have hnewline : 0 ∉ [ascii '\n'] := by decide
  rw [endLine]
  split_ifs with hend hroom
  · exact hmsg
  · rw [List.mem_append, not_or]
    exact ⟨hmsg,hnewline⟩
  · rw [List.mem_append, not_or]
    exact ⟨fun h => hmsg (List.mem_of_mem_dropLast h),hnewline⟩

end Lines

section Messages

variable {strs : UInt64 → Text} {f : Text} {args : List UInt64} {S : List (UInt8 × ℤ)} {buf : ℕ}

theorem play_string (S : List (UInt8 × ℤ)) (sp : string_printer) :
    ∃ sp', play string_putc S sp = .ok sp' := by
  induction S generalizing sp with
  | nil => exact ⟨sp,rfl⟩
  | cons x S ih =>
    rw [play_cons]
    exact ih _

/-- Arguments that do not suffice stop the printer, whatever it prints to. -/
theorem panic_buf_short (P : Prints strs f.val 0 0 args S true) (m : Memory) :
    panic_buf strs f args m buf = .error .arguments := by
  obtain ⟨sp,hsp⟩ := play_string S ⟨buf+7,(buf+7+(160-7)-1) % 2^64,memcpy m buf panic_text⟩
  have hprint : vsnprintf strs f args (memcpy m buf panic_text) (buf+7) (160-7) =
      .error .arguments := by
    rw [vsnprintf, if_pos (by decide), printer_vprintf, P.plays, hsp]
    rfl
  simp only [panic_buf]
  rw [hprint]
  rfl

/-- `panic_buf` after its `vsnprintf`. -/
theorem panic_buf_printed {m m' : Memory} {n : ℤ}
    (h : vsnprintf strs f args (memcpy m buf panic_text) (buf+7) (160-7) = .ok (m',n)) :
    panic_buf strs f args m buf =
      if int32 (n+7) > 0 ∧ m' ((buf+(int32 (n+7)-1) : ℤ)).toNat ≠ ascii '\n' then
        .ok (strcpy m' ((buf+int32 (n+7)-(if int32 (n+7) = 160-1 then 1 else 0) : ℤ)).toNat
          [ascii '\n'])
      else .ok m' := by
  simp only [panic_buf]
  rw [h]
  rfl

/-- The bytes of the buffer: text, ended message and NUL. -/
theorem panic_buf_bytes (hbuf : buf+160 ≤ 2^64) (h : stream strs f 0 args = .ok S) (m : Memory) :
    panic_buf strs f args m buf =
      .ok (putBytes m buf (panic_text++endLine ((chars S).take 152)++[0])) := by
  have hmsg : ((chars S).take 152).length = min S.length 152 := by
    rw [List.length_take, chars, List.length_map, Nat.min_comm]
  have hseven : panic_text.length = 7 := rfl
  have hat : buf+7 = buf+panic_text.length := rfl
  have hprinted : vsnprintf strs f args (putBytes m buf panic_text) (buf+7) (160-7) =
      .ok (putBytes (putBytes m buf panic_text) (buf+7) ((chars S).take 152++[0]),
        int32 (min S.length (160-7-1) : ℕ)) := vsnprintf_block (by omega) (by decide) h _
  obtain ⟨k,c,htext,hline⟩ := endLine_text ((chars S).take 152) (by omega)
  have hk := congrArg List.length htext
  rw [List.length_append, List.length_append, List.length_singleton, hmsg] at hk
  have hcount : int32 (min S.length (160-7-1) : ℕ) = (min S.length (160-7-1) : ℕ) :=
    int32_small (by omega) (by omega)
  have hlen : int32 ((min S.length (160-7-1) : ℕ)+7) = k.length+1 := by
    rw [int32_small (by omega) (by omega)]
    omega
  rw [hat, putBytes_behind, ← List.append_assoc, htext, hcount, ← hat, ← memcpy_bytes] at hprinted
  rw [panic_buf_printed hprinted, hline]
  exact text_closed m buf k c _ hlen

/-- `panic` writes only the 160 bytes of its buffer. They hold `PANIC: `, as much of the message
as fits, a newline at its end, and a NUL. -/
theorem panic_message_ends_line (strs : UInt64 → Text) (f : Text) (args : List UInt64)
    (m : Memory) (buf : ℕ) (hbuf : buf+160 ≤ 2^64) :
    (stream strs f 0 args = .error .arguments ∧ panic_buf strs f args m buf = .error .arguments) ∨
    ∃ (S : List (UInt8 × ℤ)) (m' : Memory) (text : List UInt8), stream strs f 0 args = .ok S ∧
      panic_buf strs f args m buf = .ok m' ∧
      text = panic_text++endLine ((chars S).take 152) ∧
      (∀ x, x < buf ∨ buf+160 ≤ x → m' x = m x) ∧
      text.length < 160 ∧ Strlen m' buf text.length ∧
      ∀ i < text.length, text[i]? = some (m' (buf+i)) := by
  obtain ⟨S,short,P⟩ := prints_from strs f.2 (Nat.zero_le _) 0 args
  cases short with
  | true =>
    left
    exact ⟨P.stream_eq,panic_buf_short P m⟩
  | false =>
    right
    have hstream : stream strs f 0 args = .ok S := P.stream_eq
    have hmsg : ((chars S).take 152).length ≤ 152 := List.length_take_le _ _
    have hlen : (panic_text++endLine ((chars S).take 152)).length < 160 := by
      have hline := endLine_length hmsg
      have hseven : panic_text.length = 7 := rfl
      rw [List.length_append]
      omega
    have hclean : 0 ∉ panic_text++endLine ((chars S).take 152) := by
      have hpanic : 0 ∉ panic_text := by decide +kernel
      rw [List.mem_append, not_or]
      exact ⟨hpanic,endLine_clean fun h => chars_clean P.clean (List.mem_of_mem_take h)⟩
    refine ⟨S,_,_,hstream,panic_buf_bytes hbuf hstream m,rfl,?_,hlen,putBytes_strlen hclean m buf,?_⟩
    · intro x hx
      apply putBytes_outside
      rw [List.length_append, List.length_singleton]
      omega
    · intro i hi
      rw [putBytes_inside (by rw [List.length_append]; omega), List.getElem_append_left hi,
        List.getElem?_eq_getElem]

/-- A short message without a newline. -/
theorem short_message_ended : ∃ m' : Memory,
    panic_buf noStrings ⟨[ascii 'h',ascii 'i'],by decide⟩ [] (fun _ => 0) 0x13FF00 = .ok m' ∧
      Strlen m' 0x13FF00 10 ∧ m' 0x13FF08 = ascii 'i' ∧ m' 0x13FF09 = ascii '\n' := by
  have hS : stream noStrings ⟨[ascii 'h',ascii 'i'],by decide⟩ 0 [] =
      .ok (inColor 0 [ascii 'h',ascii 'i']) := stream_plain (by decide)
  rcases panic_message_ends_line noStrings ⟨[ascii 'h',ascii 'i'],by decide⟩ [] (fun _ => 0)
    0x13FF00 (by decide) with ⟨hshort,-⟩ | ⟨S,m',text,hstream,hrun,htext,-,-,hlen,hbytes⟩
  · rw [hS] at hshort
    cases hshort
  · rw [hS] at hstream
    cases hstream
    have hline : text = panic_text++[ascii 'h',ascii 'i',ascii '\n'] := by
      rw [htext]
      decide +kernel
    subst hline
    have hi := Option.some.inj (hbytes 8 (by decide +kernel))
    have hnewline := Option.some.inj (hbytes 9 (by decide +kernel))
    exact ⟨m',hrun,hlen,hi.symm,hnewline.symm⟩

end Messages
end WeensyOS.PanicMessage
