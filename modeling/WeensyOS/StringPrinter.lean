import WeensyOS.PrinterRuns
import WeensyOS.FlatMemory

/-!
# Printing into a buffer

`vsnprintf` leaves the longest part of the printer stream that fits, and a NUL
behind it. The format and its strings lie outside the buffer.
-/

set_option autoImplicit false

namespace WeensyOS.StringPrinter
open WeensyOS.TextCursors WeensyOS.Printer WeensyOS.PrinterRuns WeensyOS.FlatMemory

/-- `string_printer`, with the memory it writes. -/
structure string_printer where
  s : ℕ
  limit : ℕ
  mem : Memory

def string_putc : Putc string_printer := fun c _ sp =>
  .ok (if sp.s < sp.limit then { sp with s := sp.s+1, mem := Function.update sp.mem sp.s c } else sp)

/-- The memory and the returned `int`. -/
def vsnprintf (strs : UInt64 → Text) (f : Text) (args : List UInt64) (m : Memory) (s size : ℕ) :
    Except Fault (Memory × ℤ) :=
  if size ≠ 0 then do
    let sp ← printer_vprintf string_putc strs f 0 args ⟨s,(s+size-1) % 2^64,m⟩
    .ok (Function.update sp.mem sp.s 0,int32 ((sp.s : ℤ)-s))
  else .ok (m,int32 ((s : ℤ)-s))

section Blocks

/-- The bytes `l` from the address `a` on. -/
def putBytes (m : Memory) (a : ℕ) (l : List UInt8) : Memory := fun x =>
  if a ≤ x then l.getD (x-a) (m x) else m x

variable {m : Memory} {a x : ℕ} {l : List UInt8} {c : UInt8}

theorem putBytes_nil (m : Memory) (a : ℕ) : putBytes m a [] = m := by
  funext x
  simp [putBytes]

theorem putBytes_snoc (m : Memory) (a : ℕ) (l : List UInt8) (c : UInt8) :
    Function.update (putBytes m a l) (a+l.length) c = putBytes m a (l++[c]) := by
  funext x
  by_cases hx : x = a+l.length
  · subst hx
    rw [Function.update_self, putBytes, if_pos (Nat.le_add_right _ _), Nat.add_sub_cancel_left]
    simp
  · rw [Function.update_of_ne hx, putBytes, putBytes]
    split_ifs with hax
    · rcases Nat.lt_or_ge (x-a) l.length with h | h
      · simp [List.getElem?_append_left h]
      · have hlong : (l++[c]).length ≤ x-a := by
          rw [List.length_append, List.length_singleton]
          omega
        rw [List.getD_eq_default _ _ h, List.getD_eq_default _ _ hlong]
    · rfl

theorem putBytes_outside (h : x < a ∨ a+l.length ≤ x) : putBytes m a l x = m x := by
  rw [putBytes]
  split_ifs with hax
  · exact List.getD_eq_default _ _ (by omega)
  · rfl

theorem putBytes_inside {i : ℕ} (h : i < l.length) : putBytes m a l (a+i) = l[i] := by
  rw [putBytes, if_pos (Nat.le_add_right _ _), Nat.add_sub_cancel_left, List.getD_eq_getElem]

/-- Bytes written over the end of a block. -/
theorem putBytes_over (m : Memory) (a : ℕ) {l t l' : List UInt8} (h : t.length ≤ l'.length) :
    putBytes (putBytes m a (l++t)) (a+l.length) l' = putBytes m a (l++l') := by
  funext x
  rcases Nat.lt_or_ge x (a+l.length) with hlow | hhigh
  · rw [putBytes_outside (Or.inl hlow)]
    by_cases hax : a ≤ x
    · rw [putBytes, putBytes, if_pos hax, if_pos hax, List.getD_append _ _ _ _ (by omega),
        List.getD_append _ _ _ _ (by omega)]
    · rw [putBytes, putBytes, if_neg hax, if_neg hax]
  · have hax : a ≤ x := by omega
    have hsub : x-a-l.length = x-(a+l.length) := by omega
    rw [putBytes, if_pos hhigh, putBytes, putBytes, if_pos hax, if_pos hax,
      List.getD_append_right _ _ _ _ (by omega), List.getD_append_right _ _ _ _ (by omega), hsub]
    rcases Nat.lt_or_ge (x-(a+l.length)) l'.length with hin | hout
    · rw [List.getD_eq_getElem _ _ hin, List.getD_eq_getElem _ _ hin]
    · rw [List.getD_eq_default _ _ hout, List.getD_eq_default _ _ hout,
        List.getD_eq_default _ _ (by omega)]

theorem putBytes_behind (m : Memory) (a : ℕ) (l l' : List UInt8) :
    putBytes (putBytes m a l) (a+l.length) l' = putBytes m a (l++l') := by
  have h : putBytes (putBytes m a (l++[])) (a+l.length) l' = putBytes m a (l++l') :=
    putBytes_over m a (Nat.zero_le _)
  rw [List.append_nil] at h
  exact h

end Blocks

section Strings

variable {strs : UInt64 → Text} {f : Text} {args : List UInt64} {S : List (UInt8 × ℤ)}

/-- The characters of a stream. -/
def chars (S : List (UInt8 × ℤ)) : List UInt8 := S.map Prod.fst

/-- Each character goes behind the ones before it, up to the limit. -/
theorem string_play (S : List (UInt8 × ℤ)) (m : Memory) (s limit : ℕ) (l : List UInt8)
    (h : s+l.length ≤ limit) : ∃ l', l' = l++(chars S).take (limit-(s+l.length)) ∧
      play string_putc S ⟨s+l.length,limit,putBytes m s l⟩ =
        .ok ⟨s+l'.length,limit,putBytes m s l'⟩ := by
  induction S generalizing l with
  | nil =>
    refine ⟨l,?_,rfl⟩
    rw [chars, List.map_nil, List.take_nil, List.append_nil]
  | cons x S ih =>
    rw [play_cons]
    by_cases hroom : s+l.length < limit
    · have hstep : string_putc x.1 x.2 ⟨s+l.length,limit,putBytes m s l⟩ =
          .ok ⟨s+(l++[x.1]).length,limit,putBytes m s (l++[x.1])⟩ := by
        rw [string_putc, if_pos hroom, putBytes_snoc, List.length_append, List.length_singleton,
          Nat.add_assoc]
      have hlen : (l++[x.1]).length = l.length+1 := by
        rw [List.length_append, List.length_singleton]
      obtain ⟨l',hl',hplay⟩ := ih (l++[x.1]) (by omega)
      refine ⟨l',?_,?_⟩
      · have htake : limit-(s+l.length) = limit-(s+(l++[x.1]).length)+1 := by omega
        rw [hl', htake, chars, chars, List.map_cons, List.take_succ_cons, List.append_assoc]
        rfl
      · rw [hstep]
        exact hplay
    · have hstep : string_putc x.1 x.2 ⟨s+l.length,limit,putBytes m s l⟩ =
          .ok ⟨s+l.length,limit,putBytes m s l⟩ := by
        rw [string_putc, if_neg hroom]
      obtain ⟨l',hl',hplay⟩ := ih l h
      refine ⟨l',?_,?_⟩
      · have hzero : limit-(s+l.length) = 0 := by omega
        rw [hl', hzero, List.take_zero, List.take_zero]
      · rw [hstep]
        exact hplay

/-- A buffer holds the longest part of the stream that leaves room for the NUL. -/
theorem vsnprintf_block {s size : ℕ} (hs : s+size ≤ 2^64) (hsize : 0 < size)
    (h : stream strs f 0 args = .ok S) (m : Memory) : vsnprintf strs f args m s size =
      .ok (putBytes m s ((chars S).take (size-1)++[0]),int32 (min S.length (size-1) : ℕ)) := by
  have hlimit : (s+size-1) % 2^64 = s+size-1 := Nat.mod_eq_of_lt (by omega)
  obtain ⟨l,hl,hplay⟩ := string_play S m s (s+size-1) [] (by
    rw [List.length_nil]
    omega)
  rw [List.nil_append, List.length_nil, Nat.add_zero] at hl
  rw [putBytes_nil, List.length_nil, Nat.add_zero] at hplay
  have htake : s+size-1-s = size-1 := by omega
  rw [htake] at hl
  have hlen : l.length = min S.length (size-1) := by
    rw [hl, List.length_take, chars, List.length_map, Nat.min_comm]
  rw [vsnprintf, if_pos (by omega), hlimit, (stream_plays h).2, hplay, ← hl, ← hlen]
  simp only [bind, Except.bind]
  rw [putBytes_snoc, Nat.cast_add, add_sub_cancel_left]

theorem chars_clean (hS : Clean S) : 0 ∉ chars S := by
  intro h
  obtain ⟨x,hx,hzero⟩ := List.mem_map.1 h
  exact hS x hx hzero

/-- The length of the string at `s`, as `strlen` counts it. -/
def Strlen (m : Memory) (s n : ℕ) : Prop := (∀ i < n, m (s+i) ≠ 0) ∧ m (s+n) = 0

theorem putBytes_strlen {l : List UInt8} (h : 0 ∉ l) (m : Memory) (s : ℕ) :
    Strlen (putBytes m s (l++[0])) s l.length := by
  refine ⟨fun i hi => ?_,?_⟩
  · rw [putBytes_inside (by rw [List.length_append]; omega), List.getElem_append_left hi]
    exact fun hzero => h (hzero ▸ List.getElem_mem hi)
  · rw [putBytes_inside (by simp)]
    simp

end Strings

/-- The buffer after `vsnprintf`. The length it returns is the length of the string as an
`int`. -/
theorem vsnprintf_truncates (strs : UInt64 → Text) (f : Text) (args : List UInt64)
    (m : Memory) (s size : ℕ) (hs : s+size ≤ 2^64) (S : List (UInt8 × ℤ))
    (h : stream strs f 0 args = .ok S) : ∃ m' : Memory, ∃ n : ℕ,
      vsnprintf strs f args m s size = .ok (m',int32 n) ∧
      (0 < size → n = min S.length (size-1) ∧ Strlen m' s n ∧
        (∀ i < n, (chars S)[i]? = some (m' (s+i))) ∧
        ∀ x, x < s ∨ s+n < x → m' x = m x) ∧
      (size = 0 → n = 0 ∧ m' = m) := by
  by_cases hsize : 0 < size
  · have hlen : ((chars S).take (size-1)).length = min S.length (size-1) := by
      rw [List.length_take, chars, List.length_map, Nat.min_comm]
    have hclean : 0 ∉ (chars S).take (size-1) := fun hzero =>
      chars_clean (stream_plays h).1 (List.mem_of_mem_take hzero)
    refine ⟨_,_,vsnprintf_block hs hsize h m,fun _ => ⟨rfl,?_,?_,?_⟩,fun hz => by omega⟩
    · rw [← hlen]
      exact putBytes_strlen hclean m s
    · intro i hi
      rw [← hlen] at hi
      rw [putBytes_inside (by rw [List.length_append]; omega), List.getElem_append_left hi,
        List.getElem_take, List.getElem?_eq_getElem]
    · intro x hx
      apply putBytes_outside
      rw [List.length_append, List.length_singleton, hlen]
      omega
  · refine ⟨m,0,?_,fun hpos => absurd hpos hsize,fun _ => ⟨rfl,rfl⟩⟩
    rw [vsnprintf, if_neg (by omega), sub_self]
    rfl

section Sample

/-- A format without strings. -/
def noStrings : UInt64 → Text := fun _ => ⟨[],List.not_mem_nil⟩

/-- Two characters in a buffer of two bytes. -/
theorem message_cut : ∃ m' : Memory, ∃ n : ℕ,
    vsnprintf noStrings ⟨[ascii 'h',ascii 'i'],by decide⟩ [] (fun _ => 0) 0 2 = .ok (m',int32 n) ∧
      n = 1 ∧ Strlen m' 0 1 ∧ m' 0 = ascii 'h' := by
  obtain ⟨m',n,hrun,hpos,-⟩ := vsnprintf_truncates noStrings ⟨[ascii 'h',ascii 'i'],by decide⟩ []
    (fun _ => 0) 0 2 (by decide) _ (stream_plain (by decide))
  obtain ⟨hn,hlen,hchars,-⟩ := hpos two_pos
  have hone : n = 1 := hn
  subst hone
  have hfirst := Option.some.inj (hchars 0 one_pos)
  exact ⟨m',1,hrun,rfl,hlen,hfirst.symm⟩

/-- A message of 2^31 characters fits into its buffer, but its length is no `int`. -/
theorem length_wraps : ∃ (f : Text) (S : List (UInt8 × ℤ)), stream noStrings f 0 [] = .ok S ∧
    min S.length (2^31+1-1) = 2^31 ∧ ∀ m' : Memory,
      vsnprintf noStrings f [] (fun _ => 0) 0 (2^31+1) ≠
        .ok (m',((min S.length (2^31+1-1) : ℕ) : ℤ)) := by
  have hne : ∀ c ∈ List.replicate (2^31) (ascii 'a'), c = ascii 'a' := fun c hc =>
    List.eq_of_mem_replicate hc
  have hzero : 0 ∉ List.replicate (2^31) (ascii 'a') := fun h => absurd (hne _ h) (by decide)
  have hplain : ascii '%' ∉ List.replicate (2^31) (ascii 'a') := fun h =>
    absurd (hne _ h) (by decide)
  have hS : stream noStrings ⟨List.replicate (2^31) (ascii 'a'),hzero⟩ 0 [] =
      .ok (inColor 0 (List.replicate (2^31) (ascii 'a'))) := stream_plain hplain
  have hlen : min (inColor 0 (List.replicate (2^31) (ascii 'a'))).length (2^31+1-1) = 2^31 := by
    rw [inColor, List.length_map, List.length_replicate, Nat.add_sub_cancel, min_self]
  refine ⟨_,_,hS,hlen,fun m' h => ?_⟩
  rw [vsnprintf_block (by norm_num) (by norm_num) hS, hlen] at h
  have hint : int32 ((2^31 : ℕ) : ℤ) = ((2^31 : ℕ) : ℤ) := (Prod.mk.inj (Except.ok.inj h)).2
  exact absurd hint (by decide)

end Sample

end WeensyOS.StringPrinter
