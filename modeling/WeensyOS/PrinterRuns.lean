import WeensyOS.Directives

/-!
# Runs of printer_vprintf

The main loop over the format. Whatever the printer is, it receives one stream
of characters that depends on the format and the arguments alone; the loop
itself can only fail for lack of arguments.
-/

set_option autoImplicit false

namespace WeensyOS.PrinterRuns
open WeensyOS.TextCursors WeensyOS.Printer WeensyOS.Directives

/-- The `putc` of a printer with state `σ`. -/
abbrev Putc (σ : Type) : Type := UInt8 → ℤ → σ → Except Fault σ

section Loop

variable {σ : Type} (putc : Putc σ) (strs : UInt64 → Text)

def emit (color : ℤ) (text : List UInt8) (p : σ) : Except Fault σ :=
  text.foldlM (fun p c => putc c color p) p

theorem directive_next {f : List UInt8} {i : ℕ} {color : ℤ} {args : List UInt64} {d : Directive}
    (hread : read f i = .ok (ascii '%')) (h : directive strs f i color args = .ok d) :
    i ≤ d.next ∧ d.next < f.length := by
  have hdirects := directive_directs strs hread color args
  rw [h] at hdirects
  cases hdirects with
  | ok lower upper taken clean => exact ⟨lower,upper⟩

/-- `for (; *format; ++format)` from the cursor `i`. -/
def vprintf_loop (f : List UInt8) (i : ℕ) (color : ℤ) (args : List UInt64) (p : σ) :
    Except Fault σ :=
  match _ : read f i with
  | .error e => .error e
  | .ok c =>
    if _ : c = 0 then .ok p
    else if _ : c ≠ ascii '%' then
      match putc c color p with
      | .error e => .error e
      | .ok p => vprintf_loop f (i+1) color args p
    else
      match _ : directive strs f i color args with
      | .error e => .error e
      | .ok d =>
        match emit putc d.color d.text p with
        | .error e => .error e
        | .ok p => vprintf_loop f (d.next+1) d.color d.args p
termination_by f.length-i
decreasing_by
  · have hi := peek_lt ‹read f i = .ok _› ‹_›
    omega
  · have hread : read f i = .ok _ := ‹_›
    have hpercent := not_not.1 ‹¬_ ≠ ascii '%'›
    have hnext := directive_next strs (hpercent ▸ hread) ‹directive strs f i color args = .ok _›
    omega

def printer_vprintf (f : Text) (color : ℤ) (args : List UInt64) (p : σ) : Except Fault σ :=
  vprintf_loop putc strs f 0 color args p

end Loop

section Steps

variable {σ : Type} {putc : Putc σ} {strs : UInt64 → Text} {f rest : List UInt8} {i : ℕ} {c : UInt8}

theorem vprintf_loop_nil (A : At f i []) (color : ℤ) (args : List UInt64) (p : σ) :
    vprintf_loop putc strs f i color args p = .ok p := by
  have hread : read f i = .ok 0 := A.peek_nil
  rw [vprintf_loop]
  split
  · rename_i e he
    rw [hread] at he
    cases he
  · rename_i c hc
    rw [hread] at hc
    cases hc
    rw [dif_pos rfl]

theorem vprintf_loop_char (A : At f i (c :: rest)) (hzero : c ≠ 0) (hc : c ≠ ascii '%')
    (color : ℤ) (args : List UInt64) (p : σ) : vprintf_loop putc strs f i color args p =
      putc c color p >>= vprintf_loop putc strs f (i+1) color args := by
  have hread : read f i = .ok c := A.peek_cons
  rw [vprintf_loop]
  split
  · rename_i e he
    rw [hread] at he
    cases he
  · rename_i c' hc'
    rw [hread] at hc'
    cases hc'
    rw [dif_neg hzero, dif_pos hc]
    cases putc c color p with
    | error e => rfl
    | ok p' => rfl

theorem vprintf_loop_directive (A : At f i (ascii '%' :: rest)) (color : ℤ) (args : List UInt64)
    (p : σ) : vprintf_loop putc strs f i color args p = (do
      let d ← directive strs f i color args
      let p ← emit putc d.color d.text p
      vprintf_loop putc strs f (d.next+1) d.color d.args p) := by
  have hread : read f i = .ok (ascii '%') := A.peek_cons
  rw [vprintf_loop]
  split
  · rename_i e he
    rw [hread] at he
    cases he
  · rename_i c' hc'
    rw [hread] at hc'
    cases hc'
    rw [dif_neg (by decide), dif_neg (not_not.2 rfl)]
    split
    · rename_i e he
      rw [he]
      rfl
    · rename_i d hd
      rw [hd]
      change _ = emit putc d.color d.text p >>= _
      cases emit putc d.color d.text p with
      | error e => rfl
      | ok p' => rfl

end Steps

section Streams

variable {σ : Type}

/-- A printer that receives the characters of a stream. -/
def play (putc : Putc σ) (S : List (UInt8 × ℤ)) (p : σ) : Except Fault σ :=
  S.foldlM (fun p x => putc x.1 x.2 p) p

theorem play_cons (putc : Putc σ) (x : UInt8 × ℤ) (S : List (UInt8 × ℤ)) (p : σ) :
    play putc (x :: S) p = putc x.1 x.2 p >>= play putc S := List.foldlM_cons

theorem play_append (putc : Putc σ) (S T : List (UInt8 × ℤ)) (p : σ) :
    play putc (S++T) p = play putc S p >>= play putc T := List.foldlM_append

/-- The characters of a text in one color. -/
def inColor (color : ℤ) (text : List UInt8) : List (UInt8 × ℤ) := text.map fun c => (c,color)

theorem emit_play (putc : Putc σ) (color : ℤ) (text : List UInt8) (p : σ) :
    emit putc color text p = play putc (inColor color text) p := by
  rw [emit, play, inColor, List.foldlM_map]

/-- The printer that keeps what it receives. -/
def collect : Putc (List (UInt8 × ℤ)) := fun c color S => .ok (S++[(c,color)])

theorem play_collect (S T : List (UInt8 × ℤ)) : play collect S T = .ok (T++S) := by
  induction S generalizing T with
  | nil =>
    rw [List.append_nil]
    rfl
  | cons x S ih =>
    rw [play_cons]
    change play collect S (T++[(x.1,x.2)]) = _
    rw [ih, List.append_assoc]
    rfl

/-- The characters that `printer_vprintf` emits. -/
def stream (strs : UInt64 → Text) (f : Text) (color : ℤ) (args : List UInt64) :
    Except Fault (List (UInt8 × ℤ)) := printer_vprintf collect strs f color args []

end Streams

section Runs

variable {strs : UInt64 → Text} {f : List UInt8} {i : ℕ}

/-- No NUL among the characters. -/
def Clean (S : List (UInt8 × ℤ)) : Prop := ∀ x ∈ S, x.1 ≠ 0

theorem clean_inColor {text : List UInt8} (h : 0 ∉ text) (color : ℤ) :
    Clean (inColor color text) := by
  intro x hx
  obtain ⟨c,hc,rfl⟩ := List.mem_map.1 hx
  exact fun hzero => h (hzero ▸ hc)

theorem Clean.append {S T : List (UInt8 × ℤ)} (hS : Clean S) (hT : Clean T) : Clean (S++T) := by
  intro x hx
  rcases List.mem_append.1 hx with h | h
  · exact hS x h
  · exact hT x h

/-- The end of a run, which comes early if the arguments do not suffice. -/
def finish {σ : Type} (short : Bool) (p : σ) : Except Fault σ :=
  if short then .error .arguments else .ok p

/-- From the cursor `i` any printer receives the clean stream `S`. -/
structure Prints (strs : UInt64 → Text) (f : List UInt8) (i : ℕ) (color : ℤ) (args : List UInt64)
    (S : List (UInt8 × ℤ)) (short : Bool) : Prop where
  clean : Clean S
  enough : short → args.length < 3*(f.length-i)
  plays : ∀ (σ : Type) (putc : Putc σ) (p : σ),
    vprintf_loop putc strs f i color args p = play putc S p >>= finish short

theorem prints_from (strs : UInt64 → Text) (hf : 0 ∉ f) (h : i ≤ f.length) (color : ℤ)
    (args : List UInt64) :
    ∃ S short, Prints strs f i color args S short := by
  induction hn : f.length-i using Nat.strong_induction_on generalizing i color args with
  | _ n ih =>
    rcases hrest : f.drop i with _ | ⟨c,rest⟩
    · have A : At f i [] := ⟨h,hrest⟩
      refine ⟨[],false,fun x hx => absurd hx List.not_mem_nil,(fun h => by cases h),?_⟩
      intro σ putc p
      rw [vprintf_loop_nil A]
      rfl
    · have A : At f i (c :: rest) := ⟨h,hrest⟩
      have hlen := A.length
      rw [List.length_cons] at hlen
      have hzero : c ≠ 0 := by
        rintro rfl
        exact hf (List.mem_of_mem_drop (hrest ▸ List.mem_cons_self))
      by_cases hc : c = ascii '%'
      · subst hc
        have hdirects := directive_directs strs (A.peek_cons (e := Fault.format)) color args
        cases hd : directive strs f i color args with
        | error e =>
          rw [hd] at hdirects
          cases hdirects with
          | short hargs =>
            refine ⟨[],true,fun x hx => absurd hx List.not_mem_nil,fun _ => by omega,?_⟩
            intro σ putc p
            rw [vprintf_loop_directive A, hd]
            rfl
        | ok d =>
          rw [hd] at hdirects
          cases hdirects with
          | ok lower upper taken clean =>
            obtain ⟨S,short,P⟩ := ih _ (by omega) (i := d.next+1) upper d.color d.args rfl
            refine ⟨inColor d.color d.text++S,short,(clean_inColor clean _).append P.clean,?_,?_⟩
            · intro hs
              have henough := P.enough hs
              omega
            · intro σ putc p
              rw [vprintf_loop_directive A, hd, play_append, ← emit_play]
              change emit putc d.color d.text p >>= _ = _
              rw [bind_assoc]
              congr 1
              funext p'
              exact P.plays σ putc p'
      · obtain ⟨S,short,P⟩ := ih _ (by omega) (i := i+1) (by omega) color args rfl
        refine ⟨(c,color) :: S,short,?_,?_,?_⟩
        · intro x hx
          rcases List.mem_cons.1 hx with rfl | hx
          · exact hzero
          · exact P.clean x hx
        · intro hs
          have henough := P.enough hs
          omega
        · intro σ putc p
          rw [vprintf_loop_char A hzero hc, play_cons, bind_assoc]
          congr 1
          funext p'
          exact P.plays σ putc p'

variable {color : ℤ} {args : List UInt64} {S : List (UInt8 × ℤ)} {short : Bool}

/-- Text without `%` is printed as it is. -/
theorem vprintf_loop_plain {σ : Type} (putc : Putc σ) {rest : List UInt8} (A : At f i rest)
    (hzero : 0 ∉ rest) (hplain : ascii '%' ∉ rest) (p : σ) :
    vprintf_loop putc strs f i color args p = play putc (inColor color rest) p := by
  induction rest generalizing i p with
  | nil => exact vprintf_loop_nil A color args p
  | cons c rest ih =>
    rw [List.mem_cons, not_or] at hzero hplain
    rw [vprintf_loop_char A (Ne.symm hzero.1) (Ne.symm hplain.1), inColor, List.map_cons, play_cons]
    congr 1
    funext p'
    exact ih A.next hzero.2 hplain.2 p'

theorem stream_plain {f : Text} (h : ascii '%' ∉ f.val) :
    stream strs f color args = .ok (inColor color f) := by
  rw [stream, printer_vprintf, vprintf_loop_plain collect (at_drop (Nat.zero_le _)) f.2 h,
    play_collect]
  rfl

theorem Prints.stream_eq {f : Text} (P : Prints strs f 0 color args S short) :
    stream strs f color args = finish short S := by
  rw [stream, printer_vprintf, P.plays, play_collect, List.nil_append]
  rfl

/-- Every printer receives the stream that the collecting printer receives. -/
theorem stream_plays {f : Text} (h : stream strs f color args = .ok S) : Clean S ∧
    ∀ (σ : Type) (putc : Putc σ) (p : σ),
      printer_vprintf putc strs f color args p = play putc S p := by
  obtain ⟨S',short,P⟩ := prints_from strs f.2 (Nat.zero_le _) color args
  rw [P.stream_eq] at h
  cases short with
  | true => cases h
  | false =>
    cases h
    refine ⟨P.clean,fun σ putc p => ?_⟩
    rw [printer_vprintf, P.plays]
    exact bind_pure _

end Runs

/-- The formatter reads nothing behind the format, comes to an end and emits no NUL: with
three arguments for each character of the format it does not fail at all, and with fewer it
fails for lack of arguments or not at all. -/
theorem printer_vprintf_stays_inside (strs : UInt64 → Text) (f : Text) (color : ℤ)
    (args : List UInt64) : ∃ S : List (UInt8 × ℤ), (∀ x ∈ S, x.1 ≠ 0) ∧
      (3*f.val.length ≤ args.length → stream strs f color args = .ok S) ∧
      (stream strs f color args = .ok S ∨ stream strs f color args = .error .arguments) ∧
      ∀ (σ : Type) (putc : Putc σ) (p : σ), 3*f.val.length ≤ args.length →
        printer_vprintf putc strs f color args p = play putc S p := by
  obtain ⟨S,short,P⟩ := prints_from strs f.2 (Nat.zero_le _) color args
  have hfull : 3*f.val.length ≤ args.length → stream strs f color args = .ok S := by
    intro hargs
    rw [P.stream_eq]
    cases short with
    | false => rfl
    | true =>
      have henough := P.enough rfl
      omega
  refine ⟨S,P.clean,hfull,?_,fun σ putc p hargs => (stream_plays (hfull hargs)).2 σ putc p⟩
  rw [P.stream_eq]
  cases short with
  | false => exact Or.inl rfl
  | true => exact Or.inr rfl

end WeensyOS.PrinterRuns
