import WeensyOS.Keyboard
import WeensyOS.SelfChecks
import WeensyOS.SoftReboot

/-!
# Sessions at the keyboard

The machine from power-on, with the keys that are typed. `check_keyboard` polls
the keyboard in every exception, in the loop of `schedule` and after a panic; a
key can reboot the kernel with another program or turn the machine off.
-/

set_option autoImplicit false

namespace WeensyOS.Sessions
open WeensyOS.FlatMemory WeensyOS.KernelState WeensyOS.PageTables WeensyOS.Exceptions
open WeensyOS.Boot WeensyOS.CheckedRuns WeensyOS.PagingInvariant WeensyOS.KernelInvariant
open WeensyOS.KernelChecks WeensyOS.BootResult WeensyOS.BootRun WeensyOS.Effects WeensyOS.Runs
open WeensyOS.PrivateRuns WeensyOS.SelfChecks WeensyOS.PairedRuns WeensyOS.TwinBoots
open WeensyOS.SoftReboot WeensyOS.Keyboard

section Source

/-- What `check_keyboard` does with a key. -/
inductive Typed where
  | returns (c : ℤ)
  | reboot (argument : String)
  | poweroff
deriving DecidableEq

/-- What `check_keyboard` makes of the character `c`. -/
def answer (c : ℤ) : Typed :=
  if c = 'a'.toNat ∨ c = 'f'.toNat ∨ c = 'e'.toNat then
    .reboot (if c = 'a'.toNat then "allocator" else if c = 'e'.toNat then "forkexit" else "fork")
  else if c = 0x03 ∨ c = 'q'.toNat then .poweroff
  else .returns c

def check_keyboard (data : Option UInt8) (k : KeyState) : Option (Typed × KeyState) := do
  let (c,k) ← keyboard_readc data k
  some (answer c,k)

def PTE_PS : ℕ := 0x80

/-- The page table that carries `check_keyboard` through a soft reboot. -/
def temporary_pagetable (u : KState) : KState :=
  let m := LibC.memset u.mem 0x8000 0 (PAGESIZE*3)
  let m := setEntry m 0x8000 0 (0x9000 ||| PTE_P ||| PTE_W ||| PTE_U)
  let m := setEntry m (0x8000+PAGESIZE) 0 (0xA000 ||| PTE_P ||| PTE_W ||| PTE_U)
  let m := setEntry m (0x8000+2*PAGESIZE) 0 (PTE_P ||| PTE_W ||| PTE_U ||| PTE_PS)
  { u with mem := m, cr3 := 0x8000 }

/-- The jump to `entry_from_boot`, with the command line in `multiboot_info`. -/
def soft_reboot (K : KernelImage) (argument : String) (u : KState) : Checked Outcome :=
  kernel K (some argument) (temporary_pagetable u)

end Source

/-- A machine that runs the kernel, that polls the keyboard after a panic, or that is off. -/
inductive Machine where
  | on (out : Outcome)
  | failed
  | off

/-- What has happened since power-on: the last command line, the bytes read from the keyboard, and
what has come of it. A key finds memory in some state `u` between two steps of the kernel. -/
inductive Session (K : KernelImage) (allow : KState → x86_64_registers → Prop) :
    Option String → List UInt8 → KeyState → Machine → Prop where
  | power_on {command : Option String} {s : KState} {out : Outcome}
    (h : kernel K command s = .ok out) : Session K allow command [] {} (.on out)
  | power_on_panic {command : Option String} {s : KState} {e : Panic}
    (h : kernel K command s = .error e) : Session K allow command [] {} .failed
  | exception {command : Option String} {bytes : List UInt8} {k : KeyState} {s : KState}
    {reg : x86_64_registers} {out : Outcome} (X : Session K allow command bytes k (.on (.user s)))
    (hallow : allow s reg) (h : exception K reg s = .ok out) :
    Session K allow command bytes k (.on out)
  | store {command : Option String} {bytes : List UInt8} {k : KeyState} {s s' : KState} {va : ℕ}
    {c : UInt8} (X : Session K allow command bytes k (.on (.user s)))
    (h : user_store va c s = some s') : Session K allow command bytes k (.on (.user s'))
  | panic {command : Option String} {bytes : List UInt8} {k : KeyState} {s : KState}
    {reg : x86_64_registers} {e : Panic} (X : Session K allow command bytes k (.on (.user s)))
    (h : exception K reg s = .error e) : Session K allow command bytes k .failed
  | key {command : Option String} {bytes : List UInt8} {k k' : KeyState} {m : Machine}
    {data : UInt8} {c : ℤ} (X : Session K allow command bytes k m) (hm : m ≠ .off)
    (h : check_keyboard (some data) k = some (.returns c,k')) :
    Session K allow command (bytes++[data]) k' m
  | reboot {command : Option String} {bytes : List UInt8} {k k' : KeyState} {m : Machine}
    {data : UInt8} {argument : String} {u : KState} {out : Outcome}
    (X : Session K allow command bytes k m) (hm : m ≠ .off)
    (h : check_keyboard (some data) k = some (.reboot argument,k'))
    (hboot : soft_reboot K argument u = .ok out) :
    Session K allow (some argument) (bytes++[data]) k' (.on out)
  | reboot_panic {command : Option String} {bytes : List UInt8} {k k' : KeyState} {m : Machine}
    {data : UInt8} {argument : String} {u : KState} {e : Panic}
    (X : Session K allow command bytes k m) (hm : m ≠ .off)
    (h : check_keyboard (some data) k = some (.reboot argument,k'))
    (hboot : soft_reboot K argument u = .error e) :
    Session K allow (some argument) (bytes++[data]) k' .failed
  | poweroff {command : Option String} {bytes : List UInt8} {k k' : KeyState} {m : Machine}
    {data : UInt8} (X : Session K allow command bytes k m) (hm : m ≠ .off)
    (h : check_keyboard (some data) k = some (.poweroff,k')) :
    Session K allow command (bytes++[data]) k' .off

section Keys

variable {k k' : KeyState} {l : List Stroke} {data : UInt8} {typed : Typed} {bytes : List UInt8}

theorem check_keyboard_read (h : check_keyboard (some data) k = some (typed,k')) :
    ∃ c, keyboard_readc (some data) k = some (c,k') := by
  obtain ⟨⟨c,k₁⟩,hread,h⟩ := Option.bind_eq_some_iff.1 h
  have hkept : k₁ = k' := by
    cases h
    rfl
  exact ⟨c,hkept ▸ hread⟩

theorem check_keyboard_ok (T : Tracks l k) (data : UInt8) : ∃ typed k',
    check_keyboard (some data) k = some (typed,k') := by
  obtain ⟨c,k',hread,-⟩ := T.read data
  refine ⟨answer c,k',?_⟩
  rw [check_keyboard, hread]
  rfl

theorem read_snoc (h : read_bytes bytes {} = some k)
    (hkey : check_keyboard (some data) k = some (typed,k')) :
    read_bytes (bytes++[data]) {} = some k' := by
  obtain ⟨c,hread⟩ := check_keyboard_read hkey
  rw [read_bytes] at h ⊢
  rw [List.foldlM_append, h]
  change ((keyboard_readc (some data) k).map Prod.snd >>= pure) = _
  rw [hread]
  rfl

end Keys

section Results

variable {K : KernelImage} {allow : KState → x86_64_registers → Prop} {command : Option String}
  {bytes : List UInt8} {k : KeyState} {m : Machine}

/-- A running machine is in a run of the kernel that its last command line has started. -/
theorem session_runs (hK : Loadable K) (X : Session K allow command bytes k m) :
    read_bytes bytes {} = some k ∧ ∀ out, m = .on out →
      ∃ s s', kernel K command s = .ok (.user s') ∧ Continues K allow s' out := by
  have hstart : ∀ {command : Option String} {s : KState} {out : Outcome},
      kernel K command s = .ok out →
        ∃ s s', kernel K command s = .ok (.user s') ∧ Continues K allow s' out := by
    intro command s out h
    obtain ⟨label,s',rfl,-⟩ := kernel_ok hK h
    exact ⟨s,s',h,.refl⟩
  induction X with
  | power_on h =>
    refine ⟨rfl,fun out hout => ?_⟩
    cases hout
    exact hstart h
  | power_on_panic h => exact ⟨rfl,fun out hout => by cases hout⟩
  | exception X hallow h ih =>
    refine ⟨ih.1,fun out hout => ?_⟩
    cases hout
    obtain ⟨s,s',hboot,C⟩ := ih.2 _ rfl
    exact ⟨s,s',hboot,.exception C hallow h⟩
  | store X h ih =>
    refine ⟨ih.1,fun out hout => ?_⟩
    cases hout
    obtain ⟨s,s',hboot,C⟩ := ih.2 _ rfl
    exact ⟨s,s',hboot,.store C h⟩
  | panic X h ih => exact ⟨ih.1,fun out hout => by cases hout⟩
  | key X hm h ih => exact ⟨read_snoc ih.1 h,ih.2⟩
  | reboot X hm h hboot ih =>
    refine ⟨read_snoc ih.1 h,fun out hout => ?_⟩
    cases hout
    exact hstart hboot
  | reboot_panic X hm h hboot ih => exact ⟨read_snoc ih.1 h,fun out hout => by cases hout⟩
  | poweroff X hm h ih => exact ⟨read_snoc ih.1 h,fun out hout => by cases hout⟩

/-- Whatever is typed and however often the machine is rebooted, the kernel that runs is in a state
of a run from its last command line, with its invariants. A key is always understood, and a reboot
succeeds wherever the command line can be booted at all, with the same start. -/
theorem sessions_safe (hK : Loadable K) (X : Session K (Supplied K) command bytes k m) :
    (∀ out, m = .on out →
      (∃ s s', kernel K command s = .ok (.user s') ∧ Continues K (Supplied K) s' out) ∧
      ∃ label, Sound K label out.state) ∧
    ∀ data u, ∃ typed k', check_keyboard (some data) k = some (typed,k') ∧
      ∀ argument, typed = .reboot argument → ∀ s start,
        kernel K (some argument) s = .ok (.user start) → ∃ start',
          soft_reboot K argument u = .ok (.user start') ∧
            SameStart K (some argument) start start' := by
  obtain ⟨hread,hruns⟩ := session_runs hK X
  refine ⟨fun out hout => ?_,fun data u => ?_⟩
  · obtain ⟨s,s',hboot,C⟩ := hruns out hout
    obtain ⟨label,S,-⟩ := run_sound hK (Run.continue (.boot hboot) C)
    exact ⟨⟨s,s',hboot,C⟩,label,S⟩
  · obtain ⟨k₀,hk,T⟩ := tracks_start.read_bytes bytes
    rw [hread, Option.some.injEq] at hk
    subst hk
    obtain ⟨typed,k',hkey⟩ := check_keyboard_ok T data
    refine ⟨typed,k',hkey,fun argument _ s start hboot => ?_⟩
    obtain ⟨y,hy,label,V,s',t',hxs,hyt,D⟩ :=
      Both.left (kernel_both hK (some argument) s (temporary_pagetable u)) hboot
    rw [Outcome.user.injEq] at hxs
    subst hxs
    subst hyt
    exact ⟨t',hy,D.same⟩

/-- The sample kernel is rebooted with an f. -/
theorem fork_key_session : ∃ s start, Session sampleKernel (Supplied sampleKernel) (some "fork") [0x21]
    {} (.on (.user start)) ∧ kernel sampleKernel (some "fork") s = .ok (.user start) ∧
    ∃ label, Sound sampleKernel label start := by
  obtain ⟨label,s,hboot,-⟩ := sample_boot powerOn
  obtain ⟨label',start,hagain,-⟩ := sample_boot (temporary_pagetable s)
  have hkey : check_keyboard (some 0x21) {} = some (.reboot "fork",{}) := by decide +kernel
  have X : Session sampleKernel (Supplied sampleKernel) (some "fork") [0x21] {} (.on (.user start)) :=
    .reboot (.power_on hboot) (fun h => by cases h) hkey hagain
  exact ⟨_,start,X,hagain,((sessions_safe sample_loadable X).1 _ rfl).2⟩

end Results

end WeensyOS.Sessions
