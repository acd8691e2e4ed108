import Mathlib.Data.Int.Notation
import WeensyOS.TransitionSystems

/-!
# A time-sharing machine

Tasks with private paged memories and one shared page, of which one task runs
at a time. Its events are stores and calls; the machine may refuse a call, and
chooses what a new page contains.
-/

set_option autoImplicit false

namespace WeensyOS.TimeSharing
open WeensyOS.TransitionSystems

inductive Request (Page : Type*) where
  | identify
  | yield
  | fault
  | fork
  | grow (p : Page)

/-- How a machine reads addresses and registers. An address is an offset in a page; no page
is the shared one. -/
structure Interface (Addr Reg Page Offset : Type*) where
  locate : Addr → Option (Option Page × Offset)
  request : Reg → Option (Request Page)
  answer : Reg → ℤ → Reg

inductive Action (Addr Reg Byte : Type*) where
  | store (a : Addr) (b : Byte)
  | call (reg : Reg)

abbrev Space (Page Offset Byte : Type*) := Page → Option (Offset → Byte)

structure Task (Reg Page Offset Byte : Type*) where
  registers : Reg
  runnable : Bool
  space : Space Page Offset Byte

/-- What the machine decides about an action. An abandoned fork leaves a child behind. -/
inductive Response (Page Offset Byte : Type*) where
  | done
  | refused
  | page (contents : Offset → Byte)
  | child (j : ℕ)
  | full
  | abandoned (j : ℕ) (space : Space Page Offset Byte)

@[ext] structure Machine (Reg Page Offset Byte : Type*) where
  tasks : ℕ → Option (Task Reg Page Offset Byte)
  shared : Offset → Byte
  running : Option ℕ

variable {Addr Reg Page Offset Byte : Type*} [DecidableEq Page] [DecidableEq Offset]

section Tasks

def Task.write (t : Task Reg Page Offset Byte) (b : Byte) :
    Option Page × Offset → Option (Task Reg Page Offset Byte)
  | (none,_) => some t
  | (some p,k) => (t.space p).map fun page =>
    { t with space := Function.update t.space p (some (Function.update page k b)) }

/-- The task `i` after its call with the registers `reg`. -/
def Task.serve (I : Interface Addr Reg Page Offset) (i : ℕ) (t : Task Reg Page Offset Byte)
    (reg : Reg) :
    Request Page → Response Page Offset Byte → Option (Task Reg Page Offset Byte)
  | .identify, .done => some { t with registers := I.answer reg i }
  | .yield, .done => some { t with registers := reg }
  | .fault, .done => some { t with registers := reg, runnable := false }
  | .grow p, .page contents => some { t with
      registers := I.answer reg 0, space := Function.update t.space p (some contents) }
  | .grow _, .refused => some { t with registers := I.answer reg (-1) }
  | .fork, .child j => some { t with registers := I.answer reg j }
  | .fork, .full => some { t with registers := I.answer reg (-1) }
  | .fork, .abandoned _ _ => some { t with registers := I.answer reg (-1) }
  | _, _ => none

/-- A task as a machine of its own: what it does, with the responses it gets. -/
def Task.perform (I : Interface Addr Reg Page Offset) (i : ℕ) (t : Task Reg Page Offset Byte) :
    Action Addr Reg Byte × Response Page Offset Byte → Option (Task Reg Page Offset Byte)
  | (.store a b,.done) => (I.locate a).bind (t.write b)
  | (.call reg,r) => (I.request reg).bind fun q => t.serve I i reg q r
  | _ => none

theorem Task.perform_call {I : Interface Addr Reg Page Offset} {i : ℕ}
    {t : Task Reg Page Offset Byte} {reg : Reg} {q : Request Page} (h : I.request reg = some q)
    (r : Response Page Offset Byte) : t.perform I i (.call reg,r) = t.serve I i reg q r := by
  simp only [Task.perform, h, Option.bind_some]

end Tasks

section Machines

/-- The first of the slots after `i`, going round, that is ready. -/
def next (n : ℕ) (ready : ℕ → Bool) (i : ℕ) : Option ℕ :=
  ((List.range' 1 n).map fun k => (i+k) % n).find? ready

/-- The lowest slot without a task; the slot 0 is never used. -/
structure Vacant (n : ℕ) (m : Machine Reg Page Offset Byte) (j : ℕ) : Prop where
  pos : 0 < j
  lt : j < n
  free : m.tasks j = none
  least : ∀ k, 0 < k → k < j → m.tasks k ≠ none

/-- The responses that the machine may give to the task `t`. -/
def Admissible (n : ℕ) (m : Machine Reg Page Offset Byte) (t : Task Reg Page Offset Byte) :
    Response Page Offset Byte → Prop
  | .child j => Vacant n m j
  | .full => ∀ j, 0 < j → j < n → m.tasks j ≠ none
  | .abandoned j space => Vacant n m j ∧ ∀ p, space p = none ∨ space p = t.space p
  | _ => True

/-- The task that a call brings into being. -/
def born (I : Interface Addr Reg Page Offset) (t : Task Reg Page Offset Byte) :
    Action Addr Reg Byte → Response Page Offset Byte → Option (ℕ × Task Reg Page Offset Byte)
  | .call reg, .child j => some (j,⟨I.answer reg 0,true,t.space⟩)
  | .call reg, .abandoned j space => some (j,⟨reg,true,space⟩)
  | _, _ => none

def place (child : Option (ℕ × Task Reg Page Offset Byte))
    (tasks : ℕ → Option (Task Reg Page Offset Byte)) : ℕ → Option (Task Reg Page Offset Byte) :=
  match child with
  | some (j,t) => Function.update tasks j (some t)
  | none => tasks

def sharedAfter (I : Interface Addr Reg Page Offset) (shared : Offset → Byte) :
    Action Addr Reg Byte → Offset → Byte
  | .store a b => match I.locate a with
    | some (none,k) => Function.update shared k b
    | _ => shared
  | .call _ => shared

/-- The calls that give up the processor. -/
def Interface.releases (I : Interface Addr Reg Page Offset) : Action Addr Reg Byte → Bool
  | .store _ _ => false
  | .call reg => match I.request reg with
    | some .yield => true
    | _ => false

def Machine.ready (m : Machine Reg Page Offset Byte) (j : ℕ) : Bool :=
  (m.tasks j).any Task.runnable

/-- The machine after the task `i` has become `t'`. -/
def Machine.after (I : Interface Addr Reg Page Offset) (n : ℕ) (m : Machine Reg Page Offset Byte)
    (i : ℕ) (t t' : Task Reg Page Offset Byte) (a : Action Addr Reg Byte)
    (r : Response Page Offset Byte) : Machine Reg Page Offset Byte :=
  let m' : Machine Reg Page Offset Byte :=
    { m with
      tasks := place (born I t a r) (Function.update m.tasks i (some t'))
      shared := sharedAfter I m.shared a }
  if I.releases a ∨ ¬t'.runnable then { m' with running := next n m'.ready i } else m'

inductive Step (I : Interface Addr Reg Page Offset) (n : ℕ) :
    Moves (Machine Reg Page Offset Byte)
      (ℕ × Action Addr Reg Byte × Response Page Offset Byte) where
  | event {m : Machine Reg Page Offset Byte} {i : ℕ} {t t' : Task Reg Page Offset Byte}
    {a : Action Addr Reg Byte} {r : Response Page Offset Byte} (hrun : m.running = some i)
    (htask : m.tasks i = some t) (hact : t.perform I i (a,r) = some t')
    (hfit : Admissible n m t r) : Step I n m (i,a,r) (m.after I n i t t' a r)

end Machines

section Interleaving

variable {I : Interface Addr Reg Page Offset} {n i j : ℕ} {m m' : Machine Reg Page Offset Byte}
  {t t' : Task Reg Page Offset Byte} {a : Action Addr Reg Byte} {r : Response Page Offset Byte}

omit [DecidableEq Page] in
@[simp] theorem after_tasks : (m.after I n i t t' a r).tasks =
    place (born I t a r) (Function.update m.tasks i (some t')) := by
  rw [Machine.after]
  split <;> rfl

omit [DecidableEq Page] in
@[simp] theorem after_shared : (m.after I n i t t' a r).shared = sharedAfter I m.shared a := by
  rw [Machine.after]
  split <;> rfl

omit [DecidableEq Page] in
theorem after_running : (m.after I n i t t' a r).running =
    if I.releases a ∨ ¬t'.runnable then next n (m.after I n i t t' a r).ready i
    else m.running := by
  rw [Machine.after]
  split <;> rfl

omit [DecidableEq Page] in
theorem after_store {x : Addr} {b : Byte} (h : t'.runnable = true) :
    m.after I n i t t' (.store x b) r = { m with
      tasks := Function.update m.tasks i (some t')
      shared := sharedAfter I m.shared (.store x b) } := by
  rw [Machine.after, if_neg (by simp [Interface.releases, h])]
  rfl

omit [DecidableEq Page] [DecidableEq Offset] in
/-- A new task takes a slot that had none. -/
theorem born_vacant {u : Task Reg Page Offset Byte} (h : born I t a r = some (j,u))
    (hfit : Admissible n m t r) : Vacant n m j := by
  cases a with
  | store a b => cases h
  | call reg =>
    cases r with
    | child k =>
      cases h
      exact hfit
    | abandoned k space =>
      cases h
      exact hfit.1
    | done => cases h
    | refused => cases h
    | page contents => cases h
    | full => cases h

omit [DecidableEq Page] [DecidableEq Offset] in
theorem place_other {tasks : ℕ → Option (Task Reg Page Offset Byte)}
    {child : Option (ℕ × Task Reg Page Offset Byte)} (h : ∀ u, child ≠ some (j,u)) :
    place child tasks j = tasks j := by
  cases child with
  | none => rfl
  | some x =>
    obtain ⟨k,u⟩ := x
    have hne : j ≠ k := fun hj => h u (hj ▸ rfl)
    exact Function.update_of_ne hne _ _

/-- Only a fork brings a task into being. -/
theorem born_fork {reg : Reg} {u : Task Reg Page Offset Byte}
    (hact : t.perform I i (.call reg,r) = some t') (h : born I t (.call reg) r = some (j,u)) :
    I.request reg = some .fork := by
  cases hq : I.request reg with
  | none =>
    simp only [Task.perform, hq, Option.bind_none] at hact
    cases hact
  | some q =>
    rw [Task.perform_call hq] at hact
    cases r with
    | child k => cases q <;> first | rfl | cases hact
    | abandoned k space => cases q <;> first | rfl | cases hact
    | done => cases h
    | refused => cases h
    | page contents => cases h
    | full => cases h

omit [DecidableEq Page] in
/-- The task that acts keeps its slot. -/
theorem after_self (htask : m.tasks i = some t) (hfit : Admissible n m t r) :
    (m.after I n i t t' a r).tasks i = some t' := by
  rw [after_tasks, place_other, Function.update_self]
  intro u hb
  rw [(born_vacant hb hfit).free] at htask
  cases htask

/-- Where the tasks after an event come from. -/
theorem Step.tasks (h : Step I n m (i,a,r) m') : ∃ t t', m.tasks i = some t ∧
    t.perform I i (a,r) = some t' ∧ ∀ j u, m'.tasks j = some u →
      (j = i ∧ u = t') ∨ (j ≠ i ∧ m.tasks j = some u) ∨
      (m.tasks j = none ∧ born I t a r = some (j,u)) := by
  cases h with
  | @event _ _ t t' _ _ hrun htask hact hfit =>
    refine ⟨t,t',htask,hact,fun j u hu => ?_⟩
    rw [after_tasks] at hu
    by_cases hb : ∃ v, born I t a r = some (j,v)
    · obtain ⟨v,hv⟩ := hb
      rw [hv, place, Function.update_self, Option.some.injEq] at hu
      exact Or.inr (Or.inr ⟨(born_vacant hv hfit).free,hu ▸ hv⟩)
    · rw [place_other fun v hv => hb ⟨v,hv⟩] at hu
      by_cases hj : j = i
      · rw [hj, Function.update_self, Option.some.injEq] at hu
        exact Or.inl ⟨hj,hu.symm⟩
      · rw [Function.update_of_ne hj] at hu
        exact Or.inr (Or.inl ⟨hj,hu⟩)

theorem interleaves (I : Interface Addr Reg Page Offset) (n : ℕ) :
    Interleaves (Step I n) (@Machine.tasks Reg Page Offset Byte) (Task.perform I) where
  acts := by
    rintro m i ⟨a,r⟩ m' h
    cases h with
    | event hrun htask hact hfit => exact ⟨_,_,htask,hact,after_self htask hfit⟩
  others := by
    rintro m i ⟨a,r⟩ m' j c h hj hc
    cases h with
    | event hrun htask hact hfit =>
      rw [after_tasks, place_other, Function.update_of_ne hj, hc]
      intro u hb
      rw [(born_vacant hb hfit).free] at hc
      cases hc

end Interleaving

end WeensyOS.TimeSharing
