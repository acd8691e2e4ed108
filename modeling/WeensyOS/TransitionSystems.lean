import Mathlib.Data.List.Basic
import Mathlib.Data.Option.Basic
import Mathlib.Logic.Function.Basic

/-!
# Labelled transition systems

Runs and what they keep, simulations that translate labels, and the history
of one component of an interleaving.
-/

set_option autoImplicit false

namespace WeensyOS.TransitionSystems

variable {σ τ ε δ ι α κ : Type*}

abbrev Moves (σ ε : Type*) := σ → ε → σ → Prop

inductive Runs (T : Moves σ ε) (s : σ) : List ε → σ → Prop where
  | refl : Runs T s [] s
  | snoc {l : List ε} {e : ε} {s' s'' : σ} (R : Runs T s l s') (h : T s' e s'') :
    Runs T s (l++[e]) s''

variable {T : Moves σ ε} {U : Moves τ δ} {s s' : σ} {l : List ε}

/-- Every move of a run starts in a state that satisfies the invariant. -/
theorem Runs.within {P : σ → Prop} (hstep : ∀ s e s', P s → T s e s' → P s') (R : Runs T s l s')
    (h : P s) : P s' ∧ Runs (fun s e s' => P s ∧ T s e s') s l s' := by
  induction R with
  | refl => exact ⟨h,.refl⟩
  | snoc _ hmove ih => exact ⟨hstep _ _ _ ih.1 hmove,.snoc ih.2 ⟨ih.1,hmove⟩⟩

section Simulation

/-- `U` follows each move of `T` with a label that reads as the label of that move. -/
def Simulates (T : Moves σ ε) (U : Moves τ δ) (rel : σ → τ → Prop) (read : δ → ε) : Prop :=
  ∀ s t e s', rel s t → T s e s' → ∃ d t', read d = e ∧ U t d t' ∧ rel s' t'

variable {rel : σ → τ → Prop} {read : δ → ε}

theorem Simulates.runs (S : Simulates T U rel read) {t : τ} (h : rel s t) (R : Runs T s l s') :
    ∃ l' t', l'.map read = l ∧ Runs U t l' t' ∧ rel s' t' := by
  induction R with
  | refl => exact ⟨[],t,rfl,.refl,h⟩
  | snoc _ hmove ih =>
    obtain ⟨l',t',hl,R',hrel⟩ := ih
    obtain ⟨d,t'',hd,hmove',hrel'⟩ := S _ _ _ _ hrel hmove
    refine ⟨l'++[d],t'',?_,.snoc R' hmove',hrel'⟩
    rw [List.map_append, hl, List.map_singleton, hd]

end Simulation

section Components

/-- Each move is the work of one component; the others stay as they are. Components may
be born but never vanish. -/
structure Interleaves (T : Moves σ (ι × α)) (component : σ → ι → Option κ)
    (act : ι → κ → α → Option κ) : Prop where
  acts : ∀ {s i a s'}, T s (i,a) s' →
    ∃ c c', component s i = some c ∧ act i c a = some c' ∧ component s' i = some c'
  others : ∀ {s i a s' j c}, T s (i,a) s' → j ≠ i → component s j = some c →
    component s' j = some c

variable [DecidableEq ι]

/-- What the component `i` does in a run. -/
def own (i : ι) (l : List (ι × α)) : List α :=
  l.filterMap fun e => if e.1 = i then some e.2 else none

theorem own_append (i : ι) (l l' : List (ι × α)) : own i (l++l') = own i l++own i l' :=
  List.filterMap_append

theorem own_self (i : ι) (a : α) : own i [(i,a)] = [a] := by
  simp [own]

theorem own_other {i j : ι} (a : α) (h : j ≠ i) : own i [(j,a)] = [] := by
  simp [own, h]

variable {T : Moves σ (ι × α)} {component : σ → ι → Option κ} {act : ι → κ → α → Option κ}
  {l : List (ι × α)}

/-- At the end of a run a component is what its own actions have made of it. -/
theorem Interleaves.history (I : Interleaves T component act) (R : Runs T s l s') {i : ι} {c : κ}
    (h : component s i = some c) :
    ∃ c', component s' i = some c' ∧ (own i l).foldlM (act i) c = some c' := by
  induction R with
  | refl => exact ⟨c,h,rfl⟩
  | @snoc l e s' s'' _ hmove ih =>
    obtain ⟨c₁,hc₁,hfold⟩ := ih
    obtain ⟨j,a⟩ := e
    rw [own_append, List.foldlM_append, hfold]
    by_cases hj : j = i
    · subst hj
      obtain ⟨c₂,c₃,hc₂,hact,hc₃⟩ := I.acts hmove
      rw [hc₁, Option.some.injEq] at hc₂
      refine ⟨c₃,hc₃,?_⟩
      rw [own_self, Option.bind_eq_bind, Option.bind_some, List.foldlM_cons, hc₂, hact]
      rfl
    · refine ⟨c₁,I.others hmove (Ne.symm hj) hc₁,?_⟩
      rw [own_other a hj]
      rfl

end Components

end WeensyOS.TransitionSystems
