import Mathlib

/-!
# Forests of radix trees in one store

A store holds nodes, and a node holds one word for each index. Several owners
keep radix trees of one depth in the same store. A node is labelled with its
place: whose tree it is in, and the indices that lead to it from the root.
Since a node has at most one label, two trees never meet and no node is
reached along two paths. The last word of a path is its leaf.
-/

set_option autoImplicit false

namespace WeensyOS.RadixForest

variable {Owner Node Idx Word : Type*}

/-- How a store encodes links. Only valid nodes can be linked to. -/
structure Scheme (Node Word : Type*) where
  depth : ℕ
  empty : Word
  link : Node → Word
  child : Word → Option Node
  Valid : Node → Prop
  child_empty : child empty = none
  child_link : ∀ n, Valid n → child (link n) = some n

attribute [simp] Scheme.child_empty

@[ext]
structure Place (Owner Idx : Type*) where
  owner : Owner
  path : List Idx
  deriving DecidableEq

variable (S : Scheme Node Word)

/-- Follow links from a node. -/
def walk (slot : Node → Idx → Word) : Node → List Idx → Option Node
  | n, [] => some n
  | n, i::p => (S.child (slot n i)).bind fun c => walk slot c p

/-- The word at the end of a path; `empty` where a link is missing. -/
def leaf (slot : Node → Idx → Word) : Node → List Idx → Word
  | _, [] => S.empty
  | n, [i] => slot n i
  | n, i::j::p => match S.child (slot n i) with
    | none => S.empty
    | some c => leaf slot c (j::p)

/-- Number of links still missing on a path that ends in a node. -/
def missing (slot : Node → Idx → Word) : Node → List Idx → ℕ
  | _, [] => 0
  | n, i::p => match S.child (slot n i) with
    | none => p.length+1
    | some c => missing slot c p

structure Forest (roots : Owner → Option Node) (slot : Node → Idx → Word)
    (label : Node → Option (Place Owner Idx)) : Prop where
  valid : ∀ n q, label n = some q → S.Valid n
  bounded : ∀ n q, label n = some q → q.path.length ≤ S.depth
  root : ∀ o r, roots o = some r → label r = some ⟨o,[]⟩
  child : ∀ n o p i, label n = some ⟨o,p⟩ → p.length < S.depth →
    slot n i = S.empty ∨ ∃ c, slot n i = S.link c ∧ label c = some ⟨o,p++[i]⟩
  rooted : ∀ n o p, label n = some ⟨o,p⟩ → ∃ r, roots o = some r ∧ walk S slot r p = some n

variable {S} {roots : Owner → Option Node} {slot slot' : Node → Idx → Word}
  {label : Node → Option (Place Owner Idx)}

theorem walk_append (n : Node) (p q : List Idx) :
    walk S slot n (p++q) = (walk S slot n p).bind fun c => walk S slot c q := by
  induction p generalizing n with
  | nil => rfl
  | cons i p ih =>
    simp only [List.cons_append, walk]
    cases S.child (slot n i) with
    | none => rfl
    | some c => exact ih c

theorem leaf_snoc (n : Node) (p : List Idx) (i : Idx) :
    leaf S slot n (p++[i]) = match walk S slot n p with
      | none => S.empty
      | some c => slot c i := by
  induction p generalizing n with
  | nil => rfl
  | cons j p ih =>
    cases p with
    | nil =>
      simp only [List.cons_append, List.nil_append, leaf, walk]
      cases S.child (slot n j) <;> rfl
    | cons k p =>
      simp only [List.cons_append, leaf, walk]
      cases h : S.child (slot n j) with
      | none => rfl
      | some c => simpa [walk] using ih c

theorem missing_eq_zero (n : Node) (p : List Idx) :
    missing S slot n p = 0 ↔ ∃ c, walk S slot n p = some c := by
  induction p generalizing n with
  | nil => simp [missing, walk]
  | cons i p ih =>
    simp only [missing, walk]
    cases S.child (slot n i) with
    | none => simp
    | some c => simpa using ih c

theorem missing_le (n : Node) (p : List Idx) : missing S slot n p ≤ p.length := by
  induction p generalizing n with
  | nil => exact Nat.le_refl 0
  | cons i p ih =>
    simp only [missing, List.length_cons]
    cases S.child (slot n i) with
    | none => exact Nat.le_refl _
    | some c => exact Nat.le_succ_of_le (ih c)

theorem missing_append (n c : Node) (p q : List Idx) (h : walk S slot n p = some c) :
    missing S slot n (p++q) = missing S slot c q := by
  induction p generalizing n with
  | nil => cases h; rfl
  | cons i p ih =>
    simp only [walk] at h
    simp only [List.cons_append, missing]
    cases hc : S.child (slot n i) with
    | none => simp [hc] at h
    | some d => exact ih d (by simpa [hc] using h)

theorem missing_blank (n : Node) (p : List Idx) (h : ∀ j, slot n j = S.empty) :
    missing S slot n p = p.length := by
  cases p with
  | nil => rfl
  | cons i p => simp [missing, h]

namespace Forest

/-- A link out of a labelled inner node goes to the labelled child. -/
theorem step (F : Forest S roots slot label) {n c : Node} {o : Owner} {p : List Idx} {i : Idx}
    (hn : label n = some ⟨o,p⟩) (hp : p.length < S.depth) (hc : S.child (slot n i) = some c) :
    slot n i = S.link c ∧ label c = some ⟨o,p++[i]⟩ := by
  rcases F.child n o p i hn hp with h | ⟨d,hd,hl⟩
  · simp [h] at hc
  · have hv := S.child_link d (F.valid d _ hl)
    rw [← hd, hc] at hv
    cases hv
    exact ⟨hd,hl⟩

theorem walk_label (F : Forest S roots slot label) {n c : Node} {o : Owner} {q p : List Idx}
    (hn : label n = some ⟨o,q⟩) (hlen : q.length+p.length ≤ S.depth)
    (hw : walk S slot n p = some c) : label c = some ⟨o,q++p⟩ := by
  induction p generalizing n q with
  | nil => cases hw; simpa using hn
  | cons i p ih =>
    simp only [List.length_cons] at hlen
    cases hc : S.child (slot n i) with
    | none => simp [walk, hc] at hw
    | some d =>
      obtain ⟨-,hd⟩ := F.step hn (by omega) hc
      have hrest := ih hd (by simp; omega) (by simpa [walk, hc] using hw)
      simpa using hrest

/-- No node is reached from two owners or along two paths. -/
theorem walk_injective (F : Forest S roots slot label) {o o' : Owner} {r r' c : Node}
    {p p' : List Idx} (hr : roots o = some r) (hr' : roots o' = some r')
    (hp : p.length ≤ S.depth) (hp' : p'.length ≤ S.depth)
    (hw : walk S slot r p = some c) (hw' : walk S slot r' p' = some c) : o = o' ∧ p = p' := by
  have h := F.walk_label (F.root o r hr) (by simpa using hp) hw
  have h' := F.walk_label (F.root o' r' hr') (by simpa using hp') hw'
  simpa [h] using h'

/-- A walk only reads the inner nodes of its own owner. -/
theorem walk_congr (F : Forest S roots slot label) {n : Node} {o : Owner} {q p : List Idx}
    (hn : label n = some ⟨o,q⟩) (hlen : q.length+p.length ≤ S.depth)
    (h : ∀ m q i, label m = some ⟨o,q⟩ → q.length < S.depth → slot' m i = slot m i) :
    walk S slot' n p = walk S slot n p := by
  induction p generalizing n q with
  | nil => rfl
  | cons i p ih =>
    simp only [List.length_cons] at hlen
    simp only [walk, h n q i hn (by omega)]
    cases hc : S.child (slot n i) with
    | none => rfl
    | some c => exact ih (F.step hn (by omega) hc).2 (by simp; omega)

theorem leaf_congr (F : Forest S roots slot label) {n : Node} {o : Owner} {q p : List Idx}
    (hn : label n = some ⟨o,q⟩) (hlen : q.length+p.length = S.depth+1)
    (h : ∀ m q i, label m = some ⟨o,q⟩ → slot' m i = slot m i) :
    leaf S slot' n p = leaf S slot n p := by
  induction p generalizing n q with
  | nil => rfl
  | cons i p ih =>
    cases p with
    | nil => exact h n q i hn
    | cons j p =>
      simp only [List.length_cons] at hlen
      simp only [leaf, h n q i hn]
      cases hc : S.child (slot n i) with
      | none => rfl
      | some c => exact ih (F.step hn (by omega) hc).2 (by simp; omega)

/-- Links that exist are kept, so every walk survives. -/
theorem walk_mono (F : Forest S roots slot label) {n c : Node} {o : Owner} {q p : List Idx}
    (hn : label n = some ⟨o,q⟩) (hlen : q.length+p.length ≤ S.depth)
    (h : ∀ m q i, label m = some ⟨o,q⟩ → q.length < S.depth → slot m i ≠ S.empty →
      slot' m i = slot m i)
    (hw : walk S slot n p = some c) : walk S slot' n p = some c := by
  induction p generalizing n q with
  | nil => exact hw
  | cons i p ih =>
    simp only [List.length_cons] at hlen
    cases hc : S.child (slot n i) with
    | none => simp [walk, hc] at hw
    | some d =>
      have hne : slot n i ≠ S.empty := fun he => by simp [he] at hc
      have hd := (F.step hn (by omega) hc).2
      have hrest := ih hd (by simp; omega) (by simpa [walk, hc] using hw)
      simpa [walk, h n q i hn (by omega) hne, hc] using hrest

/-- A walk to a labelled node survives when the links that exist are kept. -/
theorem rooted_mono (F : Forest S roots slot label) {n : Node} {o : Owner} {p : List Idx}
    (hn : label n = some ⟨o,p⟩)
    (h : ∀ m q i, label m = some ⟨o,q⟩ → q.length < S.depth → slot m i ≠ S.empty →
      slot' m i = slot m i) : ∃ r, roots o = some r ∧ walk S slot' r p = some n := by
  obtain ⟨r,hr,hw⟩ := F.rooted n o p hn
  have hlen := F.bounded n _ hn
  exact ⟨r,hr,F.walk_mono (F.root o r hr) (by simpa using hlen) h hw⟩

/-- Words outside the labelled nodes do not matter. -/
theorem frame (F : Forest S roots slot label)
    (h : ∀ n q i, label n = some q → slot' n i = slot n i) : Forest S roots slot' label where
  valid := F.valid
  bounded := F.bounded
  root := F.root
  child n o p i hn hp := by
    rw [h n _ i hn]
    exact F.child n o p i hn hp
  rooted n o p hn := F.rooted_mono hn fun m q i hm _ _ => h m _ i hm

/-- An owner without a root has no nodes. -/
theorem label_rootless (F : Forest S roots slot label) {o : Owner} (ho : roots o = none)
    {n : Node} {q : Place Owner Idx} (hn : label n = some q) : q.owner ≠ o := by
  rintro rfl
  obtain ⟨r,hr,-⟩ := F.rooted n q.owner q.path hn
  rw [ho] at hr
  cases hr

/-- The nodes reached from the roots are the labelled ones. -/
theorem walk_iff (F : Forest S roots slot label) {n r : Node} {o : Owner} {p : List Idx}
    (hr : roots o = some r) (hp : p.length ≤ S.depth) :
    walk S slot r p = some n ↔ label n = some ⟨o,p⟩ := by
  constructor
  · intro hw
    simpa using F.walk_label (F.root o r hr) (by simpa using hp) hw
  · intro hn
    obtain ⟨r',hr',hw⟩ := F.rooted n o p hn
    rw [hr] at hr'
    cases hr'
    exact hw

/-- The labels determine every link. -/
theorem link_unique (F : Forest S roots slot label) (F' : Forest S roots slot' label)
    {n : Node} {o : Owner} {p : List Idx} (hn : label n = some ⟨o,p⟩) (hp : p.length < S.depth)
    (i : Idx) : slot' n i = slot n i := by
  have hlink : ∀ {slot₁ : Node → Idx → Word}, Forest S roots slot₁ label → ∀ c,
      label c = some ⟨o,p++[i]⟩ → slot₁ n i = S.link c := by
    intro slot₁ F₁ c hc
    obtain ⟨r,hr,hw⟩ := F₁.rooted c o _ hc
    rw [walk_append, (F₁.walk_iff hr (by omega)).2 hn] at hw
    rcases F₁.child n o p i hn hp with he | ⟨d,hd,hl⟩
    · simp [walk, he] at hw
    · have hdc : d = c := by simpa [walk, hd, S.child_link d (F₁.valid d _ hl)] using hw
      rw [hd, hdc]
  rcases F.child n o p i hn hp with he | ⟨c,hc,hl⟩
  · rcases F'.child n o p i hn hp with he' | ⟨c',hc',hl'⟩
    · rw [he, he']
    · rw [hc', hlink F c' hl']
  · rw [hc, hlink F' c hl]

/-- Counting missing links only reads inner nodes of the owner. -/
theorem missing_congr (F : Forest S roots slot label) {n : Node} {o : Owner} {q p : List Idx}
    (hn : label n = some ⟨o,q⟩) (hlen : q.length+p.length ≤ S.depth)
    (h : ∀ m q i, label m = some ⟨o,q⟩ → q.length < S.depth → slot' m i = slot m i) :
    missing S slot' n p = missing S slot n p := by
  induction p generalizing n q with
  | nil => rfl
  | cons i p ih =>
    simp only [List.length_cons] at hlen
    simp only [missing, h n q i hn (by omega)]
    cases hc : S.child (slot n i) with
    | none => rfl
    | some c => exact ih (F.step hn (by omega) hc).2 (by simp; omega)

end Forest

section Attach

variable [DecidableEq Node]

/-- What attaching the fresh empty node `c` below `n` at index `i` does to the words. -/
structure Attached (S : Scheme Node Word) (label : Node → Option (Place Owner Idx))
    (slot slot' : Node → Idx → Word) (n : Node) (i : Idx) (c : Node) : Prop where
  linked : slot' n i = S.link c
  blank : ∀ j, slot' c j = S.empty
  others : ∀ m q j, label m = some q → (m ≠ n ∨ j ≠ i) → slot' m j = slot m j

theorem Forest.attach (F : Forest S roots slot label) {n c : Node} {o : Owner} {p : List Idx}
    {i : Idx} (hn : label n = some ⟨o,p⟩) (hp : p.length < S.depth)
    (hc : label c = none) (hv : S.Valid c) (A : Attached S label slot slot' n i c)
    (he : slot n i = S.empty) :
    Forest S roots slot' (Function.update label c (some ⟨o,p++[i]⟩)) := by
  have hold : ∀ m q, label m = some q → Function.update label c (some ⟨o,p++[i]⟩) m = some q := by
    intro m q hm
    have hmc : m ≠ c := by rintro rfl; simp [hc] at hm
    rw [Function.update_of_ne hmc, hm]
  have hkeep : ∀ m q j, label m = some q → slot m j ≠ S.empty → slot' m j = slot m j := by
    intro m q j hm hne
    refine A.others m q j hm ?_
    by_contra hsame
    simp only [not_or, not_not] at hsame
    obtain ⟨rfl,rfl⟩ := hsame
    exact hne he
  refine ⟨?_,?_,?_,?_,?_⟩
  · intro m q hm
    by_cases hmc : m = c
    · exact hmc ▸ hv
    · exact F.valid m q (by rwa [Function.update_of_ne hmc] at hm)
  · intro m q hm
    by_cases hmc : m = c
    · subst hmc
      simp only [Function.update_self, Option.some.injEq] at hm
      simp [← hm]
      omega
    · exact F.bounded m q (by rwa [Function.update_of_ne hmc] at hm)
  · intro o' r hr
    exact hold r _ (F.root o' r hr)
  · intro m o' p' j hm hp'
    by_cases hmc : m = c
    · exact Or.inl (hmc ▸ A.blank j)
    · rw [Function.update_of_ne hmc] at hm
      by_cases hmn : m = n ∧ j = i
      · obtain ⟨rfl,rfl⟩ := hmn
        have hsame : (⟨o,p⟩ : Place Owner Idx) = ⟨o',p'⟩ := by simpa [hn] using hm
        cases hsame
        exact Or.inr ⟨c,A.linked,Function.update_self ..⟩
      · have hslot : slot' m j = slot m j := A.others m _ j hm (by tauto)
        rw [hslot]
        rcases F.child m o' p' j hm hp' with h | ⟨d,hd,hl⟩
        · exact Or.inl h
        · exact Or.inr ⟨d,hd,hold d _ hl⟩
  · intro m o' p' hm
    by_cases hmc : m = c
    · subst hmc
      simp only [Function.update_self, Option.some.injEq, Place.mk.injEq] at hm
      obtain ⟨rfl,rfl⟩ := hm
      obtain ⟨r,hr,hw⟩ := F.rooted_mono hn fun m q j hm _ hne => hkeep m _ j hm hne
      exact ⟨r,hr,by simp [walk_append, hw, walk, A.linked, S.child_link m hv]⟩
    · rw [Function.update_of_ne hmc] at hm
      exact F.rooted_mono hm fun m q j hm _ hne => hkeep m _ j hm hne

/-- An empty table in the middle of a tree is invisible at the leaves. -/
theorem Forest.attach_leaf (F : Forest S roots slot label) {n c : Node} {o : Owner}
    {p : List Idx} {i : Idx} (hn : label n = some ⟨o,p⟩) (hp : p.length < S.depth)
    (hv : S.Valid c) (A : Attached S label slot slot' n i c)
    (he : slot n i = S.empty) {m : Node} {o' : Owner} {q path : List Idx}
    (hm : label m = some ⟨o',q⟩) (hlen : q.length+path.length = S.depth+1) :
    leaf S slot' m path = leaf S slot m path := by
  induction path generalizing m q with
  | nil => rfl
  | cons j path ih =>
    cases path with
    | nil =>
      have hne : m ≠ n := by
        rintro rfl
        have hsame : (⟨o,p⟩ : Place Owner Idx) = ⟨o',q⟩ := by simpa [hn] using hm
        cases hsame
        simp only [List.length_cons, List.length_nil] at hlen
        omega
      exact A.others m _ j hm (Or.inl hne)
    | cons k path =>
      simp only [List.length_cons] at hlen
      by_cases hmn : m = n ∧ j = i
      · obtain ⟨rfl,rfl⟩ := hmn
        -- the new table is empty, so the path ends in it as it ended before
        have hblank : leaf S slot' c (k::path) = S.empty := by
          cases path with
          | nil => exact A.blank k
          | cons l path => simp [leaf, A.blank k]
        simp [leaf, A.linked, S.child_link c hv, he, hblank]
      · have hslot : slot' m j = slot m j := A.others m _ j hm (by tauto)
        simp only [leaf, hslot]
        cases hc : S.child (slot m j) with
        | none => rfl
        | some d => exact ih (F.step hm (by omega) hc).2 (by simp; omega)

/-- A new owner starts with an empty root. -/
theorem Forest.plant (F : Forest S roots slot label) [DecidableEq Owner] {o : Owner} {c : Node}
    (ho : roots o = none) (hc : label c = none) (hv : S.Valid c) (hb : ∀ j, slot' c j = S.empty)
    (hs : ∀ m q j, label m = some q → slot' m j = slot m j) :
    Forest S (Function.update roots o (some c)) slot'
      (Function.update label c (some ⟨o,[]⟩)) := by
  have hold : ∀ m q, label m = some q → Function.update label c (some ⟨o,[]⟩) m = some q := by
    intro m q hm
    have hmc : m ≠ c := by rintro rfl; simp [hc] at hm
    rw [Function.update_of_ne hmc, hm]
  refine ⟨?_,?_,?_,?_,?_⟩
  · intro m q hm
    by_cases hmc : m = c
    · exact hmc ▸ hv
    · exact F.valid m q (by rwa [Function.update_of_ne hmc] at hm)
  · intro m q hm
    by_cases hmc : m = c
    · subst hmc
      simp only [Function.update_self, Option.some.injEq] at hm
      simp [← hm]
    · exact F.bounded m q (by rwa [Function.update_of_ne hmc] at hm)
  · intro o' r hr
    by_cases ho : o' = o
    · subst ho
      simp only [Function.update_self, Option.some.injEq] at hr
      simp [← hr]
    · exact hold r _ (F.root o' r (by rwa [Function.update_of_ne ho] at hr))
  · intro m o' p' j hm hp'
    by_cases hmc : m = c
    · exact Or.inl (hmc ▸ hb j)
    · rw [Function.update_of_ne hmc] at hm
      rw [hs m _ j hm]
      rcases F.child m o' p' j hm hp' with h | ⟨d,hd,hl⟩
      · exact Or.inl h
      · exact Or.inr ⟨d,hd,hold d _ hl⟩
  · intro m o' p' hm
    by_cases hmc : m = c
    · subst hmc
      simp only [Function.update_self, Option.some.injEq, Place.mk.injEq] at hm
      obtain ⟨rfl,rfl⟩ := hm
      exact ⟨m,Function.update_self ..,rfl⟩
    · rw [Function.update_of_ne hmc] at hm
      rw [Function.update_of_ne (F.label_rootless ho hm)]
      exact F.rooted_mono hm fun m q j hm _ _ => hs m _ j hm

end Attach

section SetLeaf

/-- Only the word of `n` at `i` changes among the labelled nodes. -/
structure Written (label : Node → Option (Place Owner Idx))
    (slot slot' : Node → Idx → Word) (n : Node) (i : Idx) (w : Word) : Prop where
  here : slot' n i = w
  others : ∀ m q j, label m = some q → (m ≠ n ∨ j ≠ i) → slot' m j = slot m j

variable {n : Node} {i : Idx} {w : Word} {o : Owner} {p : List Idx}

theorem Forest.write (F : Forest S roots slot label) (hn : label n = some ⟨o,p⟩)
    (hp : p.length = S.depth) (W : Written label slot slot' n i w) :
    Forest S roots slot' label where
  valid := F.valid
  bounded := F.bounded
  root := F.root
  child m o' p' j hm hp' := by
    have hne : m ≠ n := by
      rintro rfl
      have hsame : (⟨o,p⟩ : Place Owner Idx) = ⟨o',p'⟩ := by simpa [hn] using hm
      cases hsame
      omega
    rw [W.others m _ j hm (Or.inl hne)]
    exact F.child m o' p' j hm hp'
  rooted m o' p' hm := by
    refine F.rooted_mono hm fun l q' j hl hq' _ => W.others l _ j hl (Or.inl ?_)
    rintro rfl
    have hsame : (⟨o,p⟩ : Place Owner Idx) = ⟨o',q'⟩ := by simpa [hn] using hl
    cases hsame
    omega

theorem Forest.write_walk (F : Forest S roots slot label) (hn : label n = some ⟨o,p⟩)
    (hp : p.length = S.depth) (W : Written label slot slot' n i w)
    {m : Node} {o' : Owner} {q path : List Idx} (hm : label m = some ⟨o',q⟩)
    (hlen : q.length+path.length ≤ S.depth) :
    walk S slot' m path = walk S slot m path := by
  refine F.walk_congr hm hlen fun l q' j hl hq' => W.others l _ j hl (Or.inl ?_)
  rintro rfl
  have hsame : (⟨o,p⟩ : Place Owner Idx) = ⟨o',q'⟩ := by simpa [hn] using hl
  cases hsame
  omega

/-- Writing a leaf word changes one leaf of one owner and nothing else. -/
theorem Forest.write_leaf (F : Forest S roots slot label) [DecidableEq Owner] [DecidableEq Idx]
    {r : Node} (hr : roots o = some r) (hw : walk S slot r p = some n)
    (hp : p.length = S.depth) (W : Written label slot slot' n i w)
    {o' : Owner} {r' : Node} (hr' : roots o' = some r') {path : List Idx}
    (hlen : path.length = S.depth+1) :
    leaf S slot' r' path = if o' = o ∧ path = p++[i] then w else leaf S slot r' path := by
  have hn : label n = some ⟨o,p⟩ := by
    simpa using F.walk_label (F.root o r hr) (by simp [hp]) hw
  have hne : path ≠ [] := by rintro rfl; simp at hlen
  obtain ⟨q,j,rfl⟩ : ∃ q j, path = q++[j] :=
    ⟨path.dropLast,path.getLast hne,(List.dropLast_concat_getLast hne).symm⟩
  have hq : q.length = S.depth := by simpa using hlen
  have hwalk : walk S slot' r' q = walk S slot r' q :=
    F.write_walk hn hp W (F.root o' r' hr') (by simp [hq])
  rw [leaf_snoc, leaf_snoc, hwalk]
  by_cases heq : o' = o ∧ q++[j] = p++[i]
  · obtain ⟨rfl,hpath⟩ := heq
    obtain ⟨rfl,hij⟩ := List.append_inj' hpath rfl
    cases hij
    rw [hr] at hr'
    cases hr'
    simp [hw, W.here]
  · rw [if_neg heq]
    cases hc : walk S slot r' q with
    | none => rfl
    | some c =>
      have hl : label c = some ⟨o',q⟩ := by
        simpa using F.walk_label (F.root o' r' hr') (by simp [hq]) hc
      refine W.others c _ j hl ?_
      by_contra hsame
      simp only [not_or, not_not] at hsame
      obtain ⟨rfl,rfl⟩ := hsame
      have : o = o' ∧ p = q := by simpa [hn] using hl
      exact heq ⟨this.1.symm, by rw [this.2]⟩

end SetLeaf

end WeensyOS.RadixForest
