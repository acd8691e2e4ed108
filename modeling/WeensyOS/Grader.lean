import WeensyOS.LogRoundTrip
import WeensyOS.CheckedRuns

/-!
# The checks of parse_log.py

What the grader looks for in the dumps of a log. A dictionary is the list of its
items, in the order in which the loops see them.
-/

set_option autoImplicit false

namespace WeensyOS.Grader
open WeensyOS.LogParser WeensyOS.CheckedRuns

section Source

def KERNEL_LIMIT : ℕ := 0x100000 / 4096

def CGA_BLOCK : ℕ := 0xB8000 / 4096

def PTE_W : ℤ := 2

/-- `self.vm_state.items()` -/
abbrev Items := List (ℤ × List VMEntry)

def IsKernelIsolated (items : Items) : Except Exc Bool :=
  .ok (items.all fun (_,entries) => (entries.take KERNEL_LIMIT).zipIdx.all fun (entry,i) =>
    ¬(i ≠ CGA_BLOCK ∧ entry.ua ≠ 0))

def AreProcessesIsolated (items : Items) : Except Exc Bool :=
  .ok (items.all fun (process_id,entries) => entries.zipIdx.all fun (entry,i) =>
    i < KERNEL_LIMIT ∨ ¬(entry.owner ≠ 0 ∧ entry.owner ≠ process_id ∧ entry.ua ≠ 0))

def CheckOwnershipInvariant (items : Items) : Except Exc Bool :=
  .ok (items.all fun (process_id,entries) => entries.zipIdx.all fun (entry,i) =>
    i < KERNEL_LIMIT ∨ ¬(entry.owner ≠ 0 ∧ entry.owner = process_id ∧ entry.ua = 0))

def CheckCGAAccessInvariant : Items → Except Exc Bool
  | [] => .ok true
  | (_,entries)::items => do
    let entry ← index entries CGA_BLOCK
    if entry.ua = 0 then .ok false else CheckCGAAccessInvariant items

def IsForkOK : Items → Except Exc Bool
  | [] => .ok true
  | (process_id,entries)::items => do
    let entry ← index entries KERNEL_LIMIT
    if entry.owner = 0 ∨ (entry.owner ≠ process_id ∧ Int.land entry.perm PTE_W ≠ 0) then .ok false
    else IsForkOK items

/-- The loop of `PerformCheck`, with `res` and `tick`. -/
def perform_loop (check : Items → Except Exc Bool) (start_at_tick : ℤ) :
    List (ℤ × Items) → ℤ → ℤ → Except Exc (ℤ × ℤ)
  | [], res, tick => .ok (res,tick)
  | (tick,instance_items)::rest, res, _ =>
    if tick < start_at_tick then perform_loop check start_at_tick rest res tick
    else do
      if ← check instance_items then perform_loop check start_at_tick rest 1 tick
      else .ok (0,tick)

/-- `data` is `sorted(self.mem_data.items())`. -/
def PerformCheck (data : List (ℤ × Items)) (check : Items → Except Exc Bool) (start_at_tick : ℤ) :
    Except Exc (ℤ × ℤ) := perform_loop check start_at_tick data 0 0

/-- How the script ends early: an exception, or `sys.exit(1)`. -/
inductive Ended where
  | exc (e : Exc)
  | exit
deriving DecidableEq

def require (check : Except Exc Bool) : Except Ended Unit :=
  match check with
  | .error e => .error (.exc e)
  | .ok true => .ok ()
  | .ok false => .error .exit

def CheckInvariants (data : List (ℤ × Items)) (panic : Bool) (expected_max_tick : ℤ) :
    Except Ended Unit := do
  match (data.map Prod.fst).max? with
  | some max_tick => if ¬panic ∧ expected_max_tick ≠ max_tick then .error .exit else .ok ()
  | none => .ok ()
  data.forM fun (_,items) => do
    require (CheckOwnershipInvariant items)
    require (CheckCGAAccessInvariant items)

end Source

/-- The list of the items of a dictionary. -/
structure ItemsOf {α : Type} (d : ℤ → Option α) (l : List (ℤ × α)) : Prop where
  keys : (l.map Prod.fst).Nodup
  items : ∀ k a, (k,a) ∈ l ↔ d k = some a

/-- The items of a timeline by tick, with the items of each instance. -/
structure Sorted (T : MemMapTimeline) (data : List (ℤ × Items)) : Prop where
  sorted : (data.map Prod.fst).Pairwise (· < ·)
  ticks : ∀ tick, tick ∈ data.map Prod.fst ↔ ∃ x, T.mem_data tick = some x
  items : ∀ tick items, (tick,items) ∈ data →
    ∃ x, T.mem_data tick = some x ∧ ItemsOf x.vm_state items

/-- What the grader expects of the address space of a process. -/
structure Fit (process_id : ℤ) (entries : List VMEntry) : Prop where
  length : entries.length = 768
  kernel : ∀ i entry, entries[i]? = some entry → i < KERNEL_LIMIT → i ≠ CGA_BLOCK → entry.ua = 0
  console : ∀ entry, entries[CGA_BLOCK]? = some entry → entry.ua ≠ 0
  own : ∀ i entry, entries[i]? = some entry → KERNEL_LIMIT ≤ i → entry.owner ≠ 0 →
    entry.owner = process_id ∧ entry.ua ≠ 0

section Checks

variable {items : Items} {data : List (ℤ × Items)} {check : Items → Except Exc Bool}
  {start_at_tick res tick : ℤ}

theorem kernel_isolated (h : ∀ x ∈ items, Fit x.1 x.2) : IsKernelIsolated items = .ok true := by
  rw [IsKernelIsolated, Except.ok.injEq, List.all_eq_true]
  rintro ⟨process_id,entries⟩ hx
  rw [List.all_eq_true]
  rintro ⟨entry,i⟩ hi
  rw [List.mem_zipIdx_iff_getElem?, List.getElem?_take] at hi
  rw [decide_eq_true_iff]
  rintro ⟨hcga,hua⟩
  split at hi
  · rename_i hlow
    exact hua ((h _ hx).kernel i entry hi hlow hcga)
  · cases hi

/-- Above the kernel the only pages with an owner are the process's own, which it can access. -/
theorem own_pages {process_id : ℤ} {entries : List VMEntry} (F : Fit process_id entries)
    {entry : VMEntry} {i : ℕ} (hi : (entry,i) ∈ entries.zipIdx) :
    i < KERNEL_LIMIT ∨ entry.owner = 0 ∨ (entry.owner = process_id ∧ entry.ua ≠ 0) := by
  rw [List.mem_zipIdx_iff_getElem?] at hi
  by_cases hlow : i < KERNEL_LIMIT
  · exact Or.inl hlow
  · by_cases howner : entry.owner = 0
    · exact Or.inr (Or.inl howner)
    · exact Or.inr (Or.inr (F.own i entry hi (not_lt.1 hlow) howner))

theorem processes_isolated (h : ∀ x ∈ items, Fit x.1 x.2) :
    AreProcessesIsolated items = .ok true := by
  rw [AreProcessesIsolated, Except.ok.injEq, List.all_eq_true]
  rintro ⟨process_id,entries⟩ hx
  rw [List.all_eq_true]
  rintro ⟨entry,i⟩ hi
  rw [decide_eq_true_iff]
  rcases own_pages (h _ hx) hi with hlow | hnone | ⟨hown,-⟩
  · exact Or.inl hlow
  · exact Or.inr fun hbad => hbad.1 hnone
  · exact Or.inr fun hbad => hbad.2.1 hown

theorem ownership_kept (h : ∀ x ∈ items, Fit x.1 x.2) :
    CheckOwnershipInvariant items = .ok true := by
  rw [CheckOwnershipInvariant, Except.ok.injEq, List.all_eq_true]
  rintro ⟨process_id,entries⟩ hx
  rw [List.all_eq_true]
  rintro ⟨entry,i⟩ hi
  rw [decide_eq_true_iff]
  rcases own_pages (h _ hx) hi with hlow | hnone | ⟨-,hua⟩
  · exact Or.inl hlow
  · exact Or.inr fun hbad => hbad.1 hnone
  · exact Or.inr fun hbad => hua hbad.2.2

theorem index_some {α : Type} {l : List α} {i : ℕ} (h : i < l.length) :
    ∃ x, l[i]? = some x ∧ index l i = .ok x := by
  have hget := List.getElem?_eq_getElem h
  exact ⟨l[i],hget,by rw [index, hget]⟩

theorem console_accessible (h : ∀ x ∈ items, Fit x.1 x.2) :
    CheckCGAAccessInvariant items = .ok true := by
  induction items with
  | nil => rfl
  | cons x items ih =>
    obtain ⟨process_id,entries⟩ := x
    have F := h _ List.mem_cons_self
    obtain ⟨entry,hget,hindex⟩ := index_some (l := entries) (i := CGA_BLOCK)
      (by rw [F.length]; decide)
    rw [CheckCGAAccessInvariant, hindex]
    change (if entry.ua = 0 then _ else CheckCGAAccessInvariant items) = _
    rw [if_neg (F.console entry hget)]
    exact ih fun x hx => h x (List.mem_cons_of_mem _ hx)

/-- Each process has a page at `KERNEL_LIMIT`. -/
theorem fork_ok (h : ∀ x ∈ items, Fit x.1 x.2)
    (hstart : ∀ x ∈ items, ∀ entry, x.2[KERNEL_LIMIT]? = some entry → entry.owner ≠ 0) :
    IsForkOK items = .ok true := by
  induction items with
  | nil => rfl
  | cons x items ih =>
    obtain ⟨process_id,entries⟩ := x
    have F := h _ List.mem_cons_self
    obtain ⟨entry,hget,hindex⟩ := index_some (l := entries) (i := KERNEL_LIMIT)
      (by rw [F.length]; decide)
    have howner := hstart _ List.mem_cons_self entry hget
    have hown := (F.own _ entry hget (le_refl _) howner).1
    rw [IsForkOK, hindex]
    change (if entry.owner = 0 ∨ (entry.owner ≠ process_id ∧ _) then _ else IsForkOK items) = _
    rw [if_neg]
    · exact ih (fun x hx => h x (List.mem_cons_of_mem _ hx))
        fun x hx => hstart x (List.mem_cons_of_mem _ hx)
    · rintro (hbad | ⟨hbad,-⟩)
      · exact howner hbad
      · exact hbad hown

theorem perform_loop_passes (hpass : ∀ x ∈ data, start_at_tick ≤ x.1 → check x.2 = .ok true)
    (hlast : data.getLast? = some (tick,items)) (hstart : start_at_tick ≤ tick) (res before : ℤ) :
    perform_loop check start_at_tick data res before = .ok (1,tick) := by
  induction data generalizing res before with
  | nil => cases hlast
  | cons x data ih =>
    obtain ⟨tick₁,items₁⟩ := x
    have hpass' : ∀ x ∈ data, start_at_tick ≤ x.1 → check x.2 = .ok true := fun x hx =>
      hpass x (List.mem_cons_of_mem _ hx)
    have hfirst := hpass _ List.mem_cons_self
    cases data with
    | nil =>
      cases hlast
      rw [perform_loop, if_neg (not_lt.2 hstart), hfirst hstart]
      rfl
    | cons y data =>
      rw [List.getLast?_cons_cons] at hlast
      rw [perform_loop]
      split
      · exact ih hpass' hlast res tick₁
      · rename_i hlate
        rw [hfirst (not_lt.1 hlate)]
        exact ih hpass' hlast 1 tick₁

/-- A check that succeeds at every tick is passed, once a tick counts. -/
theorem perform_passes (hpass : ∀ x ∈ data, start_at_tick ≤ x.1 → check x.2 = .ok true)
    (hlast : data.getLast? = some (tick,items)) (hstart : start_at_tick ≤ tick) :
    PerformCheck data check start_at_tick = .ok (1,tick) :=
  perform_loop_passes hpass hlast hstart 0 0

theorem require_ok (h : check items = .ok true) : require (check items) = .ok () := by
  simp only [require, h]

/-- The invariants hold where every address space is as expected. -/
theorem invariants_hold {panic : Bool} (hmax : (data.map Prod.fst).max? = some tick)
    (hfit : ∀ x ∈ data, ∀ y ∈ x.2, Fit y.1 y.2) :
    CheckInvariants data panic tick = .ok () := by
  have hall : (data.forM fun (_,items) => do
      require (CheckOwnershipInvariant items)
      require (CheckCGAAccessInvariant items)) = .ok () := by
    rw [forM_ok_iff]
    rintro ⟨tick,items⟩ hx
    have hown := require_ok (ownership_kept (hfit _ hx))
    have hconsole := require_ok (console_accessible (hfit _ hx))
    exact (seq_ok_iff _ _ _).2 ⟨hown,hconsole⟩
  rw [CheckInvariants]
  simp only [hmax, ne_eq, not_true_eq_false, and_false, if_false]
  exact hall

end Checks

end WeensyOS.Grader
