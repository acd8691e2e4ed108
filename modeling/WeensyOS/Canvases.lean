import Mathlib.Data.Set.Insert
import Mathlib.Data.List.Nodup

/-!
# Canvases

Steps that each paint a cell of their own and may spoil cells nearby. When no
step spoils another step's cell, the picture at the end has all of them.
-/

set_option autoImplicit false

namespace WeensyOS.Canvases

variable {ι α β ε : Type*} {step : (α → β) → ι → Except ε (α → β)} {cell : ι → α} {color : ι → β}
  {spoiled : ι → Set α} {l : List ι} {k : ι}

/-- The step for `k` gives its cell a color and changes at most the spoiled cells besides. -/
def Paints (step : (α → β) → ι → Except ε (α → β)) (cell : ι → α) (color : ι → β)
    (spoiled : ι → Set α) (k : ι) : Prop :=
  ∀ f, ∃ f', step f k = .ok f' ∧ f' (cell k) = color k ∧
    ∀ i, i ≠ cell k → i ∉ spoiled k → f' i = f i

/-- The picture, and what is around it. -/
theorem paint (h : ∀ k ∈ l, Paints step cell color spoiled k) (hl : l.Nodup)
    (hcells : ∀ j ∈ l, ∀ k ∈ l, cell j = cell k → j = k)
    (hclear : ∀ j ∈ l, ∀ k ∈ l, cell j ∉ spoiled k) (f : α → β) :
    ∃ f', l.foldlM step f = .ok f' ∧ (∀ k ∈ l, f' (cell k) = color k) ∧
      ∀ i, (∀ k ∈ l, i ≠ cell k ∧ i ∉ spoiled k) → f' i = f i := by
  induction l generalizing f with
  | nil => exact ⟨f,rfl,fun _ hk => absurd hk List.not_mem_nil,fun _ _ => rfl⟩
  | cons k l ih =>
    have hin : ∀ {j}, j ∈ l → j ∈ k :: l := List.mem_cons_of_mem _
    obtain ⟨hnew,hnodup⟩ := List.nodup_cons.1 hl
    obtain ⟨f₁,hstep,hcolor,hkept⟩ := h k List.mem_cons_self f
    obtain ⟨f',hrest,hpainted,hframe⟩ := ih (fun j hj => h j (hin hj)) hnodup
      (fun j hj j' hj' => hcells j (hin hj) j' (hin hj'))
      (fun j hj j' hj' => hclear j (hin hj) j' (hin hj')) f₁
    refine ⟨f',?_,fun j hj => ?_,fun i hi => ?_⟩
    · rw [List.foldlM_cons, hstep]
      exact hrest
    · rcases List.mem_cons.1 hj with rfl | hj
      · -- the rest paints other cells and spoils none of the picture
        rw [hframe _ fun k hk => ⟨fun heq => hnew ?_,hclear _ List.mem_cons_self _ (hin hk)⟩]
        · exact hcolor
        · rwa [hcells _ List.mem_cons_self _ (hin hk) heq]
      · exact hpainted j hj
    · obtain ⟨hcell,hfar⟩ := hi k List.mem_cons_self
      rw [hframe i fun j hj => hi j (hin hj)]
      exact hkept i hcell hfar

end WeensyOS.Canvases
