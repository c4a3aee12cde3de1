import Mathlib.Data.Nat.Notation
import Holchain.Lib.Transition

/-!
# Lib.Progress — systems that come to rest by themselves

Some labels are the system's own, the others come from outside. Where each step of its own does one
unit of the work there is, and there is such a step as long as there is work, nothing depends on the
order of the steps: a run without steps from outside is as long as the work it does
(`Drains.run_length`), it can be continued until nothing is left (`Drains.enabled`), and a state is at
rest just when there is no work (`Drains.quiescent_iff`).
-/

namespace Holchain.Lib.System

variable {State Label : Type*}

/-- **Draining**: where `I` holds, a step that is not from outside keeps `I` and does one unit of the
work, and there is one while there is work. -/
structure Drains (M : System State Label) (outside : Label → Prop) (I : State → Prop)
    (work : State → ℕ) : Prop where
  keep {s t : State} {l : Label} : I s → ¬ outside l → M.step s l = some t → I t
  spend {s t : State} {l : Label} : I s → ¬ outside l → M.step s l = some t → work t + 1 = work s
  enabled {s : State} : I s → work s ≠ 0 → ∃ l t, ¬ outside l ∧ M.step s l = some t

namespace Drains

variable {M : System State Label} {outside : Label → Prop} {I : State → Prop} {work : State → ℕ}
  {s t : State} {ls : List Label}

/-- A run of the system's own steps keeps `I`, and it is as long as the work it does. -/
theorem run_length (h : M.Drains outside I work) (hs : I s) (hls : ∀ l ∈ ls, ¬ outside l)
    (hrun : M.run s ls = some t) : I t ∧ work t + ls.length = work s := by
  induction ls generalizing s with
  | nil =>
    cases hrun
    exact ⟨hs, rfl⟩
  | cons l ls ih =>
    obtain ⟨u, hu, ht⟩ := Option.bind_eq_some_iff.mp hrun
    have hl : ¬ outside l := hls l List.mem_cons_self
    have hrest : ∀ l' ∈ ls, ¬ outside l' := fun l' hl' => hls l' (List.mem_cons_of_mem l hl')
    obtain ⟨hI, hlength⟩ := ih (h.keep hs hl hu) hrest ht
    have hspent := h.spend hs hl hu
    refine ⟨hI, ?_⟩
    rw [List.length_cons]
    omega

/-- At rest there is no work, and without work the system is at rest. -/
theorem quiescent_iff (h : M.Drains outside I work) (hs : I s) :
    M.Quiescent outside s ↔ work s = 0 := by
  constructor
  · intro hquiet
    refine Decidable.byContradiction fun hwork => ?_
    obtain ⟨l, t, hl, ht⟩ := h.enabled hs hwork
    rw [hquiet l hl] at ht
    cases ht
  · intro hwork l hl
    cases ht : M.step s l with
    | none => rfl
    | some t =>
      have hspent := h.spend hs hl ht
      omega

end Drains

end Holchain.Lib.System
