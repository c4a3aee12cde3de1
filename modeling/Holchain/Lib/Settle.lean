import Holchain.Lib.Script

/-!
# Lib.Settle — scripts that have nothing to do the second time

A script is run to reach some goals. It is idle where they are reached (`Idle`), and reaches them
where it returns (`Reaches`); between its steps, what a step does not take back is kept (`Preserves`).
A script that reaches all goals in which it is idle has nothing to do when it is run again.
-/

namespace Holchain.Lib.Script

variable {State V α β : Type} (view : State → V)

/-- Where the goals are reached the script returns and leaves the part alone. -/
def Idle (p : V → Prop) (b : Script State Unit) : Prop :=
  ∀ s, p (view s) → ∃ s', b.run.run s = (.ok (), s') ∧ view s' = view s

/-- Where the script returns the goals are reached. -/
def Reaches (p q : V → Prop) (b : Script State Unit) : Prop :=
  ∀ s s', b.run.run s = (.ok (), s') → p (view s) → q (view s')

/-- Where the script returns, what was reached before is reached still. -/
def Preserves (p : V → Prop) (b : Script State α) : Prop :=
  ∀ s a s', b.run.run s = (.ok a, s') → p (view s) → p (view s')

variable {view} {p q r : V → Prop} {b b' : Script State Unit}

/-- Both parts of a run that returns. -/
theorem exists_of_bind {c : Script State α} {f : α → Script State β} {s s' : State} {x : β}
    (h : (c >>= f).run.run s = (.ok x, s')) :
    ∃ a t, c.run.run s = (.ok a, t) ∧ (f a).run.run t = (.ok x, s') := by
  rcases hrun : c.run.run s with ⟨result, t⟩
  cases result with
  | ok a =>
    rw [run_bind_ok hrun] at h
    exact ⟨a, t, rfl, h⟩
  | error e =>
    rw [run_bind_error hrun] at h
    cases h

/-! ## Preserving -/

theorem Keeps.preserves {c : Script State α} {a : α} (h : Keeps view c a) : Preserves view p c := by
  intro s x s' hrun hp
  obtain ⟨t, hrun', hview⟩ := h s
  rw [hrun] at hrun'
  obtain ⟨-, rfl⟩ := Prod.mk.inj hrun'
  rwa [hview]

theorem Preserves.bind {c : Script State α} {f : α → Script State β} (h : Preserves view p c)
    (hf : ∀ a, Preserves view p (f a)) : Preserves view p (c >>= f) := by
  intro s x s' hrun hp
  obtain ⟨a, t, hfirst, hrest⟩ := exists_of_bind hrun
  exact hf a t x s' hrest (h s a t hfirst hp)

theorem Keeps.idle (h : Keeps view b ()) : Idle view p b := fun s _ => h s

theorem Idle.mono (h : Idle view q b) (hpq : ∀ v, p v → q v) : Idle view p b :=
  fun s hp => h s (hpq _ hp)

theorem Idle.bind (h : Idle view p b) (h' : Idle view p b') : Idle view p (b >>= fun _ => b') := by
  intro s hp
  obtain ⟨t, hrun, hview⟩ := h s hp
  obtain ⟨s', hrun', hview'⟩ := h' t (hview.symm ▸ hp)
  exact ⟨s', (run_bind_ok hrun).trans hrun', hview'.trans hview⟩

theorem Preserves.reaches (h : Preserves view p b) : Reaches view p p b := fun s s' hrun => h s () s' hrun

theorem Reaches.mono (h : Reaches view p q b) {p' q' : V → Prop} (hp : ∀ v, p' v → p v)
    (hq : ∀ v, q v → q' v) : Reaches view p' q' b :=
  fun s s' hrun hp' => hq _ (h s s' hrun (hp _ hp'))

/-- **One script behind another**: what the first one reaches is kept by the second one. -/
theorem Reaches.bind (h : Reaches view p q b) (h' : Reaches view q r b') :
    Reaches view p r (b >>= fun _ => b') := by
  intro s s' hrun hp
  obtain ⟨a, t, hfirst, hrest⟩ := exists_of_bind hrun
  exact h' t s' hrest (h s t hfirst hp)

theorem Reaches.and {q' : V → Prop} (h : Reaches view p q b) (h' : Reaches view p q' b) :
    Reaches view p (fun v => q v ∧ q' v) b :=
  fun s s' hrun hp => ⟨h s s' hrun hp, h' s s' hrun hp⟩

end Holchain.Lib.Script
