import Mathlib.Order.Basic

/-!
# Lib.Script — scripts that may end early, and what they leave alone

A script changes a state until it ends or exits. Of a part of the state (`view`) it is asked whether
it is the same afterwards. Most commands keep it and go on (`Keeps`); of a `Step` is known when it
makes the part larger and, where it does not, when it goes on. Steps are put together
(`Step.seq`, `step_ite`, `step_get`), and a script leaves the part alone if and only if it is no
change for the steps that are reached (`Step.final_eq_iff`).
-/

namespace Holchain.Lib

/-- A script: an exit code, or a value. -/
abbrev Script (State α : Type) := ExceptT ℕ (StateM State) α

namespace Script

variable {State V α β : Type} (view : State → V)

/-- The state at the end. -/
def final (b : Script State α) (s : State) : State := (b.run.run s).2

/-- The script keeps the part and returns the value. -/
def Keeps (b : Script State α) (a : α) : Prop :=
  ∀ s, ∃ s', b.run.run s = (.ok a, s') ∧ view s' = view s

/-- What is done to the part: where `changes` holds it becomes larger, and otherwise it is kept, and
the script goes on where `goesOn` holds. -/
structure Step [Preorder V] (changes goesOn : V → Prop) (b : Script State Unit) : Prop where
  grows (s : State) : changes (view s) → view s < view (b.final s)
  kept (s : State) : ¬ changes (view s) → goesOn (view s) →
    ∃ s', b.run.run s = (.ok (), s') ∧ view s' = view s
  exits (s : State) : ¬ changes (view s) → ¬ goesOn (view s) →
    ∃ e s', b.run.run s = (.error e, s') ∧ view s' = view s

variable {view} {a : α} {c : β} {b : Script State α} {f : α → Script State β}

theorem run_bind_ok {s s' : State} (h : b.run.run s = (.ok a, s')) :
    (b >>= f).run.run s = (f a).run.run s' := by
  simp only [ExceptT.run_bind, StateT.run_bind, h]
  rfl

theorem run_bind_error {e : ℕ} {s s' : State} (h : b.run.run s = (.error e, s')) :
    (b >>= f).run.run s = (.error e, s') := by
  simp only [ExceptT.run_bind, StateT.run_bind, h]
  rfl

/-! ## Steps that keep the part -/

theorem keeps_pure (a : α) : Keeps view (pure a : Script State α) a := fun s => ⟨s, rfl, rfl⟩

theorem Keeps.bind (hb : Keeps view b a) (hf : Keeps view (f a) c) : Keeps view (b >>= f) c := by
  intro s
  obtain ⟨s', hrun, hview⟩ := hb s
  obtain ⟨s'', hrun', hview'⟩ := hf s'
  exact ⟨s'', (run_bind_ok hrun).trans hrun', hview'.trans hview⟩

theorem keeps_modify {g : State → State} (h : ∀ s, view (g s) = view s) :
    Keeps view (modify g : Script State Unit) () := fun s => ⟨g s, rfl, h s⟩

/-- Reading the state, and then any of these steps. -/
theorem keeps_get {g : State → Script State α} (h : ∀ s, Keeps view (g s) a) :
    Keeps view (get >>= g) a := by
  intro s
  obtain ⟨s', hrun, hview⟩ := h s s
  exact ⟨s', hrun, hview⟩

theorem keeps_ite {p : Prop} [Decidable p] {b b' : Script State α} (h : p → Keeps view b a)
    (h' : ¬ p → Keeps view b' a) : Keeps view (if p then b else b') a := by
  split
  · next hp => exact h hp
  · next hp => exact h' hp

/-! ## Steps -/

section Step

variable [Preorder V] {changes goesOn changes' goesOn' : V → Prop} {b b' : Script State Unit}

theorem Keeps.step (h : Keeps view b ()) : Step view (fun _ => False) (fun _ => True) b where
  grows _ hchanges := hchanges.elim
  kept s _ _ := h s
  exits _ _ hgoes := absurd trivial hgoes

theorem step_throw (e : ℕ) :
    Step view (fun _ => False) (fun _ => False) (throw e : Script State Unit) where
  grows _ hchanges := hchanges.elim
  kept _ _ hgoes := hgoes.elim
  exits s _ _ := ⟨e, s, rfl, rfl⟩

theorem Step.congr (h : Step view changes goesOn b) (hchanges : ∀ v, changes' v ↔ changes v)
    (hgoes : ∀ v, goesOn' v ↔ goesOn v) : Step view changes' goesOn' b where
  grows s hc := h.grows s ((hchanges _).mp hc)
  kept s hc hg := h.kept s (fun hc' => hc ((hchanges _).mpr hc')) ((hgoes _).mp hg)
  exits s hc hg :=
    h.exits s (fun hc' => hc ((hchanges _).mpr hc')) fun hg' => hg ((hgoes _).mpr hg')

/-- Nothing is taken back. -/
theorem Step.le (h : Step view changes goesOn b) (s : State) : view s ≤ view (b.final s) := by
  by_cases hchanges : changes (view s)
  · exact (h.grows s hchanges).le
  · by_cases hgoes : goesOn (view s)
    · obtain ⟨s', hrun, hview⟩ := h.kept s hchanges hgoes
      rw [final, hrun]
      exact le_of_eq hview.symm
    · obtain ⟨e, s', hrun, hview⟩ := h.exits s hchanges hgoes
      rw [final, hrun]
      exact le_of_eq hview.symm

/-- **One step behind another**: it counts where it is reached. -/
theorem Step.seq (h : Step view changes goesOn b) (h' : Step view changes' goesOn' b') :
    Step view (fun v => changes v ∨ goesOn v ∧ changes' v) (fun v => goesOn v ∧ goesOn' v)
      (b >>= fun _ => b') where
  grows s hc := by
    by_cases hchanges : changes (view s)
    · have hfirst := h.grows s hchanges
      rcases hrun : b.run.run s with ⟨r, s'⟩
      rw [final, hrun] at hfirst
      cases r with
      | ok a =>
        rw [final, run_bind_ok hrun]
        exact lt_of_lt_of_le hfirst (h'.le s')
      | error e =>
        rw [final, run_bind_error hrun]
        exact hfirst
    · obtain ⟨hgoes, hchanges'⟩ := hc.resolve_left hchanges
      obtain ⟨s', hrun, hview⟩ := h.kept s hchanges hgoes
      rw [← hview] at hchanges' ⊢
      rw [final, run_bind_ok hrun]
      exact h'.grows s' hchanges'
  kept s hc hg := by
    obtain ⟨s', hrun, hview⟩ := h.kept s (fun hchanges => hc (.inl hchanges)) hg.1
    obtain ⟨s'', hrun', hview'⟩ := h'.kept s'
      (fun hchanges' => hc (.inr ⟨hg.1, hview ▸ hchanges'⟩)) (hview.symm ▸ hg.2)
    exact ⟨s'', (run_bind_ok hrun).trans hrun', hview'.trans hview⟩
  exits s hc hg := by
    have hnot : ¬ changes (view s) := fun hchanges => hc (.inl hchanges)
    by_cases hgoes : goesOn (view s)
    · obtain ⟨s', hrun, hview⟩ := h.kept s hnot hgoes
      obtain ⟨e, s'', hrun', hview'⟩ := h'.exits s'
        (fun hchanges' => hc (.inr ⟨hgoes, hview ▸ hchanges'⟩)) fun hg' => hg ⟨hgoes, hview ▸ hg'⟩
      exact ⟨e, s'', (run_bind_ok hrun).trans hrun', hview'.trans hview⟩
    · obtain ⟨e, s', hrun, hview⟩ := h.exits s hnot hgoes
      exact ⟨e, s', run_bind_error hrun, hview⟩

/-- A step behind one that keeps the part. -/
theorem Keeps.then (h : Keeps view b ()) (h' : Step view changes goesOn b') :
    Step view changes goesOn (b >>= fun _ => b') := by
  refine (h.step.seq h').congr (fun v => ?_) fun v => ?_
  · exact ⟨fun hc => .inr ⟨trivial, hc⟩, fun hc => (hc.resolve_left id).2⟩
  · exact ⟨fun hg => ⟨trivial, hg⟩, fun hg => hg.2⟩

/-- A step before one that keeps the part. -/
theorem Step.thenKeeps (h : Step view changes goesOn b) (h' : Keeps view b' ()) :
    Step view changes goesOn (b >>= fun _ => b') := by
  refine (h.seq h'.step).congr (fun v => ?_) fun v => ?_
  · exact ⟨.inl, fun hc => hc.resolve_right fun hn => hn.2⟩
  · exact ⟨fun hg => ⟨hg, trivial⟩, fun hg => hg.1⟩

theorem step_ite {p : Prop} [Decidable p] (h : p → Step view changes goesOn b)
    (h' : ¬ p → Step view changes' goesOn' b') :
    Step view (fun v => p ∧ changes v ∨ ¬ p ∧ changes' v) (fun v => (p → goesOn v) ∧ (¬ p → goesOn' v))
      (if p then b else b') := by
  by_cases hp : p
  · rw [if_pos hp]
    refine (h hp).congr (fun v => ?_) fun v => ?_
    · exact ⟨fun hc => (hc.resolve_right fun hn => hn.1 hp).2, fun hc => .inl ⟨hp, hc⟩⟩
    · exact ⟨fun hg => hg.1 hp, fun hg => ⟨fun _ => hg, fun hn => absurd hp hn⟩⟩
  · rw [if_neg hp]
    refine (h' hp).congr (fun v => ?_) fun v => ?_
    · exact ⟨fun hc => (hc.resolve_left fun hn => hp hn.1).2, fun hc => .inr ⟨hp, hc⟩⟩
    · exact ⟨fun hg => hg.2 hp, fun hg => ⟨fun hn => absurd hn hp, fun _ => hg⟩⟩

/-- Reading the state, and then a step that depends on the part. -/
theorem step_get {g : State → Script State Unit} (changesOf goesOnOf : V → V → Prop)
    (h : ∀ s, Step view (changesOf (view s)) (goesOnOf (view s)) (g s)) :
    Step view (fun v => changesOf v v) (fun v => goesOnOf v v) (get >>= g) where
  grows s hc := (h s).grows s hc
  kept s hc hg := (h s).kept s hc hg
  exits s hc hg := (h s).exits s hc hg

end Step

/-- **The part is the same afterwards** if and only if no step that is reached changes it. -/
theorem Step.final_eq_iff [PartialOrder V] {changes goesOn : V → Prop} {b : Script State Unit}
    (h : Step view changes goesOn b) (s : State) :
    view (b.final s) = view s ↔ ¬ changes (view s) := by
  constructor
  · exact fun heq hchanges => (h.grows s hchanges).ne heq.symm
  · intro hchanges
    by_cases hgoes : goesOn (view s)
    · obtain ⟨s', hrun, hview⟩ := h.kept s hchanges hgoes
      rw [final, hrun]
      exact hview
    · obtain ⟨e, s', hrun, hview⟩ := h.exits s hchanges hgoes
      rw [final, hrun]
      exact hview

end Script

end Holchain.Lib
