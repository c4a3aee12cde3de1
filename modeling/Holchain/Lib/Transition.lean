import Mathlib.Logic.Relation

/-!
# Labelled transition systems

A system takes a step for each label that is enabled. What a schedule or an environment decides
is part of the label, so a step itself is a partial function and a run can be evaluated.

`Reach ok` holds of the states of the runs whose steps all meet `ok`; with `ok` true of every
step it is plain reachability. Two rules carry every proof over runs: an invariant that one step
keeps holds in every state reached (`Reach.invariant`), and a system whose steps are steps of
another one, or leave its state alone, reaches only what that one reaches (`Reach.simulation`).
-/

namespace Holchain.Lib

/-- A transition system: its initial states and the effect of each label, `none` where the label
is not enabled. -/
structure System (State Label : Type*) where
  init : State → Prop
  step : State → Label → Option State

namespace System

variable {State Label State' Label' : Type*} {M : System State Label} {N : System State' Label'}

/-- The states of the runs whose steps all meet `ok`, a condition on the state before the step
and on the step's label. -/
inductive Reach (M : System State Label) (ok : State → Label → Prop) : State → Prop
  | init {s : State} : M.init s → M.Reach ok s
  | step {s t : State} {l : Label} : M.Reach ok s → ok s l → M.step s l = some t → M.Reach ok t

/-- The states of all runs. -/
def Reachable (M : System State Label) : State → Prop := M.Reach fun _ _ => True

/-- No label but those of `outside` is enabled. -/
def Quiescent (M : System State Label) (outside : Label → Prop) (s : State) : Prop :=
  ∀ l, ¬ outside l → M.step s l = none

/-- **The invariant rule**: what holds at the start and is kept by every step that meets `ok`
holds in every state reached. -/
theorem Reach.invariant {ok : State → Label → Prop} {I : State → Prop}
    (start : ∀ s, M.init s → I s)
    (keep : ∀ s t l, I s → ok s l → M.step s l = some t → I t) {s : State}
    (h : M.Reach ok s) : I s := by
  induction h with
  | init hs => exact start _ hs
  | step _ hok hstep ih => exact keep _ _ _ ih hok hstep

/-- The invariant rule for all runs. -/
theorem Reachable.invariant {I : State → Prop} (start : ∀ s, M.init s → I s)
    (keep : ∀ s t l, I s → M.step s l = some t → I t) {s : State} (h : M.Reachable s) : I s :=
  Reach.invariant start (fun s t l hi _ hs => keep s t l hi hs) h

/-- A run whose steps meet a condition meets any weaker one. -/
theorem Reach.mono {ok ok' : State → Label → Prop} (hok : ∀ s l, ok s l → ok' s l) {s : State}
    (h : M.Reach ok s) : M.Reach ok' s := by
  induction h with
  | init hs => exact .init hs
  | step _ hl hstep ih => exact .step ih (hok _ _ hl) hstep

/-- A run whose steps meet a condition is a run. -/
theorem Reach.reachable {ok : State → Label → Prop} {s : State} (h : M.Reach ok s) :
    M.Reachable s := h.mono fun _ _ _ => trivial

/-- A step of a run of `M`, with the state before it reached, is a step of `N` or is not seen
there. -/
def StepsIn (N : System State' Label') (abs : State → State') (s t : State) : Prop :=
  abs t = abs s ∨ ∃ l', N.step (abs s) l' = some (abs t)

/-- **The simulation rule**: where every step of a run of `M` is seen through `abs` as a step of
`N` or not at all, `M` reaches only states that `N` reaches. -/
theorem Reach.simulation {ok : State → Label → Prop} (abs : State → State')
    (start : ∀ s, M.init s → N.init (abs s))
    (steps : ∀ s t l, M.Reach ok s → ok s l → M.step s l = some t → N.StepsIn abs s t)
    {s : State} (h : M.Reach ok s) : N.Reachable (abs s) := by
  induction h with
  | init hs => exact .init (start _ hs)
  | @step s t l hr hok hstep ih =>
    rcases steps s t l hr hok hstep with heq | ⟨l', hl'⟩
    · rw [heq]
      exact ih
    · exact .step ih trivial hl'

/-- The simulation rule for a relation: where every step of `M` has its step in `N`, a state that `M`
reaches is related to one that `N` reaches. -/
theorem Reach.related {ok : State → Label → Prop} {ok' : State' → Label' → Prop}
    {R : State → State' → Prop} (start : ∀ s, M.init s → ∃ s', N.init s' ∧ R s s')
    (steps : ∀ s t l s', R s s' → ok s l → M.step s l = some t →
      ∃ l' t', ok' s' l' ∧ N.step s' l' = some t' ∧ R t t') {s : State} (h : M.Reach ok s) :
    ∃ s', N.Reach ok' s' ∧ R s s' := by
  induction h with
  | init hs =>
    obtain ⟨s', hs', hrelated⟩ := start _ hs
    exact ⟨s', .init hs', hrelated⟩
  | step _ hok hstep ih =>
    obtain ⟨s', hreach, hrelated⟩ := ih
    obtain ⟨l', t', hok', hstep', hrelated'⟩ := steps _ _ _ s' hrelated hok hstep
    exact ⟨t', .step hreach hok' hstep', hrelated'⟩

/-- Taking the steps of a list of labels, where all of them are enabled. -/
def run (M : System State Label) : State → List Label → Option State
  | s, [] => some s
  | s, l :: ls => (M.step s l).bind fun t => M.run t ls

/-- The end of a run from a state that is reached is reached, where its labels meet the condition
in every state. -/
theorem Reach.run {ok : State → Label → Prop} {s t : State} {ls : List Label} (h : M.Reach ok s)
    (hok : ∀ l ∈ ls, ∀ u, ok u l) (hrun : M.run s ls = some t) : M.Reach ok t := by
  induction ls generalizing s with
  | nil =>
    cases hrun
    exact h
  | cons l ls ih =>
    obtain ⟨u, hu, ht⟩ := Option.bind_eq_some_iff.mp hrun
    have hnext : M.Reach ok u := .step h (hok l List.mem_cons_self s) hu
    exact ih hnext (fun l' hl' => hok l' (List.mem_cons_of_mem l hl')) ht

/-- The end of a run from a state that is reached is reached. -/
theorem Reachable.run {s t : State} {ls : List Label} (h : M.Reachable s)
    (hrun : M.run s ls = some t) : M.Reachable t :=
  Reach.run h (fun _ _ _ => trivial) hrun

/-- Taking the steps of a list of labels, where all of them are enabled and meet the condition. -/
def runIf (M : System State Label) (ok : State → Label → Prop) [DecidableRel ok] :
    State → List Label → Option State
  | s, [] => some s
  | s, l :: ls => if ok s l then (M.step s l).bind fun t => M.runIf ok t ls else none

/-- A run that meets the condition, by evaluation. -/
theorem Reach.runIf {ok : State → Label → Prop} [DecidableRel ok] {s t : State} {ls : List Label}
    (h : M.Reach ok s) (hrun : M.runIf ok s ls = some t) : M.Reach ok t := by
  induction ls generalizing s with
  | nil =>
    cases hrun
    exact h
  | cons l ls ih =>
    obtain ⟨hok, hnext⟩ := Option.ite_none_right_eq_some.mp hrun
    obtain ⟨u, hu, ht⟩ := Option.bind_eq_some_iff.mp hnext
    exact ih (.step h hok hu) ht

/-- It is a run. -/
theorem run_of_runIf {ok : State → Label → Prop} [DecidableRel ok] {s t : State} {ls : List Label}
    (hrun : M.runIf ok s ls = some t) : M.run s ls = some t := by
  induction ls generalizing s with
  | nil => exact hrun
  | cons l ls ih =>
    obtain ⟨-, hnext⟩ := Option.ite_none_right_eq_some.mp hrun
    obtain ⟨u, hu, ht⟩ := Option.bind_eq_some_iff.mp hnext
    exact Option.bind_eq_some_iff.mpr ⟨u, hu, ih ht⟩

/-- What the steps of all labels of a list leave alone. -/
theorem run_preserves {I : State → Prop} {ls : List Label}
    (keep : ∀ l ∈ ls, ∀ s t, I s → M.step s l = some t → I t) {s t : State} (hs : I s)
    (hrun : M.run s ls = some t) : I t := by
  induction ls generalizing s with
  | nil =>
    cases hrun
    exact hs
  | cons l ls ih =>
    obtain ⟨u, hu, ht⟩ := Option.bind_eq_some_iff.mp hrun
    exact ih (fun l' hl' => keep l' (List.mem_cons_of_mem l hl'))
      (keep l List.mem_cons_self s u hs hu) ht

end System

end Holchain.Lib
