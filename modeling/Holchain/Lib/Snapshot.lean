import Mathlib.Data.Nat.Notation
import Mathlib.Logic.Function.Basic
import Holchain.Lib.Transition

/-!
# Lib.Snapshot — updates of what was read

Workers update one value without a lock: each reads it, and writes later what its operation makes of
what was read. What is written in between is lost. So the value an update was made of is one that
there was before (`Reported.olds`), and it is the one right before where no two of them overlap
(`Chained`). What every operation keeps holds of all values (`Reported.keep`).
-/

namespace Holchain.Lib.Snapshot

variable {W Op V : Type}

/-- An update: what was read, and what was written. -/
structure Report (Op V : Type) where
  op : Op
  old : V
  new : V

/-- The value, what the workers have read, and the updates in the order of their writes. -/
structure State (W Op V : Type) where
  value : V
  held : W → Option (Op × V)
  reports : List (Report Op V)

/-- A step of a worker. -/
inductive Label (W Op : Type) where
  | read (worker : W) (op : Op)
  | write (worker : W)

/-- Taking a step. -/
def step [DecidableEq W] (effect : Op → V → V) (s : State W Op V) : Label W Op → Option (State W Op V)
  | .read worker op =>
    match s.held worker with
    | some _ => none
    | none => some { s with held := Function.update s.held worker (some (op, s.value)) }
  | .write worker =>
    match s.held worker with
    | none => none
    | some (op, old) =>
      some {
        value := effect op old
        held := Function.update s.held worker none
        reports := s.reports ++ [⟨op, old, effect op old⟩] }

/-- Where nothing was read yet. -/
def initial (start : V) : State W Op V := ⟨start, fun _ => none, []⟩

/-- The system, from a value. -/
def system [DecidableEq W] (effect : Op → V → V) (start : V) : System (State W Op V) (Label W Op) where
  init s := s = initial start
  step := step effect

/-- All values that there were. -/
def values (start : V) (reports : List (Report Op V)) : List V := start :: reports.map Report.new

/-- A worker reads where no other one has read. -/
def Alone (s : State W Op V) : Label W Op → Prop
  | .read _ _ => ∀ worker, s.held worker = none
  | .write _ => True

section Values

variable {start v : V} {reports : List (Report Op V)} {r : Report Op V} {i : ℕ}

@[simp] theorem values_nil (start : V) : values start ([] : List (Report Op V)) = [start] := rfl

@[simp] theorem length_values (start : V) (reports : List (Report Op V)) :
    (values start reports).length = reports.length + 1 := by
  simp [values]

@[simp] theorem values_concat (start : V) (reports : List (Report Op V)) (r : Report Op V) :
    values start (reports ++ [r]) = values start reports ++ [r.new] := by
  simp [values]

end Values

/-- What the updates say of the value. -/
structure Reported (effect : Op → V → V) (start : V) (s : State W Op V) : Prop where
  value : (values start s.reports).getLast? = some s.value
  news : ∀ r ∈ s.reports, r.new = effect r.op r.old
  olds : ∀ (i : ℕ) r, s.reports[i]? = some r → r.old ∈ (values start s.reports).take (i + 1)
  held : ∀ worker op old, s.held worker = some (op, old) → old ∈ values start s.reports

/-- Every update was made of the value right before it. -/
structure Chained (effect : Op → V → V) (start : V) (s : State W Op V) : Prop
    extends Reported effect start s where
  before : ∀ (i : ℕ) r, s.reports[i]? = some r → (values start s.reports)[i]? = some r.old
  folded : s.value = s.reports.foldl (fun v r => effect r.op v) start
  now : ∀ worker op old, s.held worker = some (op, old) → old = s.value
  one : ∀ worker worker', s.held worker ≠ none → s.held worker' ≠ none → worker = worker'

/-! ## Steps -/

section Steps

variable [DecidableEq W] {effect : Op → V → V} {start : V} {s t : State W Op V} {l : Label W Op}

/-- What a step can do. -/
theorem step_cases (h : step effect s l = some t) :
    (∃ worker op, l = .read worker op ∧ s.held worker = none
      ∧ t = { s with held := Function.update s.held worker (some (op, s.value)) })
    ∨ ∃ worker op old, l = .write worker ∧ s.held worker = some (op, old) ∧ t = {
        value := effect op old
        held := Function.update s.held worker none
        reports := s.reports ++ [⟨op, old, effect op old⟩] } := by
  cases l with
  | read worker op =>
    cases hheld : s.held worker with
    | none => exact .inl ⟨worker, op, rfl, hheld, by simpa [step, hheld] using h.symm⟩
    | some _ => simp [step, hheld] at h
  | write worker =>
    cases hheld : s.held worker with
    | none => simp [step, hheld] at h
    | some held => exact .inr ⟨worker, held.1, held.2, rfl, hheld, by simpa [step, hheld] using h.symm⟩

/-- What is held behind a step was held before, or is what was read. -/
theorem held_update {held : Op × V} {worker worker' : W} {new : Option (Op × V)}
    (h : Function.update s.held worker new worker' = some held) :
    worker' = worker ∧ new = some held ∨ worker' ≠ worker ∧ s.held worker' = some held := by
  by_cases hworker : worker' = worker
  · subst hworker
    exact .inl ⟨rfl, by rwa [Function.update_self] at h⟩
  · exact .inr ⟨hworker, by rwa [Function.update_of_ne hworker] at h⟩

omit [DecidableEq W] in
theorem reported_initial (effect : Op → V → V) (start : V) :
    Reported effect start (initial start : State W Op V) where
  value := rfl
  news _ hr := nomatch hr
  olds _ _ hr := nomatch hr
  held _ _ _ hheld := nomatch hheld

/-- The value that an update was made of stays where it was. -/
theorem take_concat {reports : List (Report Op V)} {i : ℕ} {r : Report Op V}
    (hr : reports[i]? = some r) (last : Report Op V) :
    (values start (reports ++ [last])).take (i + 1) = (values start reports).take (i + 1) := by
  have hi : i < reports.length := (List.getElem?_eq_some_iff.mp hr).1
  rw [values_concat, List.take_append_of_le_length (by rw [length_values]; omega)]

theorem Reported.step (h : Reported effect start s) (hstep : step effect s l = some t) :
    Reported effect start t := by
  obtain ⟨worker, op, -, -, rfl⟩ | ⟨worker, op, old, -, hheld, rfl⟩ := step_cases hstep
  · refine ⟨h.value, h.news, h.olds, fun worker' op' old' hnew => ?_⟩
    obtain ⟨-, heq⟩ | ⟨-, hheld⟩ := held_update hnew
    · cases heq
      exact List.mem_of_getLast? h.value
    · exact h.held worker' op' old' hheld
  · have hold := h.held worker op old hheld
    refine ⟨?_, ?_, fun i r hr => ?_, fun worker' op' old' hnew => ?_⟩
    · rw [values_concat, List.getLast?_concat]
    · simpa [or_imp, forall_and] using h.news
    · rcases Nat.lt_or_ge i s.reports.length with hi | hi
      · rw [List.getElem?_append_left hi] at hr
        rw [take_concat hr]
        exact h.olds i r hr
      · rw [List.getElem?_append_right hi] at hr
        obtain rfl := List.mem_singleton.mp (List.mem_of_getElem? hr)
        rw [values_concat, List.take_append]
        exact List.mem_append_left _ (by rwa [List.take_of_length_le (by rw [length_values]; omega)])
    · obtain ⟨-, hnone⟩ | ⟨-, hheld'⟩ := held_update hnew
      · cases hnone
      · rw [values_concat]
        exact List.mem_append_left _ (h.held worker' op' old' hheld')

omit [DecidableEq W] in
theorem chained_initial (effect : Op → V → V) (start : V) :
    Chained effect start (initial start : State W Op V) where
  toReported := reported_initial effect start
  before _ _ hr := nomatch hr
  folded := rfl
  now _ _ _ hheld := nomatch hheld
  one _ _ hheld := absurd rfl hheld

theorem Chained.step (h : Chained effect start s) (hstep : step effect s l = some t)
    (halone : Alone s l) : Chained effect start t := by
  have hreported := h.toReported.step hstep
  obtain ⟨worker, op, rfl, -, rfl⟩ | ⟨worker, op, old, -, hheld, rfl⟩ := step_cases hstep
  · -- nothing else is held
    have honly {worker' : W} (hne : Function.update s.held worker (some (op, s.value)) worker' ≠ none) :
        worker' = worker := by
      by_contra hother
      exact hne ((Function.update_of_ne hother ..).trans (halone worker'))
    refine ⟨hreported, h.before, h.folded, fun worker' op' old' hnew => ?_, fun worker₁ worker₂ h₁ h₂ =>
      (honly h₁).trans (honly h₂).symm⟩
    obtain ⟨-, heq⟩ | ⟨-, hheld⟩ := held_update hnew
    · cases heq
      rfl
    · exact h.now worker' op' old' hheld
  · obtain rfl := h.now worker op old hheld
    have hnone (worker' : W) : Function.update s.held worker none worker' = none := by
      by_cases hworker : worker' = worker
      · subst hworker
        exact Function.update_self ..
      · rw [Function.update_of_ne hworker]
        by_contra hother
        exact hworker (h.one worker' worker hother (by simp [hheld]))
    refine ⟨hreported, fun i r hr => ?_, ?_, fun worker' op' old' hnew => ?_,
      fun worker₁ _ h₁ _ => absurd (hnone worker₁) h₁⟩
    · rw [values_concat]
      rcases Nat.lt_or_ge i s.reports.length with hi | hi
      · rw [List.getElem?_append_left (by rw [length_values]; omega)]
        rw [List.getElem?_append_left hi] at hr
        exact h.before i r hr
      · rw [List.getElem?_append_right hi] at hr
        obtain rfl := List.mem_singleton.mp (List.mem_of_getElem? hr)
        have hlast : i = s.reports.length := by
          have hindex := (List.getElem?_eq_some_iff.mp hr).1
          simp at hindex
          omega
        rw [List.getElem?_append_left (by rw [length_values]; omega), hlast]
        have hvalue := h.value
        rwa [List.getLast?_eq_getElem?, length_values, Nat.add_sub_cancel] at hvalue
    · rw [List.foldl_append, ← h.folded]
      rfl
    · exact absurd hnew (by simp [hnone])

/-- **Every run**: an update is made of a value that there was before. -/
theorem Reach.reported {ok : State W Op V → Label W Op → Prop}
    (h : (system effect start).Reach ok s) : Reported effect start s :=
  h.invariant (fun _ hinit => hinit ▸ reported_initial effect start) fun _ _ _ hs _ hstep => hs.step hstep

omit [DecidableEq W] in
/-- What every operation keeps holds of all values. -/
theorem Reported.keep {p : V → Prop} (h : Reported effect start s) (hstart : p start)
    (hkeep : ∀ op v, p v → p (effect op v)) : ∀ v ∈ values start s.reports, p v := by
  have hat (i : ℕ) : ∀ v, (values start s.reports)[i]? = some v → p v := by
    induction i using Nat.strongRecOn with
    | ind i ih =>
      intro v hv
      cases i with
      | zero =>
        obtain rfl := Option.some.inj hv
        exact hstart
      | succ i =>
        rw [values, List.getElem?_cons_succ, List.getElem?_map] at hv
        obtain ⟨r, hr, rfl⟩ := Option.map_eq_some_iff.mp hv
        rw [h.news r (List.mem_of_getElem? hr)]
        -- it was made of one of the values before
        obtain ⟨j, hj⟩ := List.mem_iff_getElem?.mp (h.olds i r hr)
        rw [List.getElem?_take] at hj
        obtain ⟨hlt, hj⟩ := Option.ite_none_right_eq_some.mp hj
        exact hkeep r.op r.old (ih j hlt r.old hj)
  intro v hv
  obtain ⟨i, hi⟩ := List.mem_iff_getElem?.mp hv
  exact hat i v hi

/-- **Runs where no two updates overlap**: an update is made of the value right before it. -/
theorem Reach.chained {ok : State W Op V → Label W Op → Prop} (hok : ∀ s l, ok s l → Alone s l)
    (h : (system effect start).Reach ok s) : Chained effect start s :=
  h.invariant (fun _ hinit => hinit ▸ chained_initial effect start) fun _ _ _ hs hl hstep =>
    hs.step hstep (hok _ _ hl)

end Steps

end Holchain.Lib.Snapshot
