import Holchain.Laws.Time
import Holchain.Holper.Profiler
import Holchain.Lib.Chronicle

/-!
# Laws.Profiler — what a profiler lists

The events of a profiler are what it has recorded, in the order of the times (`events_run`): an event
goes behind the ones that are not later, and a join records the events of the other profiler in its
order.
-/

namespace Holchain.Holper.Profiler

open Lib (Listed inOrder insertBehind)

/-- An event at its time. -/
abbrev Event := TimePoint × Bytes

/-- The event of a joined profiler, with the prefix. -/
def prefixed (pfx : Bytes) (event : Event) : Event := (event.1, pfx ++ event.2)

variable {K : Type} [DecidableEq K]

/-- What is recorded, in the order in which it is inserted: an event of its own, or the list of
another profiler at the join. -/
def record (histories : K → List Event) : Operation K → K → List Event
  | .event receiver name tp, k =>
    if k = receiver then histories k ++ [(tp, name)] else histories k
  | .join receiver prof _ pfx, k =>
    if k = receiver then histories k ++ (inOrder Prod.fst (histories prof)).map (prefixed pfx)
    else histories k

/-- What the profilers have recorded after some calls. -/
def recorded (ops : List (Operation K)) : K → List Event := ops.foldl record fun _ => []

/-! ## One profiler -/

theorem insert_eq (event : Event) (events : List Event) :
    insert event events = insertBehind Prod.fst event events := by
  induction events with
  | nil => rfl
  | cons other rest ih =>
    rw [insert, insertBehind, ih]
    by_cases hlt : event.1 < other.1
    · rw [if_pos hlt, if_pos hlt]
    · rw [if_neg hlt, if_neg hlt]

variable {p : Profiler} {history : List Event}

theorem events_event (h : p.events = inOrder Prod.fst history) (name : Bytes) (tp : TimePoint) :
    (p.event name tp).events = inOrder Prod.fst (history ++ [(tp, name)]) := by
  rw [event, insert_eq, h]
  exact Lib.insertBehind_inOrder _ _ _

/-- A join records the events of the other profiler one after another. -/
theorem join_eq (h : p.events = inOrder Prod.fst history) (prof : Profiler) (pfx : Bytes) :
    (p.join prof pfx).start = p.start ∧
      (p.join prof pfx).events = inOrder Prod.fst (history ++ prof.events.map (prefixed pfx)) := by
  unfold join
  generalize prof.events = events
  induction events generalizing p history with
  | nil => exact ⟨rfl, by rw [List.map_nil, List.append_nil]; exact h⟩
  | cons profEvent events ih =>
    obtain ⟨hstart, hevents⟩ := ih (events_event h (pfx ++ profEvent.2) profEvent.1)
    refine ⟨hstart, hevents.trans ?_⟩
    rw [List.append_assoc]
    rfl

/-! ## Several profilers -/

/-- The profilers have what is recorded. -/
def Keeps (start : K → TimePoint) (profilers : K → Profiler) (histories : K → List Event) : Prop :=
  ∀ k, (profilers k).start = start k ∧ (profilers k).events = inOrder Prod.fst (histories k)

theorem Keeps.perform {start : K → TimePoint} {profilers : K → Profiler}
    {histories : K → List Event} (h : Keeps start profilers histories) (op : Operation K) :
    Keeps start (Profiler.perform profilers op) (record histories op) := by
  intro k
  obtain ⟨hstart, hevents⟩ := h k
  cases op with
  | event receiver name tp =>
    simp only [Profiler.perform, record]
    split
    · exact ⟨hstart, events_event hevents name tp⟩
    · exact ⟨hstart, hevents⟩
  | join receiver prof distinct pfx =>
    simp only [Profiler.perform, record]
    split
    · obtain ⟨hjoinStart, hjoin⟩ := join_eq hevents (profilers prof) pfx
      rw [(h prof).2] at hjoin
      exact ⟨hjoinStart.trans hstart, hjoin⟩
    · exact ⟨hstart, hevents⟩

theorem keeps_run (start : K → TimePoint) (ops : List (Operation K)) :
    Keeps start (run start ops) (recorded ops) := by
  have hfold {profilers : K → Profiler} {histories : K → List Event}
      (h : Keeps start profilers histories) :
      Keeps start (ops.foldl Profiler.perform profilers) (ops.foldl record histories) := by
    induction ops generalizing profilers histories with
    | nil => exact h
    | cons op ops ih => exact ih (h.perform op)
  exact hfold fun _ => ⟨rfl, List.mergeSort_nil.symm⟩

/-- **What a profiler lists**: every event that it recorded once, in the order of the times, those of
one time as they were inserted, each with the time from the start to it, which is computed as the
difference of the two points. -/
theorem json_exact {D : Type} [IntCast D] [Add D] [Sub D] [Mul D] [OfScientific D]
    (start : K → TimePoint) (ops : List (Operation K)) (k : K) :
    ∃ listing, Listed Prod.fst (recorded ops k) listing
      ∧ (run start ops k).json =
        listing.map (fun event => (event.2, TimePoint.elapsed (start k) event.1))
      ∧ (run start ops k).json = listing.map fun event => (event.2, (event.1.sub (start k) : D)) := by
  obtain ⟨hstart, hevents⟩ := keeps_run start ops k
  have hjson {E : Type} [IntCast E] [Add E] [Sub E] [Mul E] [OfScientific E] :
      (run start ops k).json = (inOrder Prod.fst (recorded ops k)).map fun event =>
        (event.2, (event.1.sub (start k) : E)) := by
    rw [json, hstart, hevents]
  refine ⟨_, Lib.listed_inOrder Prod.fst (recorded ops k), ?_, hjson⟩
  simp only [hjson, TimePoint.sub_eq_elapsed]

end Holchain.Holper.Profiler
