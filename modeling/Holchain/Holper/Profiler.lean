import Holchain.Holper.Time

/-!
# Holper.Profiler — events in time

The multimap of the events is a list in the order of the keys, where a new element goes behind those
of its key.
-/

namespace Holchain.Holper

/-- `Profiler`. -/
structure Profiler where
  start : TimePoint
  events : List (TimePoint × Bytes) := []

namespace Profiler

/-- `std::multimap::insert`. -/
def insert (event : TimePoint × Bytes) : List (TimePoint × Bytes) → List (TimePoint × Bytes)
  | [] => [event]
  | other :: rest =>
    if event.1 < other.1 then event :: other :: rest else other :: insert event rest

/-- `event`. -/
def event (p : Profiler) (name : Bytes) (tp : TimePoint) : Profiler :=
  { p with events := insert (tp, name) p.events }

/-- `join`. -/
def join (p prof : Profiler) (pfx : Bytes) : Profiler :=
  prof.events.foldl (fun p profEvent => p.event (pfx ++ profEvent.2) profEvent.1) p

/-- `json`: the elements of the array, each a name and an offset. -/
def json {D : Type} [IntCast D] [Add D] [Sub D] [Mul D] [OfScientific D] (p : Profiler) :
    List (Bytes × D) :=
  p.events.map fun event => (event.2, event.1.sub p.start)

/-! ## Several profilers -/

/-- A call of a method of one of the profilers. The receiver of a `join` is not its argument. -/
inductive Operation (K : Type) where
  | event (receiver : K) (name : Bytes) (tp : TimePoint)
  | join (receiver prof : K) (distinct : receiver ≠ prof) (pfx : Bytes)

variable {K : Type} [DecidableEq K]

/-- The profilers after a call. -/
def perform (profilers : K → Profiler) : Operation K → K → Profiler
  | .event receiver name tp, k =>
    if k = receiver then (profilers k).event name tp else profilers k
  | .join receiver prof _ pfx, k =>
    if k = receiver then (profilers k).join (profilers prof) pfx else profilers k

/-- The profilers after some calls, from their constructors on. -/
def run (start : K → TimePoint) (ops : List (Operation K)) : K → Profiler :=
  ops.foldl perform fun k => { start := start k }

end Profiler

end Holchain.Holper
