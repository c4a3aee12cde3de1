import Mathlib.Algebra.Order.Ring.Rat
import Mathlib.Data.Rat.Floor
import Holchain.Holper.Text
import Holchain.Lib.Truncation

/-!
# Holper.Time — points in time

A `TimeDelta` is its value. A `double` is a value of a type with the operations that are used; where
it is converted to an integer, it is a rational, and the conversion and the arithmetic of a `long`
have no result where they are undefined.
-/

namespace Holchain.Holper

/-- `TimePoint`. -/
structure TimePoint where
  sec : Int
  nsec : Int
deriving DecidableEq

/-- `operator<`. -/
def TimePoint.lt (a b : TimePoint) : Prop :=
  if a.sec = b.sec then a.nsec < b.nsec else a.sec < b.sec

instance : LT TimePoint := ⟨TimePoint.lt⟩

instance (a b : TimePoint) : Decidable (a < b) :=
  inferInstanceAs (Decidable (if a.sec = b.sec then a.nsec < b.nsec else a.sec < b.sec))

theorem TimePoint.lt_irrefl (a : TimePoint) : ¬ a < a := by
  show ¬ if a.sec = a.sec then a.nsec < a.nsec else a.sec < a.sec
  simp

/-! ## Texts -/

/-- A character of a text, or a number that is printed exactly. -/
inductive Token where
  | byte (c : UInt8)
  | int (n : Int)
  | double (x : Rat)
deriving DecidableEq

/-- The characters of a string. -/
def chars (s : Bytes) : List Token := s.map .byte

/-- `kTimeUnits`. -/
def kTimeUnits : List (Int × Bytes) :=
  [(7 * 24 * 60 * 60, lit "week"), (24 * 60 * 60, lit "day"), (60 * 60, lit "hour"),
    (60, lit "minute"), (1, lit "second")]

/-- `secondsToString`. -/
def secondsToString (val : Rat) : List Token :=
  if val < 0.001 then .double (val * 1000000) :: chars (lit "ns")
  else if val < 1 then .double (val * 1000) :: chars (lit "ms")
  else .double val :: chars (lit "s")

/-- `TimeDelta::str`. -/
def TimeDelta.str (value : Rat) : List Token := secondsToString value

/-! ## Points -/

namespace TimePoint

variable {D : Type} [IntCast D] [Add D] [Sub D] [Mul D] [OfScientific D]

/-- `value`. -/
def value (t : TimePoint) : D := (t.sec : D) + 0.000000001 * (t.nsec : D)

/-- `operator-` of two points. -/
def sub (t rhs : TimePoint) : D := t.value - rhs.value

/-- A `long`, if the number is one. -/
def long (n : Int) : Option Int := if -2 ^ 63 ≤ n ∧ n < 2 ^ 63 then some n else none

/-- `(long)` of a `double`. -/
def toLong (value : Rat) : Option Int := long (Lib.truncate value)

/-- `operator+`. -/
def add (t : TimePoint) (rhs : Rat) : Option TimePoint := do
  let seconds ← toLong rhs
  let mut sec ← long (t.sec + seconds)
  let mut nsec ← toLong (t.nsec + (rhs - seconds) * 1000000000)
  if nsec ≥ 1000000000 then
    nsec ← long (nsec - 1000000000)
    sec ← long (sec + 1)
  else if nsec < 0 then
    nsec ← long (nsec + 1000000000)
    sec ← long (sec - 1)
  return { sec, nsec }

/-- `operator-` of a number. -/
def minus (t : TimePoint) (rhs : Rat) : Option TimePoint := t.add (-rhs)

/-- Some calls of `operator+=`. -/
def advance (t : TimePoint) (deltas : List Rat) : Option TimePoint := deltas.foldlM add t

/-- `(int)` of a `double`. -/
def toInt (value : Rat) : Option Int :=
  let n := Lib.truncate value
  if -2 ^ 31 ≤ n ∧ n < 2 ^ 31 then some n else none

/-- The loop of `str` over the units. -/
def strUnits : List (Int × Bytes) → Int → List Token
  | [], _ => []
  | timeUnit :: rest, secs =>
    if secs ≥ timeUnit.1 then
      .int (secs.tdiv timeUnit.1) :: chars (lit " ") ++ chars timeUnit.2
        ++ (if secs ≥ 2 * timeUnit.1 then chars (lit "s") else []) ++ chars (lit " ")
        ++ strUnits rest (secs.tmod timeUnit.1)
    else strUnits rest secs

/-- `str`. `now` is the time that `TimePoint()` reads. -/
def str (t now : TimePoint) : Option (List Token) := do
  let diff : Rat := now.sub t
  let secs ← toInt diff
  return strUnits kTimeUnits secs ++ secondsToString (diff - secs)

end TimePoint

end Holchain.Holper
