import Holchain.Holper.Platform

/-!
# Holper.Split — cutting a string at a delimiter

`split` takes a middle piece by its position and its length, and the last one as a C string.
-/

namespace Holchain.Holper

/-- `str.find(delim, left)`. -/
def find (str : Bytes) (delim : UInt8) (left : Nat) : Option Nat :=
  ((str.drop left).idxOf? delim).map (left + ·)

theorem find_bounds {str : Bytes} {delim : UInt8} {left right : Nat}
    (h : find str delim left = some right) : left ≤ right ∧ right < str.length := by
  obtain ⟨i, hi, rfl⟩ := Option.map_eq_some_iff.mp h
  obtain ⟨hlt, -⟩ := List.idxOf?_eq_some_iff.mp hi
  rw [List.length_drop] at hlt
  omega

/-- The loop of `split<T>`, at `left` and with the values in `vec`. -/
def St.splitFrom (P : Platform) (t : ParamType) (str : Bytes) (delim : UInt8) (left : Nat)
    (vec : List (t.Value P)) : Except Bytes (List (t.Value P)) :=
  match _ : find str delim left with
  | none =>
    let piece := cStr (str.drop left)
    match St.to P t piece with
    -- the object itself goes to `%s`
    | none => .error (thrown "string.h" 21 (lit "Cannot parse " ++ P.object piece))
    | some v => .ok (vec ++ [v])
  | some right =>
    let piece := (str.drop left).take (right - left)
    match St.to P t piece with
    | none => .error (thrown "string.h" 27 (lit "Cannot parse " ++ cStr piece))
    | some v => St.splitFrom P t str delim (right + 1) (vec ++ [v])
termination_by str.length - left
decreasing_by
  have := find_bounds ‹find str delim left = _›
  omega

/-- `split<T>`. -/
def St.split (P : Platform) (t : ParamType) (str : Bytes) (delim : UInt8) :
    Except Bytes (List (t.Value P)) :=
  St.splitFrom P t str delim 0 []

end Holchain.Holper
