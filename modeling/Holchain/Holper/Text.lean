import Mathlib.Algebra.Ring.Int.Defs
import Mathlib.Algebra.Ring.Nat
import Mathlib.Data.List.TakeWhile

/-!
# Holper.Text — strings as the daemon has them

A `std::string` is a list of bytes, NULs included; a C string is what stands before its first NUL.
`scanInt` is `sscanf`'s `%d` as glibc does it: leading white space, an optional sign, digits
converted by a saturating 64-bit `strtol`, and the result cut to `int`.
-/

namespace Holchain.Holper

/-- `std::string`. -/
abbrev Bytes := List UInt8

/-- A `std::string` that is written or sent: its size is a `size_t` well below `npos`. -/
abbrev Message := { b : Bytes // b.length < 2 ^ 63 }

/-- The empty one. -/
def Message.empty : Message := ⟨[], by decide⟩

/-- An ASCII literal of the source. -/
def lit (s : String) : Bytes := s.toList.map fun c => c.val.toUInt8

/-- What a C function sees of a string: the bytes before the first NUL. -/
def cStr (b : Bytes) : Bytes := b.takeWhile (· != 0)

/-- `%d`. -/
def decimal (n : Int) : Bytes := lit (toString n)

/-- The text of an exception made by `THROW`: `HException` puts the file and the line in front. -/
def thrown (file : String) (line : Nat) (message : Bytes) : Bytes :=
  lit file ++ lit ":" ++ decimal line ++ lit ": " ++ message

/-- A string without NUL is its own C string. -/
theorem cStr_of_notMem {b : Bytes} (h : 0 ∉ b) : cStr b = b := by
  unfold cStr
  rw [List.takeWhile_eq_self_iff]
  intro c hc
  simp only [bne_iff_ne]
  intro h0
  exact h (h0 ▸ hc)

/-! ## `%d` -/

/-- `isspace` in the C locale. -/
def isSpace (c : UInt8) : Bool := c == 32 || (9 ≤ c && c ≤ 13)

/-- `isdigit`. -/
def isDigit (c : UInt8) : Bool := 48 ≤ c && c ≤ 57

/-- The number a list of digits denotes. -/
def digitsValue (ds : Bytes) : Nat := ds.foldl (fun n d => 10 * n + (d.toNat - 48)) 0

/-- `strtol` stays within 64 bits. -/
def saturate (n : Int) : Int := max (-2 ^ 63) (min n (2 ^ 63 - 1))

/-- The conversion of a `long` to `int`. -/
def toInt32 (n : Int) : Int := n.bmod (2 ^ 32)

/-- `%d`: the number at the front of a text and what stands after it, where there is one. -/
def scanInt (s : Bytes) : Option (Int × Bytes) :=
  let s := s.dropWhile isSpace
  let (negative, s) := match s with
    | 45 :: rest => (true, rest)
    | 43 :: rest => (false, rest)
    | s => (false, s)
  let digits := s.takeWhile isDigit
  if digits.isEmpty then none
  else
    let n : Int := digitsValue digits
    some (toInt32 (saturate (if negative then -n else n)), s.dropWhile isDigit)

example : scanInt (lit " -12a") = some (-12, lit "a") := by decide

end Holchain.Holper
