import Mathlib.Algebra.Order.Ring.Rat
import Mathlib.Data.Rat.Floor
import Mathlib.Data.Stream.Defs
import Holchain.Lib.Truncation
import Holchain.Holper.Text

/-!
# Rc.Bashrc — the awk program of `xeger`

The program's two functions share the variables that are no parameters of theirs. awk's numbers are
rational here, its strings are lists, and they are counted from one.
-/

namespace Holchain.Rc.Bashrc

open Holper (Bytes)

/-! ## awk -/

/-- What `rand()` returns. -/
abbrev Rand := { r : ℚ // 0 ≤ r ∧ r < 1 }

/-- `length(st)`. -/
def length (st : Bytes) : ℤ := st.length

/-- `index(st, c)`: 0 where there is none. -/
def index (st : Bytes) (c : UInt8) : ℤ :=
  match st.idxOf? c with
  | some i => i + 1
  | none => 0

/-- `substr(st, m)`. -/
def substrFrom (st : Bytes) (m : ℤ) : Bytes := st.drop (max m 1 - 1).toNat

/-- `substr(st, m, n)`: from position `m` to position `m + n - 1`, as far as they are in the string. -/
def substr (st : Bytes) (m n : ℤ) : Bytes := (substrFrom st m).take (m + n - max m 1).toNat

/-- An array. -/
abbrev Elements := List (ℤ × Bytes)

/-- `split(st, opt, sep)`: the new `opt`. -/
def split (st : Bytes) (sep : UInt8) : Elements :=
  if st = [] then [] else ((st.splitOn sep).zipIdx 1).map fun piece => ((piece.2 : ℤ), piece.1)

/-- `opt[i]`, and the array behind it: an element that is asked for is made. -/
def subscript (opt : Elements) (i : ℤ) : Bytes × Elements :=
  match opt.lookup i with
  | some option => (option, opt)
  | none => ([], opt ++ [(i, [])])

/-- `int(x)`. -/
def int (x : ℚ) : ℤ := Lib.truncate x

/-! ## `xeger` -/

/-- The variables, what is printed, and what `rand()` will return. -/
structure Awk where
  l : ℤ
  nexttok : ℤ
  opt : Elements
  p : ℤ
  out : Bytes
  rands : Stream' Rand

/-- `printf("%s", text)`. -/
def Awk.printf (s : Awk) (text : Bytes) : Awk := { s with out := s.out ++ text }

/-- `xegeregex(st)`. -/
def xegeregex (st : Bytes) (s : Awk) : ℤ × Awk :=
  let s := { s with nexttok := index st 125 - 1 }
  let s := if s.nexttok < 0 then { s with nexttok := length st } else s
  let s := { s with opt := split (substr st 2 (s.nexttok - 1)) 124 }
  let s := { s with p := int (s.rands.head * s.opt.length), rands := s.rands.tail }
  let option := subscript s.opt (1 + s.p)
  let s := { s with opt := option.2 }
  (s.nexttok + 1, s.printf option.1)

/-- The loop of `xeger(st)`, for some rounds. -/
def xeger : ℕ → Bytes → Awk → Option Awk
  | 0, _, _ => none
  | fuel + 1, st, s =>
    let s := { s with l := length st }
    if s.l > 0 then
      let s := { s with nexttok := index st 123 - 1 }
      let s : Awk := if s.nexttok < 0 then { s with nexttok := s.l } else s
      let s := s.printf (substr st 1 s.nexttok)
      let st := substrFrom st (s.nexttok + 1)
      let group := xegeregex st s
      let s := { group.2 with l := group.1 }
      xeger fuel (substrFrom st (s.l + 1)) s
    else some s

/-- What is done with a line: `srand` starts the numbers, and the line is read. -/
def rule (fuel : ℕ) (seeded : Stream' Rand) (line : Bytes) (s : Awk) : Option Awk :=
  xeger fuel line { s with rands := seeded }

end Holchain.Rc.Bashrc
