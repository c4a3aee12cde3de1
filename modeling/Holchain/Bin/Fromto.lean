import Holchain.Lib.Filter
import Holchain.Bin.Shell

/-!
# Bin.Fromto — the lines from one text to another

`fromto` makes an awk program out of its options and runs it: the condition is put together from
the flags, and each line is printed or not depending on it and on the two variables that the
program keeps, `ctr` and `matched`.
-/

namespace Holchain.Bin.Fromto

open Holper (Bytes lit)

/-- The options. -/
structure Flags where
  inverse : Bool := false
  printFrom : Bool := false
  printTo : Bool := false
  matchOnce : Bool := false
  deriving DecidableEq

/-- Characters without a special meaning in an awk string. -/
def isOrdinary (c : UInt8) : Bool := c != 0 && c != 10 && c != 34 && c != 92

/-- A text that an awk string literal denotes as it stands. -/
structure Literal where
  text : Bytes
  nonempty : text ≠ []
  ordinary : text.all isOrdinary = true

/-- The literal, for a text that is one. -/
def Literal.of (text : Bytes) : Option Literal :=
  if h : text ≠ [] ∧ text.all isOrdinary = true then some ⟨text, h.1, h.2⟩ else none

/-- awk's `index`: where a text first stands in another, counted from 1, or 0. -/
def index : Bytes → Bytes → ℕ
  | [], _ => 0
  | c :: s, t =>
    if t <+: c :: s then 1
    else
      match index s t with
      | 0 => 0
      | n + 1 => n + 2

/-- The awk conditions. -/
inductive Cond where
  | ctr
  | from_
  | to_
  | not (c : Cond)
  | and (a b : Cond)

/-- The value of a condition. -/
def Cond.eval (ctr from_ to_ : Bool) : Cond → Bool
  | .ctr => ctr
  | .from_ => from_
  | .to_ => to_
  | .not c => !c.eval ctr from_ to_
  | .and a b => a.eval ctr from_ to_ && b.eval ctr from_ to_

/-- `COND`. -/
def cond (flags : Flags) : Cond :=
  let cond := Cond.ctr
  let cond := if flags.printFrom then cond else .and cond (.not .from_)
  let cond := if flags.printTo then cond else .and cond (.not .to_)
  if flags.inverse then .not cond else cond

/-- The variables of the awk program. `matched` is compared with 1 only, as a string. -/
structure Vars where
  ctr : Bool := false
  matched : Bool := false

/-- The program's action for a line, and whether it prints it. -/
def awk (flags : Flags) (from_ to_ : Literal) : Lib.Filter Vars Line where
  step vars line :=
    if vars.matched then (vars, true)
    else
      let isFrom := index line.val from_.text != 0
      let isTo := index line.val to_.text != 0
      let ctr := if isFrom then true else vars.ctr
      let prints := (cond flags).eval ctr isFrom isTo
      (if isTo then { ctr := false, matched := flags.matchOnce } else { vars with ctr }, prints)

/-- The lines it prints. -/
def lines (flags : Flags) (from_ to_ : Literal) (input : List Line) : List Line :=
  (awk flags from_ to_).run {} input

/-- The flags that are given; none where the usage is printed. -/
def options (flags : Flags) : List Opt → Option Flags
  | [] => some flags
  | o :: opts =>
    if o.opt = 118 then options { flags with inverse := true } opts
    else if o.opt = 102 then options { flags with printFrom := true } opts
    else if o.opt = 116 then options { flags with printTo := true } opts
    else if o.opt = 111 then options { flags with matchOnce := true } opts
    else none

/-- `fromto`: what it prints for its input. None where it prints its usage, and for texts with
characters that are special in an awk string. -/
def fromto (args : List Bytes) (input : Bytes) : Option Bytes :=
  let (opts, rest) := getopts (lit "ovhft?") args
  match options {} opts, rest with
  | some flags, [f, t] =>
    match Literal.of f, Literal.of t with
    | some from_, some to_ =>
      some (Lib.Line.unlines (lines flags from_ to_ (Lib.Line.records input)))
    | _, _ => none
  | _, _ => none

example : fromto [lit "-ft", lit "do", lit "done"] (lit "a\ndo\nb\ndone\nc") =
    some (lit "do\nb\ndone\n") := by decide +kernel

end Holchain.Bin.Fromto
