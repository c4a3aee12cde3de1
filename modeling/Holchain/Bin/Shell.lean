import Holchain.Lib.Lines
import Holchain.Holper.Text

/-!
# Bin.Shell — what the scripts use of bash

Strings are bytes. `getopts` is given whole: the options of one loop over it, up to the argument
where it stops, and the arguments left from there on. `printf` knows the conversions that the
scripts use; `%b` reads escapes the way bash does it for this conversion, where `\c` ends the
output of the whole call.
-/

namespace Holchain.Bin

open Holper (Bytes lit)

/-- A line of a file. -/
abbrev Line := Lib.Line (10 : UInt8)

/-- `$*`. -/
def joined {α : Type*} (space : α) (args : List (List α)) : List α := [space].intercalate args

/-- `$(...)`: the output of a command without NULs and without the newlines at its end. -/
def substitute (output : Bytes) : Bytes := (output.filter (· != 0)).rdropWhile (· == 10)

theorem substitute_newline (text : Bytes) : substitute (text ++ [10]) = substitute text := by
  unfold substitute
  rw [List.filter_append]
  exact List.rdropWhile_concat_pos _ _ _ rfl

/-! ## Options -/

/-- `OPT` and `OPTARG` after a call of `getopts`. -/
structure Opt where
  opt : UInt8
  optarg : Bytes := []
  deriving DecidableEq

/-- An option that is not in the list, or without its argument. -/
def Opt.unknown : Opt := { opt := 63 }

/-- The options in one argument, and the last one where its argument is the next one. -/
def getoptsWord (optstring : Bytes) : Bytes → List Opt × Option UInt8
  | [] => ([], none)
  | c :: cs =>
    let (opts, last) := getoptsWord optstring cs
    if c = 58 ∨ c ∉ optstring then (.unknown :: opts, last)
    else if [c, 58] <:+: optstring then
      if cs = [] then ([], some c) else ([{ opt := c, optarg := cs }], none)
    else ({ opt := c } :: opts, last)

/-- A loop over `getopts`: the options, and the arguments from `OPTIND` on. -/
def getopts (optstring : Bytes) : List Bytes → List Opt × List Bytes
  | (45 :: c :: cs) :: args =>
    if c = 45 ∧ cs = [] then ([], args)
    else
      match getoptsWord optstring (c :: cs), args with
      | (opts, none), args =>
        let (opts', rest) := getopts optstring args
        (opts ++ opts', rest)
      | (opts, some _), [] => (opts ++ [.unknown], [])
      | (opts, some o), optarg :: args =>
        let (opts', rest) := getopts optstring args
        (opts ++ { opt := o, optarg } :: opts', rest)
  | args => ([], args)

/-- A loop uses up an argument, or there is no option for it. -/
theorem getopts_rest (optstring : Bytes) (args : List Bytes) :
    (getopts optstring args).2.length < args.length ∨ getopts optstring args = ([], args) := by
  fun_induction getopts optstring args with
  | case1 => exact .inl (Nat.lt_succ_self _)
  | case2 _ _ _ _ _ _ _ _ hrest ih =>
    rw [hrest] at ih
    refine .inl (Nat.lt_succ_of_le ?_)
    rcases ih with hlt | heq
    · exact Nat.le_of_lt hlt
    · exact Nat.le_of_eq (congrArg (fun r => r.2.length) heq)
  | case3 => exact .inl Nat.one_pos
  | case4 _ _ _ _ _ _ _ _ _ _ hrest ih =>
    rw [hrest] at ih
    refine .inl (Nat.lt_succ_of_le (Nat.le_succ_of_le ?_))
    rcases ih with hlt | heq
    · exact Nat.le_of_lt hlt
    · exact Nat.le_of_eq (congrArg (fun r => r.2.length) heq)
  | case5 => exact .inr rfl

/-! ## printf -/

/-- What a `printf` writes, and whether a `\c` ended it. -/
structure Printed where
  text : Bytes
  stopped : Bool
  deriving DecidableEq

/-- Something written before. -/
def Printed.after (p : Printed) (text : Bytes) : Printed := { p with text := text ++ p.text }

/-- `HEXVALUE`, for `ISXDIGIT`. -/
def hexValue (c : UInt8) : Option ℕ :=
  if 48 ≤ c ∧ c ≤ 57 then some (c.toNat - 48)
  else if 65 ≤ c ∧ c ≤ 70 then some (c.toNat - 55)
  else if 97 ≤ c ∧ c ≤ 102 then some (c.toNat - 87)
  else none

/-- `OCTVALUE`, for `ISOCTAL`. -/
def octValue (c : UInt8) : Option ℕ := if 48 ≤ c ∧ c ≤ 55 then some (c.toNat - 48) else none

/-- The number that at most so many digits make behind the digits read before, and how many there
are. -/
def digits (value : UInt8 → Option ℕ) (base : ℕ) : ℕ → ℕ → Bytes → ℕ × ℕ
  | max + 1, n, c :: cs =>
    match value c with
    | some d =>
      let (n', count) := digits value base max (base * n + d) cs
      (n', count + 1)
    | none => (n, 0)
  | _, n, _ => (n, 0)

/-- The bytes of a character, in as many as it takes. -/
def utf8 (n : ℕ) : Bytes :=
  let tail (i : ℕ) : UInt8 := .ofNat (128 + n / 64 ^ i % 64)
  if n < 0x80 then [.ofNat n]
  else if n < 0x800 then [.ofNat (192 + n / 64), tail 0]
  else if n < 0x10000 then [.ofNat (224 + n / 64 ^ 2), tail 1, tail 0]
  else if n < 0x200000 then [.ofNat (240 + n / 64 ^ 3), tail 2, tail 1, tail 0]
  else if n < 0x4000000 then [.ofNat (248 + n / 64 ^ 4), tail 3, tail 2, tail 1, tail 0]
  else if n < 0x80000000 then [.ofNat (252 + n / 64 ^ 5), tail 4, tail 3, tail 2, tail 1, tail 0]
  else []

/-- The escape behind a backslash: the bytes it stands for and how long it is. None is `\c`; a
backslash that begins no escape stands for itself. -/
def escape : Bytes → Option (Bytes × ℕ)
  | [] => some ([92], 0)
  | c :: cs =>
    if c = 97 then some ([7], 1)
    else if c = 98 then some ([8], 1)
    else if c = 99 then none
    else if c = 101 ∨ c = 69 then some ([27], 1)
    else if c = 102 then some ([12], 1)
    else if c = 110 then some ([10], 1)
    else if c = 114 then some ([13], 1)
    else if c = 116 then some ([9], 1)
    else if c = 118 then some ([11], 1)
    else if c = 92 then some ([92], 1)
    else if c = 120 then
      match digits hexValue 16 2 0 cs with
      | (_, 0) => some ([92], 0)
      | (n, count + 1) => some ([.ofNat n], count + 2)
    else if c = 117 ∨ c = 85 then
      match digits hexValue 16 (if c = 117 then 4 else 8) 0 cs with
      | (_, 0) => some ([92], 0)
      | (n, count + 1) => some (utf8 n, count + 2)
    else
      match octValue c with
      | some d =>
        -- `\0` is followed by up to three digits, another digit by up to two
        let (n, count) := digits octValue 8 (if d = 0 then 3 else 2) d cs
        some ([.ofNat n], count + 1)
      | none => some ([92], 0)

/-- `%b`, with the bytes to pass over first. -/
def percentB : ℕ → Bytes → Printed
  | _, [] => { text := [], stopped := false }
  | skip + 1, _ :: cs => percentB skip cs
  | 0, c :: cs =>
    if c = 92 then
      match escape cs with
      | some (text, length) => (percentB length cs).after text
      | none => { text := [], stopped := true }
    else (percentB 0 cs).after [c]

@[simp] theorem Printed.after_text (p : Printed) (text : Bytes) :
    (p.after text).text = text ++ p.text := rfl

/-- A part of a format. -/
inductive Directive where
  | text (text : Bytes)
  /-- `%s` -/
  | s
  /-- `%b` -/
  | b

/-- `printf`, where there is an argument for each conversion. -/
def printf : List Directive → List Bytes → Printed
  | [], _ => { text := [], stopped := false }
  | .text text :: format, args => (printf format args).after text
  | .s :: format, args => (printf format args.tail).after (args.headD [])
  | .b :: format, args =>
    let p := percentB 0 (args.headD [])
    if p.stopped then p else (printf format args.tail).after p.text

theorem printf_text (text : Bytes) (format : List Directive) (args : List Bytes) :
    printf (.text text :: format) args = (printf format args).after text := rfl

theorem printf_s (arg : Bytes) (format : List Directive) (args : List Bytes) :
    printf (.s :: format) (arg :: args) = (printf format args).after arg := rfl

theorem printf_b_eq (arg : Bytes) (format : List Directive) (args : List Bytes) :
    printf (.b :: format) (arg :: args) =
      if (percentB 0 arg).stopped then percentB 0 arg
      else (printf format args).after (percentB 0 arg).text := by
  rw [printf, List.headD_cons]
  rfl

/-- A `\c` ends everything. -/
theorem printf_b_stopped {arg : Bytes} (h : (percentB 0 arg).stopped = true)
    (format : List Directive) (args : List Bytes) :
    printf (.b :: format) (arg :: args) = percentB 0 arg := by
  rw [printf_b_eq, if_pos h]

theorem printf_b {arg : Bytes} (h : (percentB 0 arg).stopped = false)
    (format : List Directive) (args : List Bytes) :
    printf (.b :: format) (arg :: args) = (printf format args).after (percentB 0 arg).text := by
  rw [printf_b_eq, if_neg (Bool.not_eq_true _ ▸ h)]

example : printf [.b, .text (lit ", "), .s] [lit "\\x41\\n\\u20AC\\0", lit "\\n"] =
    { text := lit "A\n" ++ [0xe2, 0x82, 0xac, 0] ++ lit ", \\n", stopped := false } := by
  decide +kernel

end Holchain.Bin
