import Mathlib.Algebra.Ring.Int.Defs
import Mathlib.Data.List.TakeWhile
import Mathlib.Data.List.Sort
import Holchain.Lib.Codepoints

/-!
# Lib.Json — JSON as Python's `json` writes and reads it

`dumps` writes everything above ASCII as escapes, so a text of its own is ASCII; `loads` reads any
text. An object is a `dict`: a list of members in the order of their insertion, where a member that
comes again takes the place of the first one. Floats are a parameter: how they are printed and read
is `Floats`.
-/

namespace Holchain.Lib

/-- What `json` makes of a text, over the type of floats. -/
inductive Json (F : Type) where
  | null
  | bool (b : Bool)
  | int (n : ℤ)
  | float (x : F)
  | str (s : Str)
  | arr (items : List (Json F))
  | obj (members : List (Str × Json F))

/-- Floats: how they are printed, and what a number with a fraction or an exponent stands for. -/
structure Floats (F : Type) where
  text : F → List Char
  ofNumber : List Char → F
  nan : F
  infinity : F
  minusInfinity : F
  /-- `x == 0`. -/
  isZero : F → Bool

/-- The words of values that are no numbers. -/
def word (s : String) : List Char := s.toList

namespace Json

variable {F : Type}

/-! ## Objects -/

/-- `d[key] = value`. -/
def insert (key : Str) (value : Json F) : List (Str × Json F) → List (Str × Json F)
  | [] => [(key, value)]
  | m :: members =>
    if m.1 = key then (key, value) :: members else m :: insert key value members

/-- `dict(pairs)`. -/
def dict (pairs : List (Str × Json F)) : List (Str × Json F) :=
  pairs.foldl (fun members m => insert m.1 m.2 members) []

/-- `obj[key]`, where the value is an object and has the key. -/
def get? (key : Str) : Json F → Option (Json F)
  | .obj members => members.lookup key
  | _ => none

/-- What a `for` goes through: items, the characters of a string, the names of an object. -/
def elements : Json F → Option (List (Json F))
  | .arr items => some items
  | .str s => some (s.chars.map .str)
  | .obj members => some (members.map fun m => .str m.1)
  | _ => none

/-- `bool(v)`. -/
def truthy (floats : Floats F) : Json F → Bool
  | .null => false
  | .bool b => b
  | .int n => n != 0
  | .float x => !floats.isZero x
  | .str s => !s.points.isEmpty
  | .arr items => !items.isEmpty
  | .obj members => !members.isEmpty

mutual

/-- Members in the order of their names, at every level: `sort_keys`. -/
def sorted : Json F → Json F
  | .arr items => .arr (sortedItems items)
  | .obj members =>
    .obj ((sortedMembers members).insertionSort fun m m' => m.1.points ≤ m'.1.points)
  | .null => .null
  | .bool b => .bool b
  | .int n => .int n
  | .float x => .float x
  | .str s => .str s

def sortedItems : List (Json F) → List (Json F)
  | [] => []
  | v :: vs => sorted v :: sortedItems vs

def sortedMembers : List (Str × Json F) → List (Str × Json F)
  | [] => []
  | (key, v) :: members => (key, sorted v) :: sortedMembers members

end

/-! ## Writing -/

/-- A unit of a string between quotation marks. -/
def escape (u : ℕ) : List Char :=
  if u = 34 then ['\\', '"']
  else if u = 92 then ['\\', '\\']
  else if u = 10 then ['\\', 'n']
  else if u = 13 then ['\\', 'r']
  else if u = 9 then ['\\', 't']
  else if u = 12 then ['\\', 'f']
  else if u = 8 then ['\\', 'b']
  else if 32 ≤ u ∧ u ≤ 126 then [Char.ofNat u]
  else ['\\', 'u', (u / 4096).digitChar, (u / 256 % 16).digitChar, (u / 16 % 16).digitChar,
    (u % 16).digitChar]

/-- `"..."`. -/
def quote (s : Str) : List Char := '"' :: s.toUnits.flatMap escape ++ ['"']

/-- `int.__repr__`. -/
def intText : ℤ → List Char
  | .ofNat n => Nat.toDigits 10 n
  | .negSucc n => '-' :: Nat.toDigits 10 (n + 1)

/-- A new line at a level, where there is an indentation. -/
def newline (indent : Option ℕ) (level : ℕ) : List Char :=
  match indent with
  | none => []
  | some n => '\n' :: List.replicate (n * level) ' '

/-- What stands between two items. -/
def comma (indent : Option ℕ) (level : ℕ) : List Char :=
  ',' :: (if indent = none then [' '] else newline indent level)

section Write

variable (floats : Floats F) (indent : Option ℕ)

mutual

/-- The text of a value. -/
def write (level : ℕ) : Json F → List Char
  | .null => word "null"
  | .bool true => word "true"
  | .bool false => word "false"
  | .int n => intText n
  | .float x => floats.text x
  | .str s => quote s
  | .arr items =>
    if items.isEmpty then ['[', ']']
    else '[' :: newline indent (level + 1) ++ writeItems (level + 1) items ++ newline indent level
      ++ [']']
  | .obj members =>
    if members.isEmpty then ['\x7b', '\x7d']
    else '\x7b' :: newline indent (level + 1) ++ writeMembers (level + 1) members
      ++ newline indent level ++ ['\x7d']

def writeItems (level : ℕ) : List (Json F) → List Char
  | [] => []
  | v :: vs => write level v ++ (if vs.isEmpty then [] else comma indent level ++ writeItems level vs)

def writeMembers (level : ℕ) : List (Str × Json F) → List Char
  | [] => []
  | (key, v) :: members => quote key ++ [':', ' '] ++ write level v ++
    (if members.isEmpty then [] else comma indent level ++ writeMembers level members)

end

/-- `json.dumps`. -/
def dumps (sortKeys : Bool) (v : Json F) : List Char :=
  write floats indent 0 (if sortKeys then v.sorted else v)

end Write

/-! ## Reading -/

/-- White space between tokens. -/
def isWhitespace (c : Char) : Bool := c == ' ' || c == '\t' || c == '\n' || c == '\r'

/-- What stands behind white space. -/
def skip (text : List Char) : List Char := text.dropWhile isWhitespace

/-- A hexadecimal digit. -/
def hexValue (c : Char) : Option ℕ :=
  if c.isDigit then some (c.toNat - 48)
  else if 'a' ≤ c ∧ c ≤ 'f' then some (c.toNat - 87)
  else if 'A' ≤ c ∧ c ≤ 'F' then some (c.toNat - 55)
  else none

/-- Four of them. -/
def hex4 (a b c d : Char) : Option ℕ := do
  let a ← hexValue a
  let b ← hexValue b
  let c ← hexValue c
  let d ← hexValue d
  some (4096 * a + 256 * b + 16 * c + d)

/-- A character behind a backslash. -/
def unescape : Char → Option ℕ
  | '"' => some 34
  | '\\' => some 92
  | '/' => some 47
  | 'b' => some 8
  | 'f' => some 12
  | 'n' => some 10
  | 'r' => some 13
  | 't' => some 9
  | _ => none

/-- The units up to a quotation mark, and what stands behind it. -/
def scanUnits : List Char → Option (List ℕ × List Char)
  | [] => none
  | '"' :: rest => some ([], rest)
  | '\\' :: 'u' :: a :: b :: c :: d :: rest => do
    let u ← hex4 a b c d
    let (us, rest) ← scanUnits rest
    some (u :: us, rest)
  | '\\' :: c :: rest => do
    let u ← unescape c
    let (us, rest) ← scanUnits rest
    some (u :: us, rest)
  | c :: rest =>
    if c.toNat < 32 ∨ c = '\\' then none
    else do
      let (us, rest) ← scanUnits rest
      some (c.toNat :: us, rest)

/-- A string behind its first quotation mark. Units are below the last code point. -/
def scanString (text : List Char) : Option (Str × List Char) := do
  let (us, rest) ← scanUnits text
  if h : ∀ u ∈ us, u < 0x110000 then some (.ofUnits us h, rest) else none

/-- `0|[1-9]\d*`. -/
def scanNat : List Char → Option (List Char × List Char)
  | [] => none
  | '0' :: rest => some (['0'], rest)
  | c :: rest =>
    if c.isDigit then some (c :: rest.takeWhile Char.isDigit, rest.dropWhile Char.isDigit) else none

/-- `-?(?:0|[1-9]\d*)`. -/
def scanInt : List Char → Option (List Char × List Char)
  | '-' :: rest => (scanNat rest).map fun p => ('-' :: p.1, p.2)
  | text => scanNat text

/-- `\d+` behind what stands before it, or nothing. -/
def scanDigits (before text : List Char) : List Char × List Char :=
  if text.takeWhile Char.isDigit = [] then ([], before ++ text)
  else (before ++ text.takeWhile Char.isDigit, text.dropWhile Char.isDigit)

/-- `(\.\d+)?`. -/
def scanFraction : List Char → List Char × List Char
  | '.' :: rest => scanDigits ['.'] rest
  | text => ([], text)

/-- `[-+]?\d+` behind an `e`, or nothing. -/
def scanSigned (e : Char) : List Char → List Char × List Char
  | [] => ([], [e])
  | sign :: rest =>
    if sign = '-' ∨ sign = '+' then scanDigits [e, sign] rest else scanDigits [e] (sign :: rest)

/-- `([eE][-+]?\d+)?`. -/
def scanExponent : List Char → List Char × List Char
  | [] => ([], [])
  | e :: rest => if e = 'e' ∨ e = 'E' then scanSigned e rest else ([], e :: rest)

/-- The integer part of a number, its fraction and exponent, and what stands behind it. -/
def scanNumber (text : List Char) : Option (List Char × List Char × List Char) :=
  (scanInt text).map fun whole =>
    let fraction := scanFraction whole.2
    let exponent := scanExponent fraction.2
    (whole.1, fraction.1 ++ exponent.1, exponent.2)

/-- `int`. -/
def ofDigits : List Char → ℤ
  | '-' :: digits => -(Nat.ofDigitChars 10 digits 0 : ℕ)
  | digits => (Nat.ofDigitChars 10 digits 0 : ℕ)

section Read

variable (floats : Floats F)

/-- A number, or one of the words for floats that are none. -/
def scanFloat (text : List Char) : Option (Json F × List Char) :=
  match scanNumber text with
  | some (whole, [], rest) => some (.int (ofDigits whole), rest)
  | some (whole, tail, rest) => some (.float (floats.ofNumber (whole ++ tail)), rest)
  | none =>
    if word "NaN" <+: text then some (.float floats.nan, text.drop 3)
    else if word "Infinity" <+: text then some (.float floats.infinity, text.drop 8)
    else if word "-Infinity" <+: text then some (.float floats.minusInfinity, text.drop 9)
    else none

mutual

/-- A value at the front of a text, and what stands behind it. The fuel is a bound of the depth. -/
def scan : ℕ → List Char → Option (Json F × List Char)
  | 0, _ => none
  | fuel + 1, text =>
    match text with
    | '"' :: rest => (scanString rest).map fun (s, rest) => (.str s, rest)
    | '[' :: rest =>
      match skip rest with
      | ']' :: rest => some (.arr [], rest)
      | rest => (scanItems fuel rest).map fun (items, rest) => (.arr items, rest)
    | '\x7b' :: rest =>
      match skip rest with
      | '\x7d' :: rest => some (.obj [], rest)
      | rest => (scanMembers fuel rest).map fun (members, rest) => (.obj (dict members), rest)
    | 'n' :: 'u' :: 'l' :: 'l' :: rest => some (.null, rest)
    | 't' :: 'r' :: 'u' :: 'e' :: rest => some (.bool true, rest)
    | 'f' :: 'a' :: 'l' :: 's' :: 'e' :: rest => some (.bool false, rest)
    | text => scanFloat floats text

/-- Items up to the end of an array. -/
def scanItems : ℕ → List Char → Option (List (Json F) × List Char)
  | 0, _ => none
  | fuel + 1, text => do
    let (v, rest) ← scan fuel text
    match skip rest with
    | ',' :: rest =>
      let (vs, rest) ← scanItems fuel (skip rest)
      some (v :: vs, rest)
    | ']' :: rest => some ([v], rest)
    | _ => none

/-- Members up to the end of an object. -/
def scanMembers : ℕ → List Char → Option (List (Str × Json F) × List Char)
  | 0, _ => none
  | fuel + 1, text =>
    match text with
    | '"' :: rest => do
      let (key, rest) ← scanString rest
      match skip rest with
      | ':' :: rest =>
        let (v, rest) ← scan fuel (skip rest)
        match skip rest with
        | ',' :: rest =>
          let (members, rest) ← scanMembers fuel (skip rest)
          some ((key, v) :: members, rest)
        | '\x7d' :: rest => some ([(key, v)], rest)
        | _ => none
      | _ => none
    | _ => none

end

/-- `json.loads`; an error is `none`. -/
def loads (text : List Char) : Option (Json F) := do
  let (v, rest) ← scan floats (text.length + 1) (skip text)
  if skip rest = [] then some v else none

end Read

end Json

end Holchain.Lib
