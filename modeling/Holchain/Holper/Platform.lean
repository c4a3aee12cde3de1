import Holchain.Holper.Json

/-!
# Holper.Platform — the code the daemon calls and this repository does not hold

The C library's `%f`, what its `%s` prints for a `std::string` object handed through `...`, and
rapidjson's reader and writer. Everything here is a parameter: a law that needs one of them to
behave says so in a hypothesis of its own.
-/

namespace Holchain.Holper

/-- The outside code the daemon's results depend on. -/
structure Platform where
  /-- `float` -/
  Float : Type
  /-- `%f`: the number at the front of a text and what stands after it -/
  scanFloat : Bytes → Option (Float × Bytes)
  /-- what `%s` prints for a `std::string` passed by value -/
  object : Bytes → Bytes
  /-- `Document::Parse` of a C string -/
  parse : Bytes → Option Json
  /-- `Writer`: the compact text of a value -/
  write : Json → Message

/-- The types a parameter is declared with. -/
inductive ParamType where
  | int
  | float
  | string
  /-- `std::nullptr_t` -/
  | none
  deriving DecidableEq, Repr

/-- `St::to<T>()`: the name of the type. -/
def ParamType.text : ParamType → Bytes
  | .int => lit "number"
  | .float => lit "float"
  | .string => lit "string"
  | .none => lit "none"

/-- The C++ type itself. -/
def ParamType.Value (P : Platform) : ParamType → Type
  | .int => Int
  | .float => P.Float
  | .string => Bytes
  | .none => Unit

/-- `St::to<T>(str, val)`: the value a text is read as. A number is accepted when `%d%c` (or
`%f%c`) converts one item, so when nothing is left for `%c`. -/
def St.to (P : Platform) : (t : ParamType) → Bytes → Option (t.Value P)
  | .int, s =>
    match scanInt (cStr s) with
    | some (n, []) => some n
    | _ => none
  | .float, s =>
    match P.scanFloat (cStr s) with
    | some (x, []) => some x
    | _ => none
  | .string, s => some s
  | .none, s => if s.isEmpty then some () else none

/-- A platform whose outside code recognises nothing. -/
def Platform.bare : Platform where
  Float := Unit
  scanFloat := fun _ => none
  object := id
  parse := fun _ => none
  write := fun _ => Message.empty

end Holchain.Holper
