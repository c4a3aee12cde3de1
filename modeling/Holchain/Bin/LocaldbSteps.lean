import Holchain.Bin.Localdb
import Holchain.Lib.Transition

/-!
# Bin.LocaldbSteps — two processes on one file

`localdb KEY VALUE` goes to its file in several steps, and nothing keeps a second process from
taking steps of its own in between: the existence test, the redirection that truncates and the
write behind it when the file is made, the reading by `jq`, and once more a truncation and a write
for the result.
-/

namespace Holchain.Bin.Localdb

open Holper (Bytes)

/-- Two arguments with which `localdb` sets an entry. -/
structure Setting where
  key : Text
  value : Text
  keyNonempty : key ≠ []
  valueNonempty : value ≠ []

/-- What the process reads into `jq`, and what it makes of it. -/
def Setting.result (jq : Jq) (setting : Setting) (db : Bytes) : Bytes :=
  substitute (jq true
    (addProgram (substitute (urlencode setting.key)) (substitute (urlencode setting.value))) db)

/-- Where a process is. -/
inductive Point where
  | begun
  /-- The test has found no file. -/
  | missing
  /-- The file is open and empty, `{}` is not yet written. -/
  | creating
  /-- Before `jq`. -/
  | ready
  /-- After `jq`, with its output in `res`. -/
  | read (res : Bytes)
  /-- The file is open and empty, `res` is not yet written. -/
  | truncated (res : Bytes)
  | ended
  deriving DecidableEq

/-- The file and the two processes. -/
structure Shared where
  dbfile : Option Bytes
  point : Bool → Point

/-- A write at the start of a file, over what another process has put there. -/
def overwrite (data content : Bytes) : Bytes := data ++ content.drop data.length

/-- The next step of a process: what is in the file behind it, and where it is. -/
def Setting.step (jq : Jq) (setting : Setting) (dbfile : Option Bytes) :
    Point → Option (Option Bytes × Point)
  | .begun => some (dbfile, if dbfile = none then .missing else .ready)
  | .missing => some (some [], .creating)
  | .creating => some (some (overwrite created (dbfile.getD [])), .ready)
  -- without a file the redirection fails, and nothing is printed
  | .ready => some (dbfile, .read ((dbfile.map (setting.result jq)).getD []))
  | .read res => some (some [], .truncated res)
  | .truncated res => some (some (overwrite (res ++ [10]) (dbfile.getD [])), .ended)
  | .ended => none

/-- Two processes, each with its own entry: a label is the process that takes a step. -/
def twoSets (jq : Jq) (settings : Bool → Setting) (initial : Option Bytes) :
    Lib.System Shared Bool where
  init s := s = { dbfile := initial, point := fun _ => .begun }
  step s i := ((settings i).step jq s.dbfile (s.point i)).map fun (dbfile, point) =>
    { dbfile, point := Function.update s.point i point }

/-! ## What jq does -/

/-- **What is assumed of `jq`** beside `Documented`, where a file may hold any JSON object: `read`
is the map from names to values that a text stands for, if it is one object. -/
structure Reads {Value : Type*} (jq : Jq) (string : Bytes → Value)
    (read : Bytes → Option (Bytes → Option Value)) : Prop where
  created : read created = some fun _ => none
  newline (line : Bytes) : read (line ++ [10]) = read line
  /-- `-c` prints the object with the member added in one line. -/
  add {db : Bytes} {map : Bytes → Option Value} (h : read db = some map) {key value : Bytes}
    (hkey : ∀ c ∈ key, isLiteral c = true) (hvalue : ∀ c ∈ value, isLiteral c = true) :
    ∃ line, jq true (addProgram key value) db = line ++ [10] ∧ (∀ c ∈ line, c ≠ 0 ∧ c ≠ 10)
      ∧ 2 ≤ line.length ∧ read line = some (Function.update map key (some (string value)))
  /-- Nothing is printed for an empty input. -/
  empty (compact : Bool) (program : Bytes) : jq compact program [] = []

end Holchain.Bin.Localdb
