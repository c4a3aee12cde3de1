import Holchain.Bin.Urlencode

/-!
# Bin.Localdb — a key-value file

`localdb` keeps one JSON object in a file and has `jq` read and change it, with programs that it
puts together from encoded keys and values. `jq` is a parameter; `Documented` is what its manual
says of these programs, for keys and values that a JSON string holds as they stand.
-/

namespace Holchain.Bin.Localdb

open Holper (Bytes lit)

/-- `jq`: what it writes, with `-c` or without, for a program and an input. -/
abbrev Jq := Bool → Bytes → Bytes → Bytes

/-- `. + {"KEY": "VALUE"}`. -/
def addProgram (key value : Bytes) : Bytes :=
  lit ". + \x7b\"" ++ key ++ lit "\": \"" ++ value ++ lit "\"\x7d"

/-- `.["KEY"]`. -/
def getProgram (key : Bytes) : Bytes := lit ".[\"" ++ key ++ lit "\"]"

/-- The file as it is created. -/
def created : Bytes := lit "\x7b\x7d\n"

/-- `localdb`: what is in the file afterwards, and what is printed to another place than a
terminal. -/
def localdb (jq : Jq) (dbfile : Option Bytes) (arg1 arg2 : Text) : Bytes × Bytes :=
  let db := dbfile.getD created
  if arg1 = [] then (db, jq false (lit ".") db)
  else if arg2 = [] then
    let key := substitute (urlencode arg1)
    -- `| tr -d \" | urldecode`
    (db, urldecodeScript [] ((jq false (getProgram key) db).filter (· != 34)))
  else
    let key := substitute (urlencode arg1)
    let value := substitute (urlencode arg2)
    let res := substitute (jq true (addProgram key value) db)
    (res ++ [10], [])

/-! ## Runs -/

/-- A key or a value. -/
structure Entry where
  text : Text
  nonempty : text ≠ []
  ascii : text.Ascii
  noNul : '\x00' ∉ text

/-- A run of the script. -/
inductive Run where
  | set (key value : Entry)
  | get (key : Entry)

/-- What a run leaves in the file and what it prints. -/
def Run.exec (jq : Jq) (db : Bytes) : Run → Bytes × Bytes
  | .set key value => localdb jq (some db) key.text value.text
  | .get key => localdb jq (some db) key.text []

/-- The file after some runs. -/
def after (jq : Jq) (runs : List Run) : Bytes := runs.foldl (fun db run => (run.exec jq db).1) created

/-! ## What jq does -/

/-- Characters that a JSON string holds as they stand, and that are printed so. -/
def isLiteral (c : UInt8) : Bool := 32 ≤ c && c < 127 && c != 34 && c != 92

/-- `"s"`. -/
def quoted (s : Bytes) : Bytes := 34 :: s ++ [34]

/-- `{"k":"v",...}`. -/
def objectText (members : List (Bytes × Bytes)) : Bytes :=
  lit "\x7b" ++ [44].intercalate (members.map fun m => quoted m.1 ++ lit ":" ++ quoted m.2)
    ++ lit "\x7d"

/-- A JSON object of strings. -/
structure Object where
  members : List (Bytes × Bytes)
  distinct : (members.map (·.1)).Nodup
  literal : ∀ m ∈ members, (∀ c ∈ m.1, isLiteral c = true) ∧ ∀ c ∈ m.2, isLiteral c = true

/-- The object as it is printed in one line. -/
def Object.text (o : Object) : Bytes := objectText o.members

/-- What is printed for a value or for none. -/
def valueText : Option Bytes → Bytes
  | some v => quoted v
  | none => lit "null"

/-- **What is assumed of `jq`**: `. + {k: v}` replaces or adds a member, `-c` prints the object in
one line, and `.[k]` prints the value of a member, or null. -/
structure Documented (jq : Jq) : Prop where
  add (o : Object) {key value : Bytes} (hkey : ∀ c ∈ key, isLiteral c = true)
    (hvalue : ∀ c ∈ value, isLiteral c = true) :
    ∃ o' : Object, jq true (addProgram key value) (o.text ++ [10]) = o'.text ++ [10]
      ∧ o'.members.lookup key = some value
      ∧ ∀ other, other ≠ key → o'.members.lookup other = o.members.lookup other
  get (o : Object) {key : Bytes} (hkey : ∀ c ∈ key, isLiteral c = true) :
    jq false (getProgram key) (o.text ++ [10]) = valueText (o.members.lookup key) ++ [10]

end Holchain.Bin.Localdb
