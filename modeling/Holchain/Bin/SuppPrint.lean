import Holchain.Bin.Supp

/-!
# Bin.SuppPrint — what the catalogue prints

The commands of `supp.py`, each in a process of its own: `print_item` and `print_items` write
records as JSON, all their fields or those of `--fields`, and a dry run writes the item that would
be added. What a process printed before it fails stays printed. Regular expressions are a parameter.
-/

namespace Holchain.Bin.Supp

open Lib (Str Json Floats text)

variable {F : Type}

/-! ## Printed records -/

/-- `__dict__`. -/
def Record.serialize : Record F → Json F
  | .supplement s => s.serialize
  | .list l => l.serialize

/-- `{k:ser[k] for k in fields}`: a name that is missing raises a `KeyError`. -/
def select (ser : Json F) (fields : List Str) : Option (Json F) := do
  let pairs ← fields.mapM fun k => (ser.get? k).map fun v => (k, v)
  some (.obj (Json.dict pairs))

/-- `serialize`, with the fields of the command line, where there are any. -/
def Record.serialized (r : Record F) (fields : Option (List Str)) : Option (Json F) :=
  match fields with
  | none => some r.serialize
  | some [] => some r.serialize
  | some fields => select r.serialize fields

/-- `print(json.dumps(v, indent=indent))`. -/
def printed (floats : Floats F) (indent : Option ℕ) (v : Json F) : List Char :=
  Json.dumps floats indent false v ++ ['\n']

/-- How a process ends. -/
inductive Exit where
  | success
  /-- `sys.exit` with a text, which goes to the standard error -/
  | message (points : List ℕ)
  /-- an exception -/
  | raised
  deriving DecidableEq

/-- What a process prints, and how it ends. -/
structure Outcome where
  stdout : List Char
  exit : Exit
  deriving DecidableEq

/-- Text that was printed first. -/
def Outcome.behind (before : List Char) (o : Outcome) : Outcome :=
  { o with stdout := before ++ o.stdout }

/-- `f'{cls}'`. -/
def Cls.repr : Cls → Str
  | .supplement => text "<class '__main__.Supplement'>"
  | .list => text "<class '__main__.SupplementList'>"

/-- `f'{cls} {n} does not exist'`. -/
def missing (cls : Cls) (n : Str) : List ℕ :=
  cls.repr.points ++ (text " ").points ++ n.points ++ (text " does not exist").points

/-- `print_item`, from some name on. -/
def printItem (floats : Floats F) (db : Database F) (cls : Cls) (fields : Option (List Str)) :
    List Str → Outcome
  | [] => ⟨[], .success⟩
  | n :: names =>
    match db.getItem cls n with
    | none => ⟨[], .message (missing cls n)⟩
    | some s =>
      match s.serialized fields with
      | none => ⟨[], .raised⟩
      | some ser =>
        (printItem floats db cls fields names).behind (printed floats (some 2) ser)

/-- `r.search(s.name)`; a name that is no string raises a `TypeError`. -/
def found (search : Str → Bool) : Json F → Option Bool
  | .str name => some (search name)
  | _ => none

/-- The loop of `print_items`, from some record on. -/
def printRecords (floats : Floats F) (r : Option (Str → Bool)) (fields : Option (List Str)) :
    List (Record F) → Outcome
  | [] => ⟨[], .success⟩
  | s :: records =>
    match r.elim (some true) (found · s.name) with
    | none => ⟨[], .raised⟩
    | some false => printRecords floats r fields records
    | some true =>
      match s.serialized fields with
      | none => ⟨[], .raised⟩
      | some ser => (printRecords floats r fields records).behind (printed floats none ser)

/-- `re.compile` and `search`: which texts have a match, or an error. -/
abbrev Re := Str → Option (Str → Bool)

/-- `print_items`: an empty pattern is none. -/
def printItems (floats : Floats F) (re : Re) (db : Database F) (cls : Cls) (name : Option Str)
    (fields : Option (List Str)) : Outcome :=
  match name.filter fun pattern => !pattern.points.isEmpty with
  | none => printRecords floats none fields (db.getItems cls)
  | some pattern =>
    match re pattern with
    | none => ⟨[], .raised⟩
    | some search => printRecords floats (some search) fields (db.getItems cls)

/-! ## Processes -/

/-- What `cls.load` makes of a command line. -/
def Item.load : Item F → Option (Record F)
  | .supplement args => (Supplement.load args.dict).map .supplement
  | .list args => (SupplementList.load args.dict).map .list

/-- `Main.add_item`, apart from the file. -/
def addOutcome (floats : Floats F) (db : Database F) (call : Call F) : Outcome :=
  match call.item.load with
  | none => ⟨[], .raised⟩
  | some i =>
    if call.dryRun then ⟨printed floats none i.serialize, .success⟩
    else if (addItem db call).isSome then ⟨[], .success⟩
    else ⟨[], .raised⟩

/-- A command line that `argparse` accepts. -/
inductive Command (F : Type) where
  | printItem (cls : Cls) (names : List Str) (fields : Option (List Str))
  | printItems (cls : Cls) (name : Option Str) (fields : Option (List Str))
  | addItem (call : Call F)
  /-- no action, whose name is `None` -/
  | nothing

/-- `Main().run()`: the file afterwards, and what comes out of the process. The database is loaded
before the command line is looked at. -/
def process (floats : Floats F) (re : Re) (file : Option (List Char)) (command : Command F) :
    Option (List Char) × Outcome :=
  match Database.load floats file with
  | none => (file, ⟨[], .raised⟩)
  | some db =>
    match command with
    | .printItem cls names fields => (file, Supp.printItem floats db cls fields names)
    | .printItems cls name fields => (file, Supp.printItems floats re db cls name fields)
    | .addItem call => (run floats file call, addOutcome floats db call)
    | .nothing => (file, ⟨[], .message (text "None not implemented").points⟩)

/-- The file after some processes, from a missing one. -/
def afterAll (floats : Floats F) (re : Re) (commands : List (Command F)) : Option (List Char) :=
  commands.foldl (fun file command => (process floats re file command).1) none

end Holchain.Bin.Supp
