import Holchain.Lib.Json
import Holchain.Lib.Transition

/-!
# Bin.Supp — a catalogue in a file

`supp.py` keeps supplements and lists of them in one JSON file. An item is added by a process of its
own: it loads the file, checks the item, puts it behind the others and writes everything anew. A
record has whatever values its object has, as attributes in Python do; `Args` is what `argparse`
makes of a command line.
-/

namespace Holchain.Bin.Supp

open Lib (Str Json Floats text)

variable {F : Type}

/-- A list of strings. -/
def words (ss : List Str) : Json F := .arr (ss.map .str)

/-! ## Records -/

/-- `SupplementList`. -/
structure SupplementList (F : Type) where
  name : Json F
  supplements : Json F
  notes : Json F

/-- `Supplement`. -/
structure Supplement (F : Type) where
  name : Json F
  dosew : Json F
  dosev : Json F
  inc : Json F
  noop : Json F
  dec : Json F
  time : Json F
  notes : Json F
  exps : Json F

namespace SupplementList

/-- A name that is missing raises a `KeyError`. -/
def load (obj : Json F) : Option (SupplementList F) := do
  let name ← obj.get? (text "name")
  let supplements ← obj.get? (text "supplements")
  let notes ← obj.get? (text "notes")
  some { name, supplements, notes }

/-- `__dict__`. -/
def serialize (l : SupplementList F) : Json F :=
  .obj [(text "name", l.name), (text "supplements", l.supplements), (text "notes", l.notes)]

end SupplementList

namespace Supplement

/-- A name that is missing raises a `KeyError`. -/
def load (obj : Json F) : Option (Supplement F) := do
  let name ← obj.get? (text "name")
  let dosew ← obj.get? (text "dosew")
  let dosev ← obj.get? (text "dosev")
  let inc ← obj.get? (text "inc")
  let noop ← obj.get? (text "noop")
  let dec ← obj.get? (text "dec")
  let time ← obj.get? (text "time")
  let notes ← obj.get? (text "notes")
  let exps ← obj.get? (text "exps")
  some { name, dosew, dosev, inc, noop, dec, time, notes, exps }

/-- `__dict__`. -/
def serialize (s : Supplement F) : Json F :=
  .obj [(text "name", s.name), (text "dosew", s.dosew), (text "dosev", s.dosev),
    (text "inc", s.inc), (text "noop", s.noop), (text "dec", s.dec), (text "time", s.time),
    (text "notes", s.notes), (text "exps", s.exps)]

end Supplement

/-! ## Command lines -/

/-- What `argparse` has for a supplement. -/
structure SupplementArgs (F : Type) where
  name : Str
  dosew : F
  dosev : F
  inc : List Str
  noop : List Str
  dec : List Str
  /-- Without `--time` it is `'any'`. -/
  time : Option (List Str)
  notes : List Str
  exps : List Str

/-- What it has for a list. -/
structure ListArgs where
  name : Str
  supplements : List Str
  /-- Without `--notes` it is `[]`. -/
  notes : Option Str

/-- `self.args.__dict__`, as far as `load` looks at it. -/
def SupplementArgs.dict (args : SupplementArgs F) : Json F :=
  .obj [(text "name", .str args.name), (text "dosew", .float args.dosew),
    (text "dosev", .float args.dosev), (text "inc", words args.inc), (text "noop", words args.noop),
    (text "dec", words args.dec), (text "time", (args.time.map words).getD (.str (text "any"))),
    (text "notes", words args.notes), (text "exps", words args.exps)]

@[inherit_doc SupplementArgs.dict]
def ListArgs.dict (args : ListArgs) : Json F :=
  .obj [(text "name", .str args.name), (text "supplements", words args.supplements),
    (text "notes", (args.notes.map .str).getD (.arr []))]

/-! ## Database -/

/-- `Database`. -/
structure Database (F : Type) where
  supplements : List (Supplement F)
  supplementLists : List (SupplementList F)

namespace Database

/-- `dat[key]`, which is made where it is missing. -/
def entries (dat : Json F) (key : String) : Option (List (Json F)) :=
  ((dat.get? (text key)).getD (.arr [])).elements

/-- `_load`: an error is `none`, and without a file there is nothing. -/
def load (floats : Floats F) (file : Option (List Char)) : Option (Database F) := do
  let dat ← match file with
    | none => some (.obj [])
    | some contents => Json.loads floats contents
  match dat with
  | .obj _ =>
    let supplements ← (← entries dat "supplements").mapM Supplement.load
    let supplementLists ← (← entries dat "supplement_lists").mapM SupplementList.load
    some { supplements, supplementLists }
  -- an item of anything else cannot be set
  | _ => none

/-- The name of a record is this string. -/
def isNamed (name : Str) : Json F → Bool
  | .str s => s == name
  | _ => false

/-- `get_supplement`. -/
def getSupplement (db : Database F) (name : Str) : Option (Supplement F) :=
  db.supplements.find? fun s => isNamed name s.name

/-- `SupplementList.validate`; an error is `false`. The names come from a command line: they are
strings. -/
def validate (db : Database F) (l : SupplementList F) : Bool :=
  match l.supplements.elements with
  | none => false
  | some names => names.all fun
    | .str name => (db.getSupplement name).isSome
    | _ => false

/-- `dump`. -/
def dump (floats : Floats F) (db : Database F) : List Char :=
  Json.dumps floats (some 2) true
    (.obj [(text "supplements", .arr (db.supplements.map Supplement.serialize)),
      (text "supplement_lists", .arr (db.supplementLists.map SupplementList.serialize))])

end Database

/-! ## Adding an item -/

/-- What is added, or only printed. -/
inductive Item (F : Type) where
  | supplement (args : SupplementArgs F)
  | list (args : ListArgs)

/-- A command line. -/
structure Call (F : Type) where
  item : Item F
  dryRun : Bool

/-- `Main.add_item` behind the loading of the database: the database afterwards, where the item is
added. `Supplement.validate` accepts everything. -/
def addItem (db : Database F) (call : Call F) : Option (Database F) :=
  match call.item with
  | .supplement args => do
    let i ← Supplement.load args.dict
    if call.dryRun then none else some { db with supplements := db.supplements ++ [i] }
  | .list args => do
    let i ← SupplementList.load args.dict
    if call.dryRun then none
    else if db.validate i then some { db with supplementLists := db.supplementLists ++ [i] }
    else none

/-- A process: the file afterwards. -/
def run (floats : Floats F) (file : Option (List Char)) (call : Call F) : Option (List Char) :=
  match Database.load floats file with
  | none => file
  | some db =>
    match addItem db call with
    | none => file
    | some db => some (db.dump floats)

/-- The file after some processes, from a missing one. -/
def after (floats : Floats F) (calls : List (Call F)) : Option (List Char) :=
  calls.foldl (run floats) none

/-! ## The database object -/

/-- `cls`. -/
inductive Cls where
  | supplement
  | list
  deriving DecidableEq

/-- An item of the database. -/
inductive Record (F : Type) where
  | supplement (s : Supplement F)
  | list (l : SupplementList F)

/-- `name`. -/
def Record.name : Record F → Json F
  | .supplement s => s.name
  | .list l => l.name

/-- The class of what a command line has. -/
def Item.cls : Item F → Cls
  | .supplement _ => .supplement
  | .list _ => .list

/-- Its name. -/
def Item.name : Item F → Str
  | .supplement args => args.name
  | .list args => args.name

namespace Database

/-- `get_supplement_list`. -/
def getSupplementList (db : Database F) (name : Str) : Option (SupplementList F) :=
  db.supplementLists.find? fun s => isNamed name s.name

/-- `get_items`. -/
def getItems (db : Database F) : Cls → List (Record F)
  | .supplement => db.supplements.map .supplement
  | .list => db.supplementLists.map .list

/-- `get_item`. -/
def getItem (db : Database F) (cls : Cls) (name : Str) : Option (Record F) :=
  match cls with
  | .supplement => (db.getSupplement name).map .supplement
  | .list => (db.getSupplementList name).map .list

/-- `add_item`, of what a command line has; an error is `none`. -/
def addItem (db : Database F) (item : Item F) : Option (Database F) := Supp.addItem db ⟨item, false⟩

end Database

/-- The file, and the database of the process. -/
structure Session (F : Type) where
  file : Option (List Char)
  db : Option (Database F)

/-- What is done with them. -/
inductive Operation (F : Type) where
  /-- a new `Database` -/
  | load
  | addItem (item : Item F)
  | dump

/-- An operation. An error of `add_item` comes before anything is changed. -/
def Session.step (floats : Floats F) (s : Session F) : Operation F → Option (Session F)
  | .load => do
    let db ← Database.load floats s.file
    some { s with db := some db }
  | .addItem item => do
    let db ← s.db
    some { s with db := some ((db.addItem item).getD db) }
  | .dump => do
    let db ← s.db
    some { s with file := some (db.dump floats) }

/-- Sessions, from a missing file. -/
def sessions (floats : Floats F) : Lib.System (Session F) (Operation F) where
  init s := s = ⟨none, none⟩
  step := Session.step floats

end Holchain.Bin.Supp
