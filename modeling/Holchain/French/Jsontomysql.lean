import Holchain.Lib.Json
import Holchain.Lib.Transaction

/-!
# French.Jsontomysql — verbs into tables

`jsontomysql.py` loads a file of verbs into two tables: `words` has the forms of a word as they were
in the file, and `invwords` has a row for each form and word. Each word is a transaction of its own.

What the server does with strings is written here: it compares them exactly, and a statement with a
string that a column has no room for is an error. What it does with other values is a parameter.
-/

namespace Holchain.French

open Lib (Str Json Floats Program text)

variable {F : Type}

/-- The server. -/
structure Server (F : Type) where
  /-- `VARCHAR(64)` has room for the string. -/
  storesWord : Str → Bool
  /-- `BLOB` has room for the text. -/
  storesData : List Char → Bool
  /-- What a column of strings has for a value that is no string. -/
  converted : Json F → Option Str
  /-- `=` of a string in a table and a value that is no string. -/
  equal : Str → Json F → Option Bool
  equal_converted (v : Json F) (s : Str) : converted v = some s → equal s v ≠ some false

namespace Server

/-- What a column of strings has for a value. -/
def stored (server : Server F) : Json F → Option Str
  | .str s => if server.storesWord s then some s else none
  | v => server.converted v

/-- `=` of a string in a table and a value. -/
def equals (server : Server F) (s : Str) : Json F → Option Bool
  | .str t => some (s == t)
  | v => server.equal s v

end Server

/-- `words` with the columns `word` and `data`, `invwords` with `invword` and `word`. -/
structure Tables where
  words : List (Str × List Char)
  invwords : List (Str × Str)

/-- The tables are made. -/
def Tables.empty : Tables := ⟨[], []⟩

/-- The forms of a word in the table. -/
def Tables.formsOf (t : Tables) (word : Str) : List Str :=
  (t.invwords.filter (·.2 == word)).map (·.1)

section Convert

variable (floats : Floats F) (server : Server F)

/-! ## Statements -/

/-- Whether there are rows of the word. -/
def selectWord (word : Str) (t : Tables) : Option Bool := some (t.words.any (·.1 == word))

/-- The column `word` is the primary key. -/
def insertWord (word : Str) (forms : Json F) (t : Tables) : Option Tables :=
  let data := Json.dumps floats none false forms
  if server.storesWord word && server.storesData data && !t.words.any (·.1 == word) then
    some { t with words := t.words ++ [(word, data)] }
  else none

/-- Whether there are rows of the word and the form. -/
def selectInvword (word : Str) (invword : Json F) (t : Tables) : Option Bool :=
  (t.formsOf word).anyM fun s => server.equals s invword

/-- A row more. -/
def insertInvword (word : Str) (invword : Json F) (t : Tables) : Option Tables :=
  (server.stored invword).map fun s => { t with invwords := t.invwords ++ [(s, word)] }

/-! ## Loading -/

/-- `invword == 'NA' or not invword`. -/
def skips : Json F → Bool
  | .str s => s == text "NA" || s.points.isEmpty
  | v => !v.truthy floats

/-- One form of a word. -/
def convertForm (word : Str) (invword : Json F) : Program Tables :=
  if skips floats invword then .done
  else
    .ask (selectInvword server word invword) fun dat =>
      if dat then .done else .write (insertInvword server word invword) .done

/-- The forms of a tense. -/
def convertTense (word : Str) (v : Json F) : Program Tables :=
  if v.truthy floats then
    match v.elements with
    | some invwords => .forEach (convertForm floats server word) invwords
    | none => .fail
  else .done

/-- The tenses of a word. -/
def convertForms (word : Str) : Json F → Program Tables
  | .obj forms => .forEach (fun m => convertTense floats server word m.2) forms
  | _ => .fail

/-- A word. -/
def convertWord (word : Str) (forms : Json F) : Program Tables :=
  .ask (selectWord word) fun dat =>
    if dat then .fail
    else
      .write (insertWord floats server word forms)
        ((convertForms floats server word forms).andThen (.commit .done))

/-- `convert`, behind the creation of the tables. -/
def convert (file : List Char) : Program Tables :=
  match Json.loads floats file with
  | some (.obj data) => .forEach (fun m => convertWord floats server m.1 m.2) data
  | _ => .fail

end Convert

end Holchain.French
