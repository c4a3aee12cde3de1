import Holchain.French.Jsontomysql

/-!
# French.Conjugate — the page of a form

`conjugate.py` looks a form up and writes a page with a table for each word that has it. A page is a
list of code points.
-/

namespace Holchain.French

open Lib (Str Json Floats text)

variable {F : Type}

/-- `STATEMENTS['select']`: the rows of words that are joined with a row of the form. The source
selects the column `data` of them. -/
def select (t : Tables) (x : Str) : List (Str × List Char) :=
  t.words.flatMap fun w => (t.invwords.filter fun i => i.2 == w.1 && i.1 == x).map fun _ => w

/-! ## HTML -/

/-- A literal. -/
def code (s : String) : List ℕ := s.toList.map Char.toNat

/-- `HTML['prefix']`. -/
def htmlPrefix : List ℕ := code "<html>
  <head>
    <style>
      table, th, td \x7b
        border: 1px solid black;
        border-collapse: collapse;
        padding: 3px;
      \x7d
      .word \x7b
        color: red;
        font-weight: 900;
      \x7d
      .tense \x7b
        color: green;
        font-weight: 500;
      \x7d
    </style>
  </head>
  <body>
"

/-- `HTML['suffix']`. -/
def htmlSuffix : List ℕ := code "</body></html>"

/-- What an f-string has for a value; `str` of what is no string is a parameter. -/
def format (str : Json F → List ℕ) : Json F → List ℕ
  | .str s => s.points
  | v => str v

section Page

variable (str : Json F → List ℕ)

def tableHeader (word : Json F) : List ℕ :=
  code "<tr><th class=\"word\">" ++ format str word ++ code "</th>"
    ++ ["je", "tu", "il/elle", "nous", "vous", "ils/elles"].flatMap
      (fun subj => code "<th>" ++ code subj ++ code "</th>")
    ++ code "</tr>"

/-- The cells of a row. -/
def tableRow (tense : String) (data : List (Json F)) : List ℕ :=
  code "<tr><td class=\"tense\">" ++ code tense ++ code "</td>"
    ++ data.flatMap (fun d => code "<td>" ++ format str d ++ code "</td>")
    ++ code "</tr>"

/-- The rows of a table, each with the key of its tense. -/
def tenses : List (String × String) :=
  [("présent indicatif", "P"), ("imparfait indicatif", "I"), ("futur", "F"), ("passé simple", "J"),
    ("présent conditionnel", "C"), ("présent subjonctif", "S"), ("imparfait subjonctif", "T"),
    ("présent imperatif", "Y"), ("présent participe", "G"), ("passé participe", "K")]

/-- `v[0]`; the keys of an object are strings. -/
def first : Json F → Option (Json F)
  | .arr items => items.head?
  | .str s => s.chars.head?.map .str
  | _ => none

/-- `table_row(tense, data[key])`. -/
def tenseRow (data : Json F) (tense : String × String) : Option (List ℕ) := do
  let v ← data.get? (text tense.2)
  let cells ← v.elements
  some (tableRow str tense.1 cells)

/-- The table of a word. -/
def table (data : Json F) : Option (List ℕ) := do
  let w ← data.get? (text "W")
  let word ← first w
  let rows ← tenses.mapM (tenseRow str data)
  some (code "<table>" ++ tableHeader str word ++ rows.flatten ++ code "</table>")

/-- `conjugate`: an exception is `none`, and no page is `some none`. -/
def conjugate (floats : Floats F) (t : Tables) (word : Str) : Option (Option (List ℕ)) :=
  match select t word with
  | [] => some none
  | res => do
    let tables ← res.mapM fun row => (Json.loads floats row.2).bind (table str)
    some (some (htmlPrefix ++ tables.flatten ++ htmlSuffix))

end Page

end Holchain.French
