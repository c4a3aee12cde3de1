import Holchain.Bin.Shell
import Holchain.Lib.Firsts

/-!
# Rc.SearchPath — what `bashrc` does to `PATH`

`add_to_path` puts a directory in front and takes out what is empty or stands there again, with a
pipeline over lines. `awk`'s array counts the lines it has had; `echo` takes a word of its letters
for options.
-/

namespace Holchain.Rc.SearchPath

open Bin (Line substitute)
open Holper (Bytes lit)
open Lib.Line (records unlines)

/-- A word that `echo` takes for options. -/
def IsEchoOption (arg : Bytes) : Prop :=
  arg.head? = some 45 ∧ arg.tail ≠ [] ∧ (arg.tail.all fun c => c ∈ lit "neE") = true

instance (arg : Bytes) : Decidable (IsEchoOption arg) := inferInstanceAs (Decidable (_ ∧ _ ∧ _))

/-- `echo "ARG"` -/
def echo (arg : Bytes) : Bytes :=
  if IsEchoOption arg then (if 110 ∈ arg.tail then [] else [10]) else arg ++ [10]

/-- `tr A B` -/
def tr (a b : UInt8) (text : Bytes) : Bytes := text.map fun c => if c = a then b else c

/-- `${out%:}` -/
def withoutColon (out : Bytes) : Bytes := if out.getLast? = some 58 then out.dropLast else out

/-- Which directories hold which programs; the empty one is the current directory. -/
abbrev Holdings := Bytes → Bytes → Bool

/-- The directory in which a program is found. -/
def which (holds : Holdings) (path name : Bytes) : Option Bytes :=
  (path.splitOn 58).find? (holds · name)

/-- Whether it is found. -/
def found (holds : Holdings) (path name : Bytes) : Bool := (which holds path name).isSome

/-- `add_to_path`: what it prints. The status of the pipeline is that of `tr`, and nothing comes out
of a program that is not found. -/
def addToPath (holds : Holdings) (dir path : Bytes) : Bytes :=
  if found holds path (lit "tr") then
    let lines : List Line := records (tr 58 10 (echo (dir ++ lit ":" ++ path)))
    -- `grep -Ev '^$' | awk '!m[$0]++'`
    let lines := if found holds path (lit "grep") then lines.filter fun l => l.val ≠ [] else []
    let lines := if found holds path (lit "awk") then Lib.unmet.run (fun _ => 0) lines else []
    let out := substitute (tr 10 58 (unlines lines))
    echo (withoutColon out)
  else echo path

/-- The lines of `bashrc` that set `PATH`, where `uname` says whether it is a Mac. -/
def searchPath (holds : Holdings) (darwin : Bool) (repoDir path : Bytes) : Bytes :=
  let path := substitute (addToPath holds (lit "/usr/local/bin") path)
  let path := if found holds path (lit "uname") && darwin then
      substitute (addToPath holds (lit "/usr/local/opt/coreutils/libexec/gnubin") path)
    else path
  substitute (addToPath holds (repoDir ++ lit "/bin") path)

end Holchain.Rc.SearchPath
