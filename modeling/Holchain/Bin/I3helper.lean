import Holchain.Bin.Localdb

/-!
# Bin.I3helper — registers of the clipboard, and a prompt

The commands of `i3helper` that use `localdb` or the selections. What is around them is part of their
labels: the window that has the focus, and what the program in it copies at `Ctrl+c`. The selections
are bytes, one for a character.
-/

namespace Holchain.Bin.I3helper

open Holper (Bytes lit)
open Localdb (Jq localdb)

/-- The window with the focus: `sysinfo isterm`, or a program that copies what is selected in it, if
anything is. -/
inductive Window where
  | terminal
  | program (selected : Option Bytes)

/-- The file, the selections, what was pasted into windows, and the commands that were evaluated. -/
structure Desktop where
  dbfile : Option Bytes
  primary : Bytes
  clipboard : Bytes
  pasted : List Bytes := []
  evaluated : List Bytes := []

/-- A command of the script, or a selection that a program makes by itself. -/
inductive Action where
  | select (text : Bytes)
  | cut (text : Bytes)
  | copy (focus : Window)
  | paste (focus : Window)
  | copytoregister (reg : Bytes) (focus : Window)
  | pastefromregister (reg : Bytes) (focus : Window)
  | prompt (prompted : Bytes)
  | execute

/-- The characters of an argument. -/
def characters (b : Bytes) : Text := b.map fun c => Char.ofNat c.toNat

variable (jq : Jq)

/-- `localdb KEY`, and what it prints. -/
def load (key : Bytes) (d : Desktop) : Desktop × Bytes :=
  let run := localdb jq d.dbfile (characters key) []
  ({ d with dbfile := some run.1 }, run.2)

/-- `localdb KEY "$(...)"`, of what a command prints. -/
def save (key printed : Bytes) (d : Desktop) : Desktop :=
  { d with dbfile := some (localdb jq d.dbfile (characters key) (characters (substitute printed))).1 }

/-- `xdotool key 'Ctrl+c'`. -/
def ctrlC (d : Desktop) : Window → Desktop
  | .program (some selected) => { d with clipboard := selected }
  | .program none | .terminal => d

/-- `copy`. -/
def copy (d : Desktop) : Window → Desktop
  | .terminal => { d with clipboard := d.primary }
  | focus =>
    let d := ctrlC d focus
    { d with primary := d.clipboard }

/-- `paste`. -/
def paste (d : Desktop) : Window → Desktop
  | .terminal => { d with pasted := d.pasted ++ [d.primary] }
  | .program _ => { d with pasted := d.pasted ++ [d.clipboard] }

/-- The key of a register. -/
def register (reg : Bytes) : Bytes := lit "clipboard." ++ reg

/-- `copytoregister`. -/
def copytoregister (reg : Bytes) (d : Desktop) : Window → Desktop
  | .terminal => save jq (register reg) d.primary d
  | focus =>
    let d := ctrlC d focus
    save jq (register reg) d.clipboard d

/-- `pastefromregister`. -/
def pastefromregister (reg : Bytes) (d : Desktop) : Window → Desktop
  | .terminal =>
    let (d, printed) := load jq (register reg) d
    paste { d with primary := printed } .terminal
  | focus =>
    let (d, printed) := load jq (register reg) d
    paste { d with clipboard := printed } focus

/-- `prompt`. -/
def prompt (prompted : Bytes) (d : Desktop) : Desktop :=
  if prompted = [] then d
  else { d with dbfile := some (localdb jq d.dbfile (characters (lit "prompt")) (characters prompted)).1 }

/-- `execute`. -/
def execute (d : Desktop) : Desktop :=
  let (d, printed) := load jq (lit "prompt") d
  { d with evaluated := d.evaluated ++ [substitute printed] }

/-- An action. -/
def act (d : Desktop) : Action → Desktop
  | .select text => { d with primary := text }
  | .cut text => { d with clipboard := text }
  | .copy focus => copy d focus
  | .paste focus => paste d focus
  | .copytoregister reg focus => copytoregister jq reg d focus
  | .pastefromregister reg focus => pastefromregister jq reg d focus
  | .prompt prompted => prompt jq prompted d
  | .execute => execute jq d

/-- Some actions. -/
def acts (d : Desktop) (actions : List Action) : Desktop := actions.foldl (act jq) d

end Holchain.Bin.I3helper
