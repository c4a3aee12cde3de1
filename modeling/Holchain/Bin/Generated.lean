import Mathlib.Data.List.Infix
import Holchain.Bin.Bashscriptgen

/-!
# Bin.Generated — what bash makes of a generated header

The lines of a header are a small part of the shell's language: comments, `set`, a function of
`printf`s, assignments, the loop over `getopts` with its `case`, and checks for empty variables.
`read` takes lines to commands, and has none for a line of another kind; `exec` runs them.
-/

namespace Holchain.Bin.Generated

open Holper (Bytes lit)

/-! ## Commands -/

/-- A `printf` of a function. -/
inductive Say where
  /-- `"%s [OPTIONS] [--]\n" "$0"` -/
  | self
  /-- a format that is written as it stands, with a newline -/
  | text (text : Bytes)

/-- What an arm of the `case` does. -/
inductive Action where
  | assign (name value : Bytes)
  /-- `NAME="$OPTARG"` -/
  | optarg (name : Bytes)
  /-- `usage; exit N` -/
  | usage (status : ℕ)

/-- An arm of the `case`. -/
structure Arm where
  patterns : List Bytes
  action : Action

inductive Command where
  /-- `set -o nounset -o errexit -o pipefail` -/
  | set
  /-- `usage () \x7b ... \x7d` -/
  | usage (body : List Say)
  | assign (name value : Bytes)
  /-- `while getopts OPTSTRING OPT; do case "$OPT" in ... esac; done` -/
  | getopts (optstring : Bytes) (arms : List Arm)
  /-- `if [ -z "$NAME" ]; then usage; exit 1; fi` -/
  | check (name : Bytes)

/-! ## Words -/

/-- A small letter. -/
def Lower (c : UInt8) : Prop := 97 ≤ c ∧ c ≤ 122

/-- A digit. -/
def Digit (c : UInt8) : Prop := 48 ≤ c ∧ c ≤ 57

/-- A letter or a digit. -/
def Alnum (c : UInt8) : Prop := Lower c ∨ Digit c ∨ 65 ≤ c ∧ c ≤ 90

instance : DecidablePred Lower := fun _ => inferInstanceAs (Decidable (_ ∧ _))
instance : DecidablePred Digit := fun _ => inferInstanceAs (Decidable (_ ∧ _))
instance : DecidablePred Alnum := fun _ => inferInstanceAs (Decidable (_ ∨ _ ∨ _ ∧ _))

/-- A name that no variable of the shell's own has. -/
def IsName (name : Bytes) : Prop :=
  (∀ c ∈ name, Lower c ∨ Digit c ∨ c = 95) ∧ (name.head?.any fun c => Lower c) = true

/-- A word that stands for itself. -/
def IsWord (word : Bytes) : Prop := ∀ c ∈ word, Alnum c ∨ c ∈ lit "-_./:,+@"

/-- A format that is written as it stands where these are kept out of it. -/
def IsText (out text : Bytes) : Prop := (∀ c ∈ text, c ∉ out) ∧ text.head? ≠ some 45

/-- Options and colons, where the first is not a colon. -/
def IsOptstring (text : Bytes) : Prop :=
  (∀ c ∈ text, Alnum c ∨ c = 58 ∨ c = 63) ∧ text.head? ≠ some 58

/-- A pattern for one character, or for all. -/
def IsPattern (pattern : Bytes) : Prop :=
  pattern.length = 1 ∧ ∀ c ∈ pattern, Alnum c ∨ c = 63 ∨ c = 42

instance (name : Bytes) : Decidable (IsName name) :=
  @instDecidableAnd _ _ (List.decidableBAll _ name) _

instance (word : Bytes) : Decidable (IsWord word) := List.decidableBAll _ word

instance (out text : Bytes) : Decidable (IsText out text) :=
  @instDecidableAnd _ _ (List.decidableBAll _ text) _

instance (text : Bytes) : Decidable (IsOptstring text) :=
  @instDecidableAnd _ _ (List.decidableBAll _ text) _

instance (pattern : Bytes) : Decidable (IsPattern pattern) :=
  @instDecidableAnd _ _ _ (List.decidableBAll _ pattern)

/-! ## Reading -/

/-- What stands between two texts. -/
def between (before behind text : Bytes) : Option Bytes :=
  if before <+: text ∧ behind <:+ text.drop before.length then
    some ((text.drop before.length).take (text.length - before.length - behind.length))
  else none

/-- What stands in front of the first such character and behind it. -/
def cut (c : UInt8) (text : Bytes) : Option (Bytes × Bytes) :=
  match text.dropWhile (· != c) with
  | [] => none
  | _ :: behind => some (text.takeWhile (· != c), behind)

/-- `NAME=WORD` -/
def readAssign (text : Bytes) : Option (Bytes × Bytes) :=
  (cut 61 text).bind fun (name, value) => if IsName name then some (name, value) else none

/-- A line of the function. -/
def readSay (line : Bytes) : Option Say :=
  if line = lit "  printf \"%s [OPTIONS] [--]\\n\" \"$0\"" then some .self
  else
    match between (lit "  printf '") (lit "\\n'") line with
    | some text => if IsText (lit "'\\%") text then some (.text text) else none
    | none =>
      (between (lit "  printf \"") (lit "\\n\"") line).bind fun text =>
        if IsText (lit "\"\\%$`") text then some (.text text) else none

/-- What stands in an arm. -/
def readAction (text : Bytes) : Option Action :=
  if text = lit "usage; exit 0" then some (.usage 0)
  else if text = lit "usage; exit 1" then some (.usage 1)
  else
    (readAssign text).bind fun (name, value) =>
      if value = lit "\"$OPTARG\"" then some (.optarg name)
      else if IsWord value then some (.assign name value)
      else none

/-- An arm. -/
def readArm (line : Bytes) : Option Arm :=
  (between (lit "    ") (lit ";;") line).bind fun arm =>
    (cut 41 arm).bind fun (patterns, rest) =>
      (between (lit " ") [] rest).bind fun text =>
        if (patterns.splitOn 124).all fun pattern => IsPattern pattern then
          (readAction text).map fun action => { patterns := patterns.splitOn 124, action }
        else none

/-- Where the reader stands. -/
inductive Mode where
  | top
  | usage (body : List Say)
  | loop (optstring : Bytes)
  | arms (optstring : Bytes) (arms : List Arm)
  | esac (optstring : Bytes) (arms : List Arm)
  | check (name : Bytes)
  | fi (name : Bytes)

/-- The reader, with the commands it has read. -/
structure Reader where
  mode : Mode := .top
  commands : List Command := []

/-- A command is complete. -/
def Reader.push (r : Reader) (command : Command) : Reader where
  mode := .top
  commands := r.commands ++ [command]

/-- A line between commands. -/
def Reader.topLine (r : Reader) (line : Bytes) : Option Reader :=
  if line = [] ∨ line.head? = some 35 then some r
  else if line = lit "set -o nounset -o errexit -o pipefail" then some (r.push .set)
  else if line = lit "usage () \x7b" then some { r with mode := .usage [] }
  else
    match between (lit "while getopts \"") (lit "\" OPT; do") line with
    | some optstring =>
      if IsOptstring optstring then some { r with mode := .loop optstring } else none
    | none =>
      match between (lit "if [ -z \"$") (lit "\" ]; then") line with
      | some name => if IsName name then some { r with mode := .check name } else none
      | none =>
        (readAssign line).bind fun (name, value) =>
          if IsWord value then some (r.push (.assign name value)) else none

/-- A line. -/
def Reader.line (r : Reader) (line : Bytes) : Option Reader :=
  match r.mode with
  | .top => r.topLine line
  | .usage body =>
    if line = lit "\x7d" then some (r.push (.usage body))
    else (readSay line).map fun say => { r with mode := .usage (body ++ [say]) }
  | .loop optstring =>
    if line = lit "  case \"$OPT\" in" then some { r with mode := .arms optstring [] } else none
  | .arms optstring arms =>
    if line = lit "  esac" then some { r with mode := .esac optstring arms }
    else (readArm line).map fun arm => { r with mode := .arms optstring (arms ++ [arm]) }
  | .esac optstring arms =>
    if line = lit "done" then some (r.push (.getopts optstring arms)) else none
  | .check name =>
    if line = lit "  usage; exit 1" then some { r with mode := .fi name } else none
  | .fi name => if line = lit "fi" then some (r.push (.check name)) else none

/-- The commands of a text. -/
def read (text : Bytes) : Option (List Command) :=
  ((Lib.Line.records text : List Line).foldlM (fun (r : Reader) l => r.line l.val) {}).bind fun r =>
    match r.mode with
    | .top => some r.commands
    | _ => none

/-! ## Running -/

/-- How a run ends before the last command. -/
inductive Stop where
  | exits (stdout : Bytes) (status : ℕ)
  /-- `unbound variable` -/
  | unbound (name : Bytes)

/-- The shell: the variables other than those of `getopts`, and the arguments from `OPTIND` on. -/
structure Shell where
  strict : Bool := false
  usage : Option (List Say) := none
  vars : Bytes → Option Bytes
  args : List Bytes

/-- What a function prints, `$0` being the script's name. -/
def printed (self : Bytes) (body : List Say) : Bytes :=
  body.flatMap fun
    | .self => self ++ lit " [OPTIONS] [--]\n"
    | .text text => text ++ lit "\n"

/-- `usage; exit N`. Where there is no such function, `errexit` ends the script with 127. -/
def Shell.exit (sh : Shell) (self : Bytes) (status : ℕ) : Stop :=
  match sh.usage with
  | some body => .exits (printed self body) status
  | none => .exits [] (if sh.strict then 127 else status)

def Shell.assign (sh : Shell) (name value : Bytes) : Shell :=
  { sh with vars := Function.update sh.vars name (some value) }

/-- The pattern is for the option. -/
def Matches (c : UInt8) (pattern : Bytes) : Prop := pattern = [63] ∨ pattern = [42] ∨ pattern = [c]

instance (c : UInt8) : DecidablePred (Matches c) := fun _ => inferInstanceAs (Decidable (_ ∨ _ ∨ _))

/-- The body of the loop, for an option. `OPTARG` is set where the option has an argument. -/
def Shell.option (self optstring : Bytes) (arms : List Arm) (sh : Shell) (o : Opt) :
    Except Stop Shell :=
  match arms.find? fun arm => arm.patterns.any fun pattern => Matches o.opt pattern with
  | none => .ok sh
  | some arm =>
    match arm.action with
    | .assign name value => .ok (sh.assign name value)
    | .optarg name =>
      if [o.opt, 58] <:+: optstring then .ok (sh.assign name o.optarg)
      else if sh.strict then .error (.unbound (lit "OPTARG"))
      else .ok (sh.assign name [])
    | .usage status => .error (sh.exit self status)

/-- A command. -/
def Shell.command (self : Bytes) (sh : Shell) : Command → Except Stop Shell
  | .set => .ok { sh with strict := true }
  | .usage body => .ok { sh with usage := some body }
  | .assign name value => .ok (sh.assign name value)
  | .getopts optstring arms =>
    let (opts, rest) := Bin.getopts optstring sh.args
    (opts.foldlM (Shell.option self optstring arms) sh).map fun sh => { sh with args := rest }
  | .check name =>
    match sh.vars name with
    | none => if sh.strict then .error (.unbound name) else .error (sh.exit self 1)
    | some value => if value = [] then .error (sh.exit self 1) else .ok sh

/-- The commands of a script, one after the other. -/
def exec (self : Bytes) (commands : List Command) (sh : Shell) : Except Stop Shell :=
  commands.foldlM (Shell.command self) sh

/-- A script that begins with the text, up to what stands behind it. -/
def run (text self : Bytes) (sh : Shell) : Option (Except Stop Shell) :=
  (read text).map fun commands => exec self commands sh

theorem exec_cons (self : Bytes) (command : Command) (commands : List Command) (sh : Shell) :
    exec self (command :: commands) sh = (sh.command self command).bind (exec self commands) :=
  List.foldlM_cons

theorem exec_append (self : Bytes) (first second : List Command) (sh : Shell) :
    exec self (first ++ second) sh = (exec self first sh).bind (exec self second) :=
  List.foldlM_append

theorem command_getopts (self : Bytes) {sh : Shell} {optstring : Bytes} {opts : List Opt}
    {rest : List Bytes} (h : Bin.getopts optstring sh.args = (opts, rest)) (arms : List Arm) :
    sh.command self (.getopts optstring arms)
      = (opts.foldlM (Shell.option self optstring arms) sh).map fun sh => { sh with args := rest } := by
  rw [Shell.command, h]

end Holchain.Bin.Generated
