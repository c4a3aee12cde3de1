import Mathlib.Logic.Function.Basic
import Holchain.Bin.Fromto

/-!
# Bin.Bashscriptgen — the header of a script

`bashscriptgen` takes the definitions of a script's options and writes the part of the script that
reads them, up to a marker line. With `-u` it puts a new header in front of what a file has behind
the marker.

The texts that the definitions contribute are collected in strings of escapes, which `printf '%b'`
expands in the end.
-/

namespace Holchain.Bin.Bashscriptgen

open Holper (Bytes lit)
open Fromto (fromto)

/-- A run that ends before there is a header. -/
inductive Refusal where
  /-- the usage is printed -/
  | usage (status : ℕ)
  /-- `File %s does not exist!` -/
  | noFile (name : Bytes)
  /-- `You need to pass name, help and address!` -/
  | incomplete
  /-- `? and h options are reserved for help` -/
  | reserved
  /-- `Option %s is required but has default value!` -/
  | requiredDefault (name : Bytes)
  /-- `Option %s has both flag value and value name!` -/
  | flagAndValue (name : Bytes)
  /-- `Duplicate option: %s` -/
  | duplicateOption (name : Bytes)
  /-- `Duplicate address: %s` -/
  | duplicateAddress (address : Bytes)
  /-- `cp` takes the name for options -/
  | copy
  deriving DecidableEq

/-! ## The arguments -/

/-- The options of the command itself. -/
structure Command where
  description : Bytes := []
  updatefile : Bytes := []
  deriving DecidableEq

/-- The first loop over the options. -/
def command (c : Command) : List Opt → Except Refusal Command
  | [] => .ok c
  | o :: opts =>
    if o.opt = 100 then command { c with description := o.optarg } opts
    else if o.opt = 117 then command { c with updatefile := o.optarg } opts
    -- the pattern `?` matches every other one
    else .error (.usage 0)

/-- One definition of an option. -/
structure Definition where
  name : Bytes := []
  helpstr : Bytes := []
  address : Bytes := []
  flagvalue : Bytes := []
  defaultvalue : Bytes := []
  required : Bool := false
  valuename : Bytes := []

/-- The loop over the options of a definition. -/
def definition (d : Definition) : List Opt → Except Refusal Definition
  | [] => .ok d
  | o :: opts =>
    if o.opt = 111 then definition { d with name := o.optarg } opts
    else if o.opt = 104 then definition { d with helpstr := o.optarg } opts
    else if o.opt = 97 then definition { d with address := o.optarg } opts
    else if o.opt = 102 then definition { d with flagvalue := o.optarg } opts
    else if o.opt = 100 then definition { d with defaultvalue := o.optarg } opts
    else if o.opt = 114 then definition { d with required := true } opts
    else if o.opt = 118 then definition { d with valuename := o.optarg } opts
    else .error (.usage 1)

/-- What the definitions so far come to. -/
structure Collected where
  options : List Bytes := []
  addresses : List Bytes := []
  usageStr : Bytes := []
  getoptsarg : Bytes := []
  optsactions : Bytes := []
  vardefs : Bytes := []
  varchecks : Bytes := []
  deriving DecidableEq

/-- The checks of a definition, and what it adds. -/
def Collected.add (g : Collected) (d : Definition) : Except Refusal Collected :=
  if d.name = [] ∨ d.helpstr = [] ∨ d.address = [] then .error .incomplete
  else if d.name = lit "?" ∨ d.name = lit "h" then .error .reserved
  else if d.required ∧ d.defaultvalue ≠ [] then .error (.requiredDefault d.name)
  else if d.flagvalue ≠ [] ∧ d.valuename ≠ [] then .error (.flagAndValue d.name)
  else
    let flagvalue := if d.flagvalue = [] then lit "1" else d.flagvalue
    if d.name ∈ g.options then .error (.duplicateOption d.name)
    else if d.address ∈ g.addresses then .error (.duplicateAddress d.address)
    else
      let helpstr := if d.defaultvalue = [] then d.helpstr
        else d.helpstr ++ lit " (defaults to " ++ d.defaultvalue ++ lit ")"
      let argdef := lit "-" ++ d.name
      let action := lit "    " ++ d.name ++ lit ") " ++ d.address ++ lit "="
      let (argdef, getoptsarg, action) :=
        if d.valuename = [] then (argdef, d.name, action ++ flagvalue ++ lit ";;\\n")
        else (argdef ++ lit " " ++ d.valuename, d.name ++ lit ":",
          action ++ lit "\"$OPTARG\";;\\n")
      let (varcheck, helpstr) :=
        if d.required then
          (lit "if [ -z \"$" ++ d.address ++ lit "\" ]; then\\n  usage; exit 1\\nfi\\n",
            helpstr ++ lit ", required")
        else ([], helpstr)
      .ok {
        options := d.name :: g.options
        addresses := d.address :: g.addresses
        usageStr := g.usageStr ++ lit "  printf '  " ++ argdef ++ lit ": " ++ helpstr
          ++ lit "\\\\n'\\n"
        getoptsarg := g.getoptsarg ++ getoptsarg
        optsactions := g.optsactions ++ action
        vardefs := g.vardefs ++ d.address ++ lit "=" ++ d.defaultvalue ++ lit "\\n"
        varchecks := g.varchecks ++ varcheck }

/-- A definition that is added has at least one option. -/
theorem length_getopts_lt {optstring : Bytes} {args : List Bytes} {g g' : Collected}
    (h : (definition {} (getopts optstring args).1).bind g.add = .ok g') :
    (getopts optstring args).2.length < args.length := by
  rcases getopts_rest optstring args with hlt | hnone
  · exact hlt
  · have hincomplete : (definition {} []).bind g.add = .error .incomplete := by
      show g.add {} = .error .incomplete
      rw [Collected.add, if_pos (Or.inl rfl)]
    rw [hnone, hincomplete] at h
    cases h

/-- The loop over the definitions, from `OPTIND` on. -/
def definitions (g : Collected) (args : List Bytes) : Except Refusal Collected :=
  if args.headD [] = [] then .ok g
  else
    match h : (definition {} (getopts (lit "o:h:a:f:d:rv:") args).1).bind g.add with
    | .error refusal => .error refusal
    | .ok g' =>
      have := length_getopts_lt h
      definitions g' (getopts (lit "o:h:a:f:d:rv:") args).2
termination_by args.length

/-- What the arguments come to. -/
structure Parsed where
  updatefile : Bytes
  descriptionStr : Bytes
  collected : Collected
  deriving DecidableEq

/-- The script up to `generate`. -/
def parse (exists_ : Bytes → Bool) (args : List Bytes) : Except Refusal Parsed :=
  let (opts, rest) := getopts (lit "d:u:h?") args
  (command {} opts).bind fun c =>
    if c.updatefile ≠ [] ∧ ¬ exists_ c.updatefile then .error (.noFile c.updatefile)
    else
      let descriptionStr := if c.description = [] then []
        else lit "  printf '  " ++ c.description ++ lit "\\\\n'\\n"
      (definitions {} rest).bind fun g =>
        .ok {
          updatefile := c.updatefile
          descriptionStr
          collected := { g with getoptsarg := g.getoptsarg ++ lit "h?" } }

/-! ## The header -/

/-- The first line. -/
def shebang : Bytes := lit "#!/usr/bin/env bash"

/-- What the last line is found by. -/
def marker : Bytes := lit "bashscriptgen end"

/-- The format of `generate`. -/
def format : List Directive :=
  [.text (shebang ++ lit "\nset -o nounset -o errexit -o pipefail\n\n"
      ++ lit "# Generated with holgac/bashscriptgen\n# Arguments: "),
    .s,
    .text (lit "\n\nusage () \x7b\n  printf \"%s [OPTIONS] [--]\\n\" \"$0\"\n"),
    .b,
    .text (lit "  printf \"Options:\\n\"\n"
      ++ lit "  printf \"  -h: Display this help and exit\\n\"\n"),
    .b,
    .text (lit "\x7d\n\n"),
    .b,
    .text (lit "\nwhile getopts \""),
    .s,
    .text (lit "\" OPT; do\n  case \"$OPT\" in\n"),
    .b,
    .text (lit "    h|?) usage; exit 0;;\n    *) usage; exit 1;;\n  esac\ndone\n"),
    .b,
    .text (lit "\n# " ++ marker ++ lit " (do not remove this)\n")]

/-- `generate`. -/
def generate (args : List Bytes) (p : Parsed) : Printed :=
  printf format [joined 32 args, p.descriptionStr, p.collected.usageStr, p.collected.vardefs,
    p.collected.getoptsarg, p.collected.optsactions, p.collected.varchecks]

/-- The files. -/
abbrev Files := Bytes → Option Bytes

/-- What a run prints and what the files are afterwards. -/
structure Result where
  stdout : Bytes
  files : Files

/-- `bashscriptgen`. -/
def bashscriptgen (files : Files) (args : List Bytes) : Except Refusal Result :=
  (parse (fun name => (files name).isSome) args).bind fun p =>
    if p.updatefile = [] then .ok { stdout := (generate args p).text, files }
    else if p.updatefile.head? = some 45 then .error .copy
    else
      let files := Function.update files (p.updatefile ++ lit ".bak") (files p.updatefile)
      let out := substitute (generate args p).text
      let tail := fromto [lit "-oftv", shebang, marker] ((files p.updatefile).getD [])
      let out := out ++ substitute (tail.getD [])
      .ok { stdout := [], files := Function.update files p.updatefile (some out) }

end Holchain.Bin.Bashscriptgen
