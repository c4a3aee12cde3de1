import Holchain.Bin.Generated
import Holchain.Laws.Bashscriptgen
import Holchain.Laws.Getopts
import Holchain.Laws.Localdb
import Holchain.Laws.Urlencode

/-!
# Laws.Generated — what the generated script means

A header is compiled from definitions, so it has to do what they say. Where no definition needs
quoting, the text that `generate` writes is read back as the program of the definitions
(`read_generate`), and this program takes every command line as the definitions have it
(`generated_means`): an option that is none of them, or a required value that is empty, ends in the
usage, and otherwise each address has the last value that was given for it, or its default.
-/

namespace Holchain.Bin.Generated

open Bashscriptgen (Definition Collected Parsed Refusal definitions definition generate)
open Holper (Bytes lit)

/-! ## Definitions in order -/

/-- What the arguments behind the command's own ones define. -/
inductive Defines : List Bytes → List Definition → Prop
  | done {args} : args.headD [] = [] → Defines args []
  | more {args d ds} : args.headD [] ≠ [] →
      definition {} (getopts (lit "o:h:a:f:d:rv:") args).1 = .ok d →
      Defines (getopts (lit "o:h:a:f:d:rv:") args).2 ds → Defines args (d :: ds)

/-- The text in the usage. -/
def usageText (d : Definition) : Bytes :=
  lit "  -" ++ d.name ++ (if d.valuename = [] then [] else lit " " ++ d.valuename) ++ lit ": "
    ++ (d.helpstr
      ++ (if d.defaultvalue = [] then [] else lit " (defaults to " ++ d.defaultvalue ++ lit ")")
      ++ if d.required then lit ", required" else [])

/-- The line of the usage. -/
def usageLine (d : Definition) : Bytes := lit "  printf '" ++ usageText d ++ lit "\\n'"

/-- What an option's presence sets, where it has no argument. -/
def flagOf (d : Definition) : Bytes := if d.flagvalue = [] then lit "1" else d.flagvalue

/-- The arm of the `case`. -/
def armLine (d : Definition) : Bytes :=
  lit "    " ++ d.name ++ lit ") " ++ d.address ++ lit "="
    ++ (if d.valuename = [] then flagOf d else lit "\"$OPTARG\"") ++ lit ";;"

/-- The option, as `getopts` has it. -/
def optionOf (d : Definition) : Bytes := d.name ++ if d.valuename = [] then [] else lit ":"

/-- The assignment of the default. -/
def varLine (d : Definition) : Bytes := d.address ++ lit "=" ++ d.defaultvalue

/-- The check. -/
def checkLines (d : Definition) : List Bytes :=
  if d.required then
    [lit "if [ -z \"$" ++ d.address ++ lit "\" ]; then", lit "  usage; exit 1", lit "fi"]
  else []

/-- The definition is one that is accepted behind these. -/
structure Allowed (g : Collected) (d : Definition) : Prop where
  complete : ¬ (d.name = [] ∨ d.helpstr = [] ∨ d.address = [])
  free : ¬ (d.name = lit "?" ∨ d.name = lit "h")
  required : ¬ (d.required ∧ d.defaultvalue ≠ [])
  flag : ¬ (d.flagvalue ≠ [] ∧ d.valuename ≠ [])
  name : d.name ∉ g.options
  address : d.address ∉ g.addresses

/-- Lines as strings of escapes. -/
def escaped (lines : List Bytes) : Bytes := lines.flatMap fun line => line ++ lit "\\n"

/-- What a definition adds. -/
def added (g : Collected) (d : Definition) : Collected where
  options := d.name :: g.options
  addresses := d.address :: g.addresses
  usageStr := g.usageStr ++ (lit "  printf '" ++ usageText d ++ lit "\\\\n'\\n")
  getoptsarg := g.getoptsarg ++ optionOf d
  optsactions := g.optsactions ++ escaped [armLine d]
  vardefs := g.vardefs ++ escaped [varLine d]
  varchecks := g.varchecks ++ escaped (checkLines d)

theorem add_ok {g g' : Collected} {d : Definition} (h : g.add d = .ok g') :
    Allowed g d ∧ g' = added g d := by
  unfold Collected.add at h
  split at h
  · cases h
  next hcomplete =>
  split at h
  · cases h
  next hfree =>
  split at h
  · cases h
  next hrequired =>
  split at h
  · cases h
  next hflag =>
  dsimp only at h
  split at h
  · cases h
  next hname =>
  split at h
  · cases h
  next haddress =>
  refine ⟨⟨hcomplete, hfree, hrequired, hflag, hname, haddress⟩, ?_⟩
  rw [← Except.ok.inj h]
  have harm : lit ";;" ++ lit "\\n" = lit ";;\\n" := rfl
  have hcheck : lit "\" ]; then" ++ (lit "\\n" ++ (lit "  usage; exit 1" ++ (lit "\\n"
      ++ (lit "fi" ++ lit "\\n")))) = lit "\" ]; then\\n  usage; exit 1\\nfi\\n" := rfl
  have hoptarg : lit "\"$OPTARG\"" ++ lit ";;\\n" = lit "\"$OPTARG\";;\\n" := rfl
  have husage (text : Bytes) : lit "  printf '  " ++ (lit "-" ++ text)
      = lit "  printf '" ++ (lit "  -" ++ text) := rfl
  cases hreq : d.required <;> by_cases hvalue : d.valuename = [] <;>
    by_cases hdefault : d.defaultvalue = [] <;>
    simp [added, escaped, usageText, armLine, flagOf, optionOf, varLine, checkLines, hreq, hvalue,
      hdefault, harm, hcheck, hoptarg, husage]

/-- What a list of definitions adds. -/
structure Collects (g : Collected) (ds : List Definition) (g' : Collected) : Prop where
  options : g'.options = (ds.map (·.name)).reverse ++ g.options
  addresses : g'.addresses = (ds.map (·.address)).reverse ++ g.addresses
  usageStr : g'.usageStr
    = g.usageStr ++ ds.flatMap fun d => lit "  printf '" ++ usageText d ++ lit "\\\\n'\\n"
  getoptsarg : g'.getoptsarg = g.getoptsarg ++ ds.flatMap optionOf
  optsactions : g'.optsactions = g.optsactions ++ escaped (ds.map armLine)
  vardefs : g'.vardefs = g.vardefs ++ escaped (ds.map varLine)
  varchecks : g'.varchecks = g.varchecks ++ escaped (ds.flatMap checkLines)

/-- Names and addresses are not used twice, and two names are taken. -/
structure Distinct (ds : List Definition) : Prop where
  names : (ds.map (·.name)).Nodup
  addresses : (ds.map (·.address)).Nodup
  help : ∀ d ∈ ds, d.name ≠ lit "h"

theorem collects {g g' : Collected} {ds : List Definition}
    (h : ds.foldlM Collected.add g = .ok g') :
    Collects g ds g' ∧ (g.options.Nodup → g'.options.Nodup)
      ∧ (g.addresses.Nodup → g'.addresses.Nodup) ∧ ∀ d ∈ ds, d.name ≠ lit "h" := by
  induction ds generalizing g with
  | nil =>
    cases h
    refine ⟨?_, id, id, nofun⟩
    constructor <;> simp [escaped]
  | cons d ds ih =>
    rw [List.foldlM_cons] at h
    cases hadd : g.add d with
    | error refusal =>
      rw [hadd] at h
      cases h
    | ok g₁ =>
      rw [hadd] at h
      obtain ⟨hallowed, rfl⟩ := add_ok hadd
      obtain ⟨hcollects, hoptions, haddresses, hhelp⟩ := ih h
      refine ⟨?_, fun hnodup => hoptions (List.nodup_cons.mpr ⟨hallowed.name, hnodup⟩),
        fun hnodup => haddresses (List.nodup_cons.mpr ⟨hallowed.address, hnodup⟩),
        List.forall_mem_cons.mpr ⟨fun heq => hallowed.free (.inr heq), hhelp⟩⟩
      constructor
      · rw [hcollects.options]
        simp [added]
      · rw [hcollects.addresses]
        simp [added]
      · rw [hcollects.usageStr]
        simp [added]
      · rw [hcollects.getoptsarg]
        simp [added]
      · rw [hcollects.optsactions]
        simp [added, escaped]
      · rw [hcollects.vardefs]
        simp [added, escaped]
      · rw [hcollects.varchecks]
        simp [added, escaped]

/-- The loop over the definitions is a fold over what is defined. -/
theorem Defines.foldlM {args : List Bytes} {ds : List Definition} (h : Defines args ds)
    {g g' : Collected} (hdefinitions : definitions g args = .ok g') :
    ds.foldlM Collected.add g = .ok g' := by
  induction h generalizing g with
  | done hnil =>
    rw [definitions, if_pos hnil] at hdefinitions
    exact hdefinitions
  | @more args d ds hne hd _ ih =>
    cases hadd : g.add d with
    | error refusal =>
      rw [definitions.eq_def, if_neg hne] at hdefinitions
      have hbind : (definition {} (getopts (lit "o:h:a:f:d:rv:") args).1).bind g.add
          = .error refusal := by
        rw [hd]
        exact hadd
      split at hdefinitions
      · cases hdefinitions
      · next g₁ hok =>
        rw [hbind] at hok
        cases hok
    | ok g₁ =>
      have hbind : (definition {} (getopts (lit "o:h:a:f:d:rv:") args).1).bind g.add = .ok g₁ := by
        rw [hd]
        exact hadd
      rw [Bashscriptgen.definitions_add hne hbind] at hdefinitions
      rw [List.foldlM_cons, hadd]
      exact ih hdefinitions

/-- Every accepted list of arguments defines something. -/
theorem exists_defines {g g' : Collected} (args : List Bytes)
    (h : definitions g args = .ok g') : ∃ ds, Defines args ds := by
  induction hlen : args.length using Nat.strong_induction_on generalizing args g with
  | _ n ih =>
    by_cases hne : args.headD [] = []
    · exact ⟨[], .done hne⟩
    · cases hbind : (definition {} (getopts (lit "o:h:a:f:d:rv:") args).1).bind g.add with
      | error refusal =>
        rw [definitions.eq_def, if_neg hne] at h
        split at h
        · cases h
        · next g₁ hok =>
          rw [hbind] at hok
          cases hok
      | ok g₁ =>
        rw [Bashscriptgen.definitions_add hne hbind] at h
        have hlt := Bashscriptgen.length_getopts_lt hbind
        cases hd : definition {} (getopts (lit "o:h:a:f:d:rv:") args).1 with
        | error refusal =>
          rw [hd] at hbind
          cases hbind
        | ok d =>
          obtain ⟨ds, hds⟩ := ih _ (hlen ▸ hlt) _ h rfl
          exact ⟨d :: ds, .more hne hd hds⟩

/-! ## The text -/

/-- A text that needs no quoting in a usage. -/
def Plain (text : Bytes) : Prop := ∀ c ∈ text, c ∉ lit "'\\%\n"

/-- A definition that needs none. -/
structure Clean (d : Definition) : Prop where
  name : ∃ c, d.name = [c] ∧ Alnum c
  helpstr : Plain d.helpstr
  address : IsName d.address
  flagvalue : IsWord d.flagvalue
  defaultvalue : IsWord d.defaultvalue
  valuename : Plain d.valuename

/-- Lines, each with its end. -/
def ended (lines : List Bytes) : Bytes := lines.flatMap fun line => line ++ [10]

/-- What `%b` makes of a string, whatever follows. -/
def Expands (code text : Bytes) : Prop :=
  ∀ rest, percentB 0 (code ++ rest) = (percentB 0 rest).after text

theorem Expands.append {a b x y : Bytes} (ha : Expands a x) (hb : Expands b y) :
    Expands (a ++ b) (x ++ y) := by
  intro rest
  rw [List.append_assoc, ha, hb]
  unfold Printed.after
  rw [List.append_assoc]

theorem expands_nil : Expands [] [] := fun _ => rfl

theorem Expands.flatMap {α : Type} {code text : α → Bytes} {xs : List α}
    (h : ∀ x ∈ xs, Expands (code x) (text x)) : Expands (xs.flatMap code) (xs.flatMap text) := by
  induction xs with
  | nil => exact expands_nil
  | cons x xs ih =>
    obtain ⟨hx, hxs⟩ := List.forall_mem_cons.mp h
    rw [List.flatMap_cons, List.flatMap_cons]
    exact hx.append (ih hxs)

theorem expands_plain {text : Bytes} (h : 92 ∉ text) : Expands text text := percentB_append h

theorem Expands.percentB_eq {code text : Bytes} (h : Expands code text) :
    percentB 0 code = { text, stopped := false } := by
  have hwhole := h []
  rw [List.append_nil] at hwhole
  rw [hwhole, percentB, Printed.after, List.append_nil]

theorem expands_escaped {lines : List Bytes} (h : ∀ line ∈ lines, 92 ∉ line) :
    Expands (escaped lines) (ended lines) :=
  .flatMap fun line hline => (expands_plain (h line hline)).append fun _ => rfl

/-- Letters, digits and what else the commands are written with. -/
def Written (text : Bytes) : Prop := ∀ c ∈ text, Alnum c ∨ c ∈ lit " -_./:,+@\"$()=;[]"

theorem Written.append {a b : Bytes} (ha : Written a) (hb : Written b) : Written (a ++ b) :=
  List.forall_mem_append.mpr ⟨ha, hb⟩

theorem Written.notMem {text : Bytes} (h : Written text) {c : UInt8}
    (hc : ¬ (Alnum c ∨ c ∈ lit " -_./:,+@\"$()=;[]")) : c ∉ text := fun hmem => hc (h c hmem)

instance (text : Bytes) : Decidable (Written text) := List.decidableBAll _ text

instance (text : Bytes) : Decidable (Plain text) := List.decidableBAll _ text

theorem IsName.written {name : Bytes} (h : IsName name) : Written name := by
  intro c hc
  rcases h.1 c hc with hlower | hdigit | rfl
  · exact .inl (.inl hlower)
  · exact .inl (.inr (.inl hdigit))
  · exact .inr (by decide)

theorem IsWord.written {word : Bytes} (h : IsWord word) : Written word := fun c hc =>
  (h c hc).imp_right fun hmem => (by decide +kernel :
    ∀ c ∈ lit "-_./:,+@", c ∈ lit " -_./:,+@\"$()=;[]") c hmem

theorem Plain.append {a b : Bytes} (ha : Plain a) (hb : Plain b) : Plain (a ++ b) :=
  List.forall_mem_append.mpr ⟨ha, hb⟩

theorem Written.plain {text : Bytes} (h : Written text) : Plain text := by
  intro c hc hout
  have hnot : ∀ c ∈ lit "'\\%\n", ¬ (Alnum c ∨ c ∈ lit " -_./:,+@\"$()=;[]") := by decide +kernel
  exact hnot c hout (h c hc)

variable {d : Definition} {ds : List Definition}

theorem Clean.written_name (h : Clean d) : Written d.name := by
  obtain ⟨c, hname, hc⟩ := h.name
  rw [hname]
  exact List.forall_mem_singleton.mpr (.inl hc)

theorem Clean.word_flagOf (h : Clean d) : IsWord (flagOf d) := by
  unfold flagOf
  split
  · exact (by decide : IsWord (lit "1"))
  · exact h.flagvalue

theorem Clean.written_armLine (h : Clean d) : Written (armLine d) := by
  have hvalue : Written (if d.valuename = [] then flagOf d else lit "\"$OPTARG\"") := by
    split
    · exact h.word_flagOf.written
    · decide
  exact (((((by decide : Written (lit "    ")).append h.written_name).append
    (by decide)).append h.address.written).append (by decide)).append hvalue
      |>.append (by decide)

theorem Clean.written_varLine (h : Clean d) : Written (varLine d) :=
  (h.address.written.append (by decide)).append h.defaultvalue.written

theorem Clean.written_checkLines (h : Clean d) : ∀ line ∈ checkLines d, Written line := by
  unfold checkLines
  split
  · intro line hline
    rcases List.mem_cons.mp hline with rfl | hline
    · exact ((by decide : Written (lit "if [ -z \"$")).append h.address.written).append
        (by decide)
    · exact (by decide :
        ∀ line ∈ [lit "  usage; exit 1", lit "fi"], Written line) line hline
  · exact nofun

theorem Clean.plain_usageText (h : Clean d) : Plain (usageText d) := by
  have hvaluename : Plain (if d.valuename = [] then [] else lit " " ++ d.valuename) := by
    split
    · exact nofun
    · exact (by decide : Plain (lit " ")).append h.valuename
  have hdefault : Plain (if d.defaultvalue = [] then []
      else lit " (defaults to " ++ d.defaultvalue ++ lit ")") := by
    split
    · exact nofun
    · exact ((by decide : Plain (lit " (defaults to ")).append
        h.defaultvalue.written.plain).append (by decide)
  have hrequired : Plain (if d.required then lit ", required" else []) := by
    split
    · decide
    · exact nofun
  exact ((((by decide : Plain (lit "  -")).append h.written_name.plain).append
    hvaluename).append (by decide)).append ((h.helpstr.append hdefault).append hrequired)

/-! ## The header -/

/-- The line of a description, if there is one. -/
def descriptionLines (description : Bytes) : List Bytes :=
  if description = [] then [] else [lit "  printf '  " ++ description ++ lit "\\n'"]

/-- The options of all definitions. -/
def optstring (ds : List Definition) : Bytes := ds.flatMap optionOf ++ lit "h?"

/-- The lines in front of the function. -/
def topLines (args : List Bytes) : List Bytes :=
  [Bashscriptgen.shebang, lit "set -o nounset -o errexit -o pipefail", [],
    lit "# Generated with holgac/bashscriptgen", lit "# Arguments: " ++ joined 32 args, []]

/-- The function. -/
def usageLines (description : Bytes) (ds : List Definition) : List Bytes :=
  lit "usage () \x7b" :: lit "  printf \"%s [OPTIONS] [--]\\n\" \"$0\"" ::
    (descriptionLines description ++
      lit "  printf \"Options:\\n\"" ::
      lit "  printf \"  -h: Display this help and exit\\n\"" ::
      (ds.map usageLine ++ [lit "\x7d", []]))

/-- The loop. -/
def loopLines (ds : List Definition) : List Bytes :=
  (lit "while getopts \"" ++ optstring ds ++ lit "\" OPT; do") :: lit "  case \"$OPT\" in" ::
    (ds.map armLine ++ [lit "    h|?) usage; exit 0;;", lit "    *) usage; exit 1;;", lit "  esac",
      lit "done"])

/-- All lines of the header. -/
def headerLines (args : List Bytes) (description : Bytes) (ds : List Definition) : List Bytes :=
  topLines args ++ usageLines description ds ++ ds.map varLine ++ [] :: loopLines ds
    ++ ds.flatMap checkLines ++ [[], lit "# bashscriptgen end (do not remove this)"]

/-- What the arguments are read as. -/
structure Reads (args : List Bytes) (description : Bytes) (ds : List Definition) : Prop where
  command : ∃ updatefile, Bashscriptgen.command {} (getopts (lit "d:u:h?") args).1
    = .ok { description, updatefile }
  defines : Defines (getopts (lit "d:u:h?") args).2 ds

/-- The fixed texts, as lines. -/
theorem fixed_eq : Bashscriptgen.fixed = [
    ended [Bashscriptgen.shebang, lit "set -o nounset -o errexit -o pipefail", [],
      lit "# Generated with holgac/bashscriptgen"] ++ lit "# Arguments: ",
    10 :: ended [[], lit "usage () \x7b", lit "  printf \"%s [OPTIONS] [--]\\n\" \"$0\""],
    ended [lit "  printf \"Options:\\n\"",
      lit "  printf \"  -h: Display this help and exit\\n\""],
    ended [lit "\x7d", []],
    10 :: lit "while getopts \"",
    lit "\" OPT; do" ++ 10 :: ended [lit "  case \"$OPT\" in"],
    ended [lit "    h|?) usage; exit 0;;", lit "    *) usage; exit 1;;", lit "  esac", lit "done"]] := by
  decide +kernel

theorem ending_eq : lit "\n# " ++ Bashscriptgen.markerEnd
    = ended [[], lit "# bashscriptgen end (do not remove this)"] := by
  decide

variable {args : List Bytes} {description : Bytes} {p : Parsed} {exists_ : Bytes → Bool}

/-- What `parse` makes of the arguments, in terms of what they are read as. -/
theorem Reads.parsed (h : Reads args description ds)
    (hparse : Bashscriptgen.parse exists_ args = .ok p) :
    ∃ g, ds.foldlM Collected.add {} = .ok g
      ∧ p.descriptionStr = (if description = [] then []
        else lit "  printf '  " ++ description ++ lit "\\\\n'\\n")
      ∧ p.collected = { g with getoptsarg := g.getoptsarg ++ lit "h?" } := by
  obtain ⟨updatefile, hcommand⟩ := h.command
  obtain ⟨opts, rest, hgetopts⟩ : ∃ opts rest,
    getopts (lit "d:u:h?") args = (opts, rest) := ⟨_, _, rfl⟩
  have hdefines := h.defines
  rw [hgetopts] at hcommand hdefines
  unfold Bashscriptgen.parse at hparse
  rw [hgetopts] at hparse
  dsimp only at hparse hcommand hdefines
  rw [hcommand] at hparse
  dsimp only [Except.bind] at hparse
  split at hparse
  · cases hparse
  · cases hdefinitions : definitions {} rest with
    | error refusal =>
      rw [hdefinitions] at hparse
      cases hparse
    | ok g =>
      rw [hdefinitions] at hparse
      rw [← Except.ok.inj hparse]
      exact ⟨g, hdefines.foldlM hdefinitions, rfl, rfl⟩

/-- No quoting is needed anywhere. -/
structure Simple (args : List Bytes) (description : Bytes) (ds : List Definition) : Prop where
  args : ∀ arg ∈ args, 10 ∉ arg
  description : Plain description
  clean : ∀ d ∈ ds, Clean d

theorem expands_line {text : Bytes} (h : Plain text) :
    Expands (lit "  printf '" ++ text ++ lit "\\\\n'\\n")
      (lit "  printf '" ++ text ++ lit "\\n'" ++ [10]) := by
  have hslash : 92 ∉ text := fun hmem => h 92 hmem (by decide)
  rw [List.append_assoc _ (lit "\\n'")]
  exact ((expands_plain (by decide)).append (expands_plain hslash)).append fun _ => rfl

theorem Simple.generate_text (hsimple : Simple args description ds)
    (hreads : Reads args description ds)
    (hparse : Bashscriptgen.parse exists_ args = .ok p) :
    (generate args p).text = ended (headerLines args description ds) := by
  obtain ⟨g, hfold, hdescription, hcollected⟩ := hreads.parsed hparse
  obtain ⟨hg, -⟩ := collects hfold
  have hslash {text : Bytes} (h : Written text) : 92 ∉ text := h.notMem (by decide)
  have hclean (d) (hd : d ∈ ds) := hsimple.clean d hd
  have husage : Expands g.usageStr (ended (ds.map usageLine)) := by
    rw [hg.usageStr, ended, List.flatMap_map]
    exact .flatMap fun d hd => expands_line (hclean d hd).plain_usageText
  have harms : Expands g.optsactions (ended (ds.map armLine)) := by
    rw [hg.optsactions]
    exact expands_escaped (List.forall_mem_map.mpr fun d hd => hslash (hclean d hd).written_armLine)
  have hvars : Expands g.vardefs (ended (ds.map varLine)) := by
    rw [hg.vardefs]
    exact expands_escaped (List.forall_mem_map.mpr fun d hd => hslash (hclean d hd).written_varLine)
  have hchecks : Expands g.varchecks (ended (ds.flatMap checkLines)) := by
    rw [hg.varchecks]
    refine expands_escaped fun line hline => ?_
    obtain ⟨d, hd, hline⟩ := List.mem_flatMap.mp hline
    exact hslash ((hclean d hd).written_checkLines line hline)
  have hfirst : Expands p.descriptionStr (ended (descriptionLines description)) := by
    rw [hdescription, descriptionLines]
    split
    · exact expands_nil
    · rw [ended, List.flatMap_singleton]
      exact expands_line ((by decide : Plain (lit "  ")).append hsimple.description)
  have htexts : p.texts args = [{ text := joined 32 args, stopped := false },
      { text := ended (descriptionLines description), stopped := false },
      { text := ended (ds.map usageLine), stopped := false },
      { text := ended (ds.map varLine), stopped := false },
      { text := optstring ds, stopped := false },
      { text := ended (ds.map armLine), stopped := false },
      { text := ended (ds.flatMap checkLines), stopped := false }] := by
    unfold Parsed.texts
    rw [hfirst.percentB_eq, hcollected]
    dsimp only
    rw [husage.percentB_eq, hvars.percentB_eq, harms.percentB_eq, hchecks.percentB_eq,
      hg.getoptsarg]
    rfl
  rw [Bashscriptgen.generate_eq, Parsed.parts, htexts, fixed_eq, ending_eq]
  simp [Bashscriptgen.written, headerLines, topLines, usageLines, loopLines, ended]

/-! ## Reading the lines -/

theorem between_append (before text behind : Bytes) :
    between before behind (before ++ text ++ behind) = some text := by
  have hdrop : (before ++ text ++ behind).drop before.length = text ++ behind := by
    rw [List.append_assoc, List.drop_left]
  have hlength : (before ++ text ++ behind).length - before.length - behind.length
      = text.length := by
    simp only [List.length_append]
    omega
  rw [between, hdrop, hlength, List.take_left]
  exact if_pos ⟨⟨text ++ behind, (List.append_assoc _ _ _).symm⟩, List.suffix_append _ _⟩

/-- The first character is another one. -/
theorem between_head {before behind text : Bytes} (hne : before ≠ [])
    (h : before.head? ≠ text.head?) : between before behind text = none := by
  refine if_neg fun ⟨⟨rest, hrest⟩, _⟩ => h ?_
  rw [← hrest, List.head?_append_of_ne_nil _ hne]

/-- A character is not there. -/
theorem between_notMem {before behind text : Bytes} {c : UInt8} (hc : c ∈ before)
    (h : c ∉ text) : between before behind text = none :=
  if_neg fun ⟨hbefore, _⟩ => h (hbefore.subset hc)

theorem cut_append {c : UInt8} {before : Bytes} (h : c ∉ before) (behind : Bytes) :
    cut c (before ++ c :: behind) = some (before, behind) := by
  have hbefore : ∀ b ∈ before, (b != c) = true := fun b hb =>
    bne_iff_ne.mpr fun heq => h (heq ▸ hb)
  unfold cut
  rw [List.dropWhile_append_of_pos hbefore, List.takeWhile_append_of_pos hbefore,
    List.dropWhile_cons_of_neg (by simp), List.takeWhile_cons_of_neg (by simp), List.append_nil]

theorem readAssign_name {name : Bytes} (h : IsName name) (value : Bytes) :
    readAssign (name ++ lit "=" ++ value) = some (name, value) := by
  have hname : 61 ∉ name := fun hmem => by
    have := h.1 61 hmem
    revert this
    decide
  rw [readAssign, List.append_assoc]
  have hcut : cut 61 (name ++ (lit "=" ++ value)) = some (name, value) := cut_append hname value
  rw [hcut]
  exact if_pos h

theorem readSay_text {text : Bytes} (h : Plain text) (hhead : text.head? ≠ some 45) :
    readSay (lit "  printf '" ++ text ++ lit "\\n'") = some (.text text) := by
  have hself : lit "  printf '" ++ text ++ lit "\\n'"
      ≠ lit "  printf \"%s [OPTIONS] [--]\\n\" \"$0\"" := by
    intro heq
    have htake := congrArg (fun line : Bytes => (line.drop 9).head?) heq
    revert htake
    exact (by decide : (some 39 : Option UInt8) ≠ some 34)
  have htext : IsText (lit "'\\%") text := by
    refine ⟨fun c hc hout => h c hc ?_, hhead⟩
    exact (by decide +kernel : ∀ c ∈ lit "'\\%", c ∈ lit "'\\%\n") c hout
  rw [readSay, if_neg hself, between_append]
  exact if_pos htext

/-- The arm that is read of a definition. -/
def armOf (d : Definition) : Arm where
  patterns := [d.name]
  action := if d.valuename = [] then .assign d.address (flagOf d) else .optarg d.address

theorem Clean.readAction (h : Clean d) :
    Generated.readAction (d.address ++ lit "="
      ++ if d.valuename = [] then flagOf d else lit "\"$OPTARG\"") = some (armOf d).action := by
  have husage {text : Bytes} (htext : 61 ∉ text) (value : Bytes) :
      d.address ++ lit "=" ++ value ≠ text := by
    rintro rfl
    exact htext (List.mem_append_left _ (List.mem_append_right _ List.mem_cons_self))
  rw [Generated.readAction, if_neg (husage (by decide) _), if_neg (husage (by decide) _),
    readAssign_name h.address]
  unfold armOf
  dsimp only [Option.bind_some]
  by_cases hvalue : d.valuename = []
  · rw [if_pos hvalue, if_pos hvalue]
    have hne : flagOf d ≠ lit "\"$OPTARG\"" := by
      intro heq
      have hword := h.word_flagOf
      rw [heq] at hword
      revert hword
      decide
    rw [if_neg hne, if_pos h.word_flagOf]
  · rw [if_neg hvalue, if_neg hvalue, if_pos rfl]

theorem Clean.readArm (h : Clean d) : Generated.readArm (armLine d) = some (armOf d) := by
  obtain ⟨c, hname, hc⟩ := h.name
  have hclosing : 41 ∉ d.name := by
    rw [hname, List.mem_singleton]
    rintro rfl
    revert hc
    decide
  have hbar : 124 ∉ d.name := by
    rw [hname, List.mem_singleton]
    rintro rfl
    revert hc
    decide
  have hpattern : IsPattern d.name := by
    rw [hname]
    exact ⟨rfl, List.forall_mem_singleton.mpr (.inl hc)⟩
  have harm : armLine d = lit "    " ++ (d.name ++ 41 :: (lit " " ++ (d.address ++ lit "="
      ++ if d.valuename = [] then flagOf d else lit "\"$OPTARG\"") ++ [])) ++ lit ";;" := by
    have hparen (text : Bytes) : lit ") " ++ text = 41 :: (lit " " ++ text) := rfl
    simp only [armLine, List.append_assoc, hparen, List.cons_append, List.nil_append]
  rw [Generated.readArm, harm, between_append]
  dsimp only [Option.bind_some]
  rw [cut_append hclosing]
  dsimp only [Option.bind_some]
  rw [between_append]
  dsimp only [Option.bind_some]
  rw [List.splitOn_eq_singleton hbar, List.all_cons, List.all_nil, Bool.and_true,
    if_pos (decide_eq_true hpattern), h.readAction]
  rfl

/-- The command that is read of a definition's default. -/
def assignOf (d : Definition) : Command := .assign d.address d.defaultvalue

theorem IsName.notMem {name : Bytes} (h : IsName name) {c : UInt8}
    (hc : ¬ (Lower c ∨ Digit c ∨ c = 95)) : c ∉ name := fun hmem => hc (h.1 c hmem)

theorem IsWord.notMem {word : Bytes} (h : IsWord word) {c : UInt8}
    (hc : ¬ (Alnum c ∨ c ∈ lit "-_./:,+@")) : c ∉ word := fun hmem => hc (h c hmem)

theorem Clean.topLine_var (h : Clean d) (r : Reader) :
    r.topLine (varLine d) = some (r.push (assignOf d)) := by
  have hspace : 32 ∉ varLine d := by
    simp only [varLine, List.mem_append, not_or]
    exact ⟨⟨h.address.notMem (by decide), by decide⟩, h.defaultvalue.notMem (by decide)⟩
  have hne {text : Bytes} (htext : 32 ∈ text) : varLine d ≠ text := by
    rintro rfl
    exact hspace htext
  have hempty : ¬ (varLine d = [] ∨ (varLine d).head? = some 35) := by
    obtain ⟨c, hc, hlower⟩ := (Option.any_eq_true _ _).mp h.address.2
    replace hlower := of_decide_eq_true hlower
    obtain ⟨cs, hcs⟩ := List.head?_eq_some_iff.mp hc
    have hline : varLine d = c :: (cs ++ lit "=" ++ d.defaultvalue) := by
      rw [varLine, hcs]
      rfl
    rw [hline]
    rintro (hnil | hhead)
    · cases hnil
    · cases hhead
      revert hlower
      decide
  rw [Reader.topLine, if_neg hempty, if_neg (hne (by decide)), if_neg (hne (by decide)),
    between_notMem (by decide) hspace, between_notMem (by decide) hspace]
  dsimp only
  rw [varLine, readAssign_name h.address]
  exact if_pos h.defaultvalue

theorem topLine_check {name : Bytes} (h : IsName name) (r : Reader) :
    r.topLine (lit "if [ -z \"$" ++ name ++ lit "\" ]; then")
      = some { r with mode := .check name } := by
  have hne {text : Bytes} (htext : text.head? ≠ some 105) :
      lit "if [ -z \"$" ++ name ++ lit "\" ]; then" ≠ text := by
    rintro rfl
    exact htext rfl
  have hempty : ¬ (lit "if [ -z \"$" ++ name ++ lit "\" ]; then" = []
      ∨ (lit "if [ -z \"$" ++ name ++ lit "\" ]; then").head? = some 35) := by
    rintro (hnil | hhead)
    · cases hnil
    · cases hhead
  rw [Reader.topLine, if_neg hempty, if_neg (hne (by decide)), if_neg (hne (by decide)),
    between_head (by decide) (by rintro ⟨⟩), between_append]
  exact if_pos h

theorem topLine_loop {options : Bytes} (h : IsOptstring options) (r : Reader) :
    r.topLine (lit "while getopts \"" ++ options ++ lit "\" OPT; do")
      = some { r with mode := .loop options } := by
  have hne {text : Bytes} (htext : text.head? ≠ some 119) :
      lit "while getopts \"" ++ options ++ lit "\" OPT; do" ≠ text := by
    rintro rfl
    exact htext rfl
  have hempty : ¬ (lit "while getopts \"" ++ options ++ lit "\" OPT; do" = []
      ∨ (lit "while getopts \"" ++ options ++ lit "\" OPT; do").head? = some 35) := by
    rintro (hnil | hhead)
    · cases hnil
    · cases hhead
  rw [Reader.topLine, if_neg hempty, if_neg (hne (by decide)), if_neg (hne (by decide)),
    between_append]
  exact if_pos h

/-! ## Reading the header -/

/-- Lines take the reader from one state to another. -/
def Gets (r : Reader) (lines : List Bytes) (r' : Reader) : Prop :=
  lines.foldlM Reader.line r = some r'

theorem Gets.nil (r : Reader) : Gets r [] r := rfl

theorem Gets.cons {r r' r'' : Reader} {line : Bytes} {lines : List Bytes}
    (h : r.line line = some r') (hrest : Gets r' lines r'') : Gets r (line :: lines) r'' := by
  rw [Gets, List.foldlM_cons, h]
  exact hrest

theorem Gets.append {r r' r'' : Reader} {lines lines' : List Bytes} (h : Gets r lines r')
    (h' : Gets r' lines' r'') : Gets r (lines ++ lines') r'' := by
  rw [Gets, List.foldlM_append, h]
  exact h'

/-- The lines of one thing after another, each of which adds to what has been read. -/
theorem gets_flatMap {α β : Type} (state : List β → Reader) {lines : α → List Bytes}
    {items : α → List β} {xs : List α}
    (h : ∀ x ∈ xs, ∀ done, Gets (state done) (lines x) (state (done ++ items x)))
    (done : List β) :
    Gets (state done) (xs.flatMap lines) (state (done ++ xs.flatMap items)) := by
  induction xs generalizing done with
  | nil =>
    rw [List.flatMap_nil, List.flatMap_nil, List.append_nil]
    exact .nil _
  | cons x xs ih =>
    obtain ⟨hx, hxs⟩ := List.forall_mem_cons.mp h
    rw [List.flatMap_cons, List.flatMap_cons, ← List.append_assoc]
    exact (hx done).append (ih hxs _)

theorem gets_map {α β : Type} (state : List β → Reader) {line : α → Bytes} {item : α → β}
    {xs : List α} (h : ∀ x ∈ xs, ∀ done, (state done).line (line x) = some (state (done ++ [item x])))
    (done : List β) : Gets (state done) (xs.map line) (state (done ++ xs.map item)) := by
  rw [List.map_eq_flatMap, List.map_eq_flatMap]
  exact gets_flatMap state (fun x hx done => .cons (h x hx done) (.nil _)) done

/-- What the function prints. -/
def sayings (description : Bytes) (ds : List Definition) : List Say :=
  .self :: ((if description = [] then [] else [.text (lit "  " ++ description)])
    ++ .text (lit "Options:") :: .text (lit "  -h: Display this help and exit") ::
    ds.map fun d => .text (usageText d))

/-- The arms of the `case`. -/
def arms (ds : List Definition) : List Arm :=
  ds.map armOf ++ [{ patterns := [lit "h", lit "?"], action := .usage 0 },
    { patterns := [lit "*"], action := .usage 1 }]

/-- The checks. -/
def checks (ds : List Definition) : List Command :=
  ds.flatMap fun d => if d.required then [.check d.address] else []

/-- The program of the definitions. -/
def program (description : Bytes) (ds : List Definition) : List Command :=
  [.set, .usage (sayings description ds)] ++ ds.map assignOf
    ++ .getopts (optstring ds) (arms ds) :: checks ds

theorem line_usage {line : Bytes} (hne : line ≠ lit "\x7d") (commands : List Command)
    (body : List Say) :
    ({ mode := .usage body, commands } : Reader).line line
      = (readSay line).map fun say => { mode := .usage (body ++ [say]), commands } :=
  if_neg hne

theorem line_arms {line : Bytes} (hne : line ≠ lit "  esac") (commands : List Command)
    (options : Bytes) (done : List Arm) :
    ({ mode := .arms options done, commands } : Reader).line line
      = (Generated.readArm line).map fun arm => { mode := .arms options (done ++ [arm]), commands } :=
  if_neg hne

theorem Clean.line_usage (h : Clean d) (commands : List Command) (body : List Say) :
    ({ mode := .usage body, commands } : Reader).line (usageLine d)
      = some { mode := .usage (body ++ [.text (usageText d)]), commands } := by
  have hne : usageLine d ≠ lit "\x7d" := by rintro ⟨⟩
  rw [Generated.line_usage hne, usageLine, readSay_text h.plain_usageText (by rintro ⟨⟩)]
  rfl

theorem Clean.line_arm (h : Clean d) (commands : List Command) (options : Bytes)
    (done : List Arm) :
    ({ mode := .arms options done, commands } : Reader).line (armLine d)
      = some { mode := .arms options (done ++ [armOf d]), commands } := by
  have hne : armLine d ≠ lit "  esac" := by rintro ⟨⟩
  rw [line_arms hne, h.readArm]
  rfl

theorem Clean.gets_check (h : Clean d) (commands : List Command) :
    Gets { commands } (checkLines d)
      { commands := commands ++ if d.required then [.check d.address] else [] } := by
  unfold checkLines
  split
  · have hrest : Gets { mode := .check d.address, commands } [lit "  usage; exit 1", lit "fi"]
        { commands := commands ++ [.check d.address] } := rfl
    exact .cons (topLine_check h.address _) hrest
  · rw [List.append_nil]
    exact .nil _

theorem Clean.isOptstring (h : ∀ d ∈ ds, Clean d) : IsOptstring (optstring ds) := by
  have hmem : ∀ c ∈ optstring ds, Alnum c ∨ c = 58 ∨ c = 63 := by
    refine List.forall_mem_append.mpr ⟨fun c hc => ?_, by decide +kernel⟩
    obtain ⟨d, hd, hc⟩ := List.mem_flatMap.mp hc
    obtain ⟨b, hname, hb⟩ := (h d hd).name
    rcases List.mem_append.mp hc with hc | hc
    · rw [hname, List.mem_singleton] at hc
      exact .inl (hc ▸ hb)
    · split at hc
      · exact absurd hc List.not_mem_nil
      · exact .inr (.inl (List.mem_singleton.mp hc))
  refine ⟨hmem, ?_⟩
  cases ds with
  | nil => decide
  | cons d ds =>
    obtain ⟨b, hname, hb⟩ := (h d List.mem_cons_self).name
    have hhead : (optstring (d :: ds)).head? = some b := by
      simp [optstring, optionOf, hname]
    rw [hhead]
    rintro ⟨⟩
    revert hb
    decide

/-- The two fixed lines of the function behind its description. -/
def fixedSayings : List (Bytes × Say) :=
  [(lit "  printf \"Options:\\n\"", .text (lit "Options:")),
    (lit "  printf \"  -h: Display this help and exit\\n\"",
      .text (lit "  -h: Display this help and exit"))]

theorem line_fixedSayings (commands : List Command) :
    ∀ say ∈ fixedSayings, ∀ body, ({ mode := .usage body, commands } : Reader).line say.1
      = some { mode := .usage (body ++ [say.2]), commands } := by
  intro say hsay body
  have hread : say.1 ≠ lit "\x7d" ∧ readSay say.1 = some say.2 := by
    rcases List.mem_cons.mp hsay with rfl | hsay
    · exact ⟨by decide, rfl⟩
    · rw [List.mem_singleton.mp hsay]
      exact ⟨by decide, rfl⟩
  rw [line_usage hread.1, hread.2]
  rfl

/-- The two arms behind those of the definitions. -/
def fixedArms : List (Bytes × Arm) :=
  [(lit "    h|?) usage; exit 0;;", { patterns := [lit "h", lit "?"], action := .usage 0 }),
    (lit "    *) usage; exit 1;;", { patterns := [lit "*"], action := .usage 1 })]

theorem line_fixedArms (commands : List Command) (options : Bytes) :
    ∀ arm ∈ fixedArms, ∀ done, ({ mode := .arms options done, commands } : Reader).line arm.1
      = some { mode := .arms options (done ++ [arm.2]), commands } := by
  intro arm harm done
  have hread : arm.1 ≠ lit "  esac" ∧ Generated.readArm arm.1 = some arm.2 := by
    rcases List.mem_cons.mp harm with rfl | harm
    · exact ⟨by decide, rfl⟩
    · rw [List.mem_singleton.mp harm]
      exact ⟨by decide, rfl⟩
  rw [line_arms hread.1, hread.2]
  rfl

theorem gets_usage (hsimple : Simple args description ds) :
    Gets { commands := [.set] } (usageLines description ds)
      { commands := [.set, .usage (sayings description ds)] } := by
  let state (body : List Say) : Reader := { mode := .usage body, commands := [.set] }
  have hdescription : Gets (state [.self]) (descriptionLines description)
      (state (.self :: if description = [] then [] else [.text (lit "  " ++ description)])) := by
    unfold descriptionLines
    split
    · exact .nil _
    · have hplain := (by decide : Plain (lit "  ")).append hsimple.description
      have hsay : readSay (lit "  printf '  " ++ description ++ lit "\\n'")
          = some (.text (lit "  " ++ description)) := readSay_text hplain (by rintro ⟨⟩)
      refine .cons ?_ (.nil _)
      rw [line_usage (by rintro ⟨⟩), hsay]
      rfl
  have hdefinitions := gets_map state fun d hd body =>
    (hsimple.clean d hd).line_usage [.set] body
  have hend (body : List Say) : Gets (state body) [lit "\x7d", []]
      { commands := [.set, .usage body] } := rfl
  have hbegin : Gets { commands := [.set] }
      [lit "usage () \x7b", lit "  printf \"%s [OPTIONS] [--]\\n\" \"$0\""]
      (state [.self]) := rfl
  have hfixed := gets_map state (line_fixedSayings [.set])
  have hall := hbegin.append (hdescription.append ((hfixed _).append
    ((hdefinitions _).append (hend _))))
  refine Eq.trans ?_ (hall.trans ?_)
  · rfl
  · simp [sayings, fixedSayings]

theorem gets_loop (hclean : ∀ d ∈ ds, Clean d) (commands : List Command) :
    Gets { commands } (loopLines ds)
      { commands := commands ++ [.getopts (optstring ds) (arms ds)] } := by
  let state (done : List Arm) : Reader := { mode := .arms (optstring ds) done, commands }
  have hcase : ({ mode := .loop (optstring ds), commands } : Reader).line
      (lit "  case \"$OPT\" in") = some (state []) := rfl
  have harms := gets_map state (fun d hd done =>
    (hclean d hd).line_arm commands (optstring ds) done) []
  have hfixed := gets_map state (line_fixedArms commands (optstring ds))
  have hend (done : List Arm) : Gets (state done) [lit "  esac", lit "done"]
      { commands := commands ++ [.getopts (optstring ds) done] } := rfl
  exact .cons (topLine_loop (Clean.isOptstring hclean) _)
    (.cons hcase (harms.append ((hfixed _).append (hend _))))

theorem gets_header (hsimple : Simple args description ds) :
    Gets {} (headerLines args description ds) { commands := program description ds } := by
  have hclean := hsimple.clean
  let state (commands : List Command) : Reader := { commands }
  have htop : Gets {} (topLines args) (state [.set]) :=
    .cons rfl (.cons rfl (.cons rfl (.cons rfl (.cons rfl (.cons rfl (.nil _))))))
  have hvars := gets_map state fun d hd commands => (hclean d hd).topLine_var (state commands)
  have hchecks := gets_flatMap state fun d hd commands => (hclean d hd).gets_check commands
  have hempty (commands : List Command) : (state commands).line [] = some (state commands) := rfl
  have hend (commands : List Command) : Gets (state commands)
      [[], lit "# bashscriptgen end (do not remove this)"] (state commands) := rfl
  have hall := ((((htop.append (gets_usage hsimple)).append (hvars _)).append
    (.cons (hempty _) (gets_loop hclean _))).append (hchecks _)).append (hend _)
  rw [List.append_assoc _ [_] (ds.flatMap _)] at hall
  exact hall

theorem read_ended {lines : List Bytes} (h : ∀ line ∈ lines, 10 ∉ line)
    {commands : List Command} (hgets : Gets {} lines { commands }) :
    read (ended lines) = some commands := by
  have hfold : (Lib.Line.records (ended lines) : List Line).foldlM
      (fun (r : Reader) l => r.line l.val) {} = some { commands } := by
    rw [← List.foldlM_map, ended, Lib.Line.map_records_ended h]
    exact hgets
  rw [read, hfold]
  rfl

/-- No line of a header has a newline in it. -/
theorem Simple.lines (hsimple : Simple args description ds) :
    ∀ line ∈ headerLines args description ds, 10 ∉ line := by
  have hwritten {text : Bytes} (h : Written text) : 10 ∉ text := h.notMem (by decide)
  have hplain {text : Bytes} (h : Plain text) : 10 ∉ text := fun hmem => h 10 hmem (by decide)
  have hjoin {a b : Bytes} (ha : 10 ∉ a) (hb : 10 ∉ b) : 10 ∉ a ++ b := fun hmem =>
    (List.mem_append.mp hmem).elim ha hb
  have htop : ∀ line ∈ topLines args, 10 ∉ line := by
    have hargs : 10 ∉ joined 32 args := fun hmem => Localdb.intercalate_forall
      (List.forall_mem_singleton.mpr (by decide)) (fun arg harg c hc (heq : c = 10) =>
        hsimple.args arg harg (heq ▸ hc)) 10 hmem rfl
    simp only [topLines, List.forall_mem_cons]
    exact ⟨by decide, by decide, by decide, by decide, hjoin (by decide) hargs, by decide, nofun⟩
  have husage : ∀ line ∈ usageLines description ds, 10 ∉ line := by
    have hdescription : ∀ line ∈ descriptionLines description, 10 ∉ line := by
      unfold descriptionLines
      split
      · exact nofun
      · exact List.forall_mem_singleton.mpr
          (hjoin (hjoin (by decide) (hplain hsimple.description)) (by decide))
    have hdefinitions : ∀ line ∈ ds.map usageLine, 10 ∉ line := List.forall_mem_map.mpr
      fun d hd => hjoin (hjoin (by decide) (hplain (hsimple.clean d hd).plain_usageText)) (by decide)
    simp only [usageLines, List.forall_mem_cons, List.forall_mem_append]
    exact ⟨by decide, by decide, hdescription, by decide, by decide, hdefinitions, by decide,
      by decide, nofun⟩
  have hvars : ∀ line ∈ ds.map varLine, 10 ∉ line := List.forall_mem_map.mpr
    fun d hd => hwritten (hsimple.clean d hd).written_varLine
  have hloop : ∀ line ∈ loopLines ds, 10 ∉ line := by
    have hoptstring : 10 ∉ optstring ds := fun hmem => by
      have hten := (Clean.isOptstring hsimple.clean).1 10 hmem
      revert hten
      decide
    have harms : ∀ line ∈ ds.map armLine, 10 ∉ line := List.forall_mem_map.mpr
      fun d hd => hwritten (hsimple.clean d hd).written_armLine
    simp only [loopLines, List.forall_mem_cons, List.forall_mem_append]
    exact ⟨hjoin (hjoin (by decide) hoptstring) (by decide), by decide, harms, by decide,
      by decide, by decide, by decide, nofun⟩
  have hchecks : ∀ line ∈ ds.flatMap checkLines, 10 ∉ line := by
    intro line hline
    obtain ⟨d, hd, hline⟩ := List.mem_flatMap.mp hline
    exact hwritten ((hsimple.clean d hd).written_checkLines line hline)
  simp only [headerLines, List.forall_mem_append, List.forall_mem_cons]
  exact ⟨⟨⟨⟨⟨htop, husage⟩, hvars⟩, by decide, hloop⟩, hchecks⟩, by decide, by decide, nofun⟩

/-- **The text is read back as the program of the definitions.** -/
theorem read_generate (hsimple : Simple args description ds) (hreads : Reads args description ds)
    (hparse : Bashscriptgen.parse exists_ args = .ok p) :
    read (generate args p).text = some (program description ds) := by
  rw [hsimple.generate_text hreads hparse]
  exact read_ended hsimple.lines (gets_header hsimple)

end Holchain.Bin.Generated
