import Mathlib.Data.List.Nodup
import Holchain.Laws.Generated

/-!
# Laws.GeneratedRuns — every command line of a generated script

What the program of a list of definitions makes of a command line is what the definitions say about
it (`exec_program`): the loop keeps the value of every address at the last one that was given for
it, a step for each option. So a command line that spells settings, each in words of its own, ends
with these settings, however they are ordered and whatever their values look like.
-/

namespace Holchain.Bin.Generated

open Bashscriptgen (Collected Definition Parsed generate)
open Holper (Bytes lit)

/-! ## What definitions say -/

/-- What an option gives. -/
def given (d : Definition) (o : Opt) : Bytes := if d.valuename = [] then flagOf d else o.optarg

/-- The last value that is given, or the default. -/
def value (opts : List Opt) (d : Definition) : Bytes :=
  ((opts.filter fun o => d.name = [o.opt]).getLast?.map (given d)).getD d.defaultvalue

/-- The variables, where the addresses have values. -/
def setAll (values : Definition → Bytes) (ds : List Definition) (vars : Bytes → Option Bytes)
    (name : Bytes) : Option Bytes :=
  match ds.find? (·.address = name) with
  | some d => some (values d)
  | none => vars name

/-- What the definitions make of a command line. -/
def meaning (description : Bytes) (ds : List Definition) (self : Bytes) (sh : Shell) :
    Except Stop Shell :=
  let (opts, rest) := Bin.getopts (optstring ds) sh.args
  let usage := printed self (sayings description ds)
  if ∃ o ∈ opts, ∀ d ∈ ds, d.name ≠ [o.opt] then .error (.exits usage 0)
  else if ∃ d ∈ ds, d.required ∧ value opts d = [] then .error (.exits usage 1)
  else .ok {
    strict := true
    usage := some (sayings description ds)
    vars := setAll (value opts) ds sh.vars
    args := rest }

variable {ds : List Definition} {d : Definition} {self : Bytes}

/-! ## Variables -/

theorem find?_address (hnodup : (ds.map (·.address)).Nodup) (hd : d ∈ ds) :
    ds.find? (·.address = d.address) = some d := by
  induction ds with
  | nil => exact absurd hd List.not_mem_nil
  | cons d' ds ih =>
    rw [List.map_cons, List.nodup_cons] at hnodup
    rcases List.mem_cons.mp hd with rfl | hd
    · exact List.find?_cons_of_pos (decide_eq_true rfl)
    · have hne : ¬ d'.address = d.address := fun heq =>
        hnodup.1 (heq ▸ List.mem_map_of_mem hd)
      rw [List.find?_cons_of_neg (by rw [decide_eq_false hne]; exact Bool.false_ne_true),
        ih hnodup.2 hd]

theorem setAll_address (hnodup : (ds.map (·.address)).Nodup) (hd : d ∈ ds)
    (values : Definition → Bytes) (vars : Bytes → Option Bytes) :
    setAll values ds vars d.address = some (values d) := by
  rw [setAll, find?_address hnodup hd]

theorem setAll_cons (values : Definition → Bytes) (d : Definition) (ds : List Definition)
    (vars : Bytes → Option Bytes) (name : Bytes) :
    setAll values (d :: ds) vars name
      = if d.address = name then some (values d) else setAll values ds vars name := by
  by_cases hname : d.address = name
  · simp [setAll, hname]
  · simp [setAll, hname]

theorem setAll_other {name : Bytes} (h : ∀ d ∈ ds, d.address ≠ name)
    (values : Definition → Bytes) (vars : Bytes → Option Bytes) :
    setAll values ds vars name = vars name := by
  have hfind : ds.find? (·.address = name) = none :=
    List.find?_eq_none.mpr fun d hd => by rw [decide_eq_false (h d hd)]; exact Bool.false_ne_true
  rw [setAll, hfind]

/-- Another value for one address. -/
theorem update_setAll (hnodup : (ds.map (·.address)).Nodup) (hd : d ∈ ds)
    {values values' : Definition → Bytes} (vars : Bytes → Option Bytes)
    (hsame : ∀ d' ∈ ds, d'.address ≠ d.address → values' d' = values d') :
    Function.update (setAll values ds vars) d.address (some (values' d))
      = setAll values' ds vars := by
  funext name
  by_cases hname : name = d.address
  · subst hname
    rw [Function.update_self, setAll_address hnodup hd]
  · rw [Function.update_of_ne hname]
    by_cases hmem : ∃ d' ∈ ds, d'.address = name
    · obtain ⟨d', hd', rfl⟩ := hmem
      rw [setAll_address hnodup hd', setAll_address hnodup hd', hsame d' hd' hname]
    · have hother : ∀ d' ∈ ds, d'.address ≠ name := fun d' hd' heq => hmem ⟨d', hd', heq⟩
      rw [setAll_other hother, setAll_other hother]

/-- The defaults are assigned one after the other. -/
theorem assign_defaults (hnodup : (ds.map (·.address)).Nodup) (sh : Shell) :
    exec self (ds.map assignOf) sh = .ok { sh with vars := setAll (·.defaultvalue) ds sh.vars } := by
  induction ds generalizing sh with
  | nil => rfl
  | cons d ds ih =>
    rw [List.map_cons, List.nodup_cons] at hnodup
    rw [List.map_cons, exec_cons]
    refine (ih hnodup.2 (sh.assign d.address d.defaultvalue)).trans ?_
    refine congrArg (fun vars => Except.ok { sh with vars }) (funext fun name => ?_)
    rw [setAll_cons]
    split
    · next hname =>
      subst hname
      have hother : ∀ d' ∈ ds, d'.address ≠ d.address := fun d' hd' heq =>
        hnodup.1 (heq ▸ List.mem_map_of_mem hd')
      rw [setAll_other hother]
      exact Function.update_self _ _ _
    · next hname =>
      rw [setAll, setAll]
      split
      · rfl
      · exact Function.update_of_ne (Ne.symm hname) _ _

/-! ## Options -/

/-- What is known of the definitions of a header. -/
structure Proper (ds : List Definition) : Prop extends Distinct ds where
  clean : ∀ d ∈ ds, Clean d

theorem names_inj (h : Proper ds) {d d' : Definition} (hd : d ∈ ds) (hd' : d' ∈ ds)
    (hname : d.name = d'.name) : d = d' :=
  List.inj_on_of_nodup_map h.names hd hd' hname

/-- The arm of a definition is for its option alone. -/
theorem arm_matches (h : Clean d) (c : UInt8) :
    ((armOf d).patterns.any fun pattern => Matches c pattern) = true ↔ d.name = [c] := by
  obtain ⟨b, hb, halnum⟩ := h.name
  simp only [armOf, List.any_cons, List.any_nil, Bool.or_false, decide_eq_true_eq]
  unfold Matches
  refine ⟨?_, fun heq => .inr (.inr heq)⟩
  rintro (heq | heq | heq)
  · rw [hb] at heq
    cases heq
    exact absurd halnum (by decide)
  · rw [hb] at heq
    cases heq
    exact absurd halnum (by decide)
  · exact heq

/-- It is the first one for it. -/
theorem find?_arm (h : Proper ds) (hd : d ∈ ds) {o : Opt} (hname : d.name = [o.opt]) :
    (arms ds).find? (fun arm => arm.patterns.any fun pattern => Matches o.opt pattern)
      = some (armOf d) := by
  have hmatch := (arm_matches (h.clean d hd) o.opt).mpr hname
  obtain ⟨before, behind, rfl⟩ := List.append_of_mem hd
  have hbefore : ∀ arm ∈ before.map armOf,
      ¬ (arm.patterns.any fun pattern => Matches o.opt pattern) = true := by
    refine List.forall_mem_map.mpr fun d' hd' hmatch' => ?_
    have hmem : d' ∈ before ++ d :: behind := List.mem_append_left _ hd'
    have hname' := (arm_matches (h.clean d' hmem) o.opt).mp hmatch'
    have hnodup := h.names
    rw [List.map_append, List.map_cons] at hnodup
    exact (List.nodup_append.mp hnodup).2.2 _ (List.mem_map_of_mem hd') _ List.mem_cons_self
      (hname'.trans hname.symm)
  unfold arms
  rw [List.map_append, List.append_assoc, List.find?_append,
    List.find?_eq_none.mpr hbefore, Option.none_or, List.map_cons, List.cons_append, List.find?_cons]
  simp only [hmatch]

/-- Every other option ends in the usage. -/
theorem find?_arm_none (h : Proper ds) {o : Opt} (hnone : ∀ d ∈ ds, d.name ≠ [o.opt]) :
    (arms ds).find? (fun arm => arm.patterns.any fun pattern => Matches o.opt pattern)
      = some { patterns := [lit "h", lit "?"], action := .usage 0 } := by
  have hdefined : ∀ arm ∈ ds.map armOf,
      ¬ (arm.patterns.any fun pattern => Matches o.opt pattern) = true :=
    List.forall_mem_map.mpr fun d hd hmatch =>
      hnone d hd ((arm_matches (h.clean d hd) o.opt).mp hmatch)
  have hany : ([lit "h", lit "?"].any fun pattern => Matches o.opt pattern) = true :=
    List.any_eq_true.mpr ⟨lit "?", by simp, decide_eq_true (.inl rfl)⟩
  unfold arms
  rw [List.find?_append, List.find?_eq_none.mpr hdefined, Option.none_or, List.find?_cons]
  simp only [hany]

theorem takes_of_mem (hd : d ∈ ds) (hvalue : d.valuename ≠ []) {c : UInt8} (hname : d.name = [c]) :
    [c, 58] <:+: optstring ds := by
  obtain ⟨before, behind, rfl⟩ := List.append_of_mem hd
  have hoption : optionOf d = [c, 58] := by
    rw [optionOf, hname, if_neg hvalue]
    rfl
  rw [optstring, List.flatMap_append, List.flatMap_cons, hoption, List.append_assoc,
    List.append_assoc, ← List.append_assoc]
  exact List.infix_append _ _ _

theorem option_known (h : Proper ds) (hd : d ∈ ds) {o : Opt} (hname : d.name = [o.opt])
    (sh : Shell) :
    sh.option self (optstring ds) (arms ds) o = .ok (sh.assign d.address (given d o)) := by
  rw [Shell.option, find?_arm h hd hname]
  dsimp only [armOf]
  by_cases hvalue : d.valuename = []
  · rw [if_pos hvalue, given, if_pos hvalue]
  · rw [if_neg hvalue, given, if_neg hvalue]
    exact if_pos (takes_of_mem hd hvalue hname)

theorem option_unknown (h : Proper ds) {o : Opt} (hnone : ∀ d ∈ ds, d.name ≠ [o.opt])
    (sh : Shell) :
    sh.option self (optstring ds) (arms ds) o = .error (sh.exit self 0) := by
  rw [Shell.option, find?_arm_none h hnone]

/-- One more option. -/
theorem value_concat (opts : List Opt) (o : Opt) (d : Definition) :
    value (opts ++ [o]) d = if d.name = [o.opt] then given d o else value opts d := by
  unfold value
  by_cases hname : d.name = [o.opt]
  · have hfilter : [o].filter (fun o => d.name = [o.opt]) = [o] := by simp [hname]
    rw [if_pos hname, List.filter_append, hfilter, List.getLast?_concat]
    rfl
  · have hfilter : [o].filter (fun o => d.name = [o.opt]) = [] := by simp [hname]
    rw [if_neg hname, List.filter_append, hfilter, List.append_nil]

/-- **The loop keeps the last values**, up to an option that is not defined. -/
theorem options_run (h : Proper ds) (self : Bytes) {sh : Shell} {body : List Say} (hbody : sh.usage = some body)
    (before opts : List Opt) :
    opts.foldlM (Shell.option self (optstring ds) (arms ds))
        { sh with vars := setAll (value before) ds sh.vars }
      = if ∃ o ∈ opts, ∀ d ∈ ds, d.name ≠ [o.opt] then .error (.exits (printed self body) 0)
        else .ok { sh with vars := setAll (value (before ++ opts)) ds sh.vars } := by
  induction opts generalizing before with
  | nil =>
    rw [if_neg (by rintro ⟨o, ho, -⟩; exact absurd ho List.not_mem_nil), List.append_nil]
    rfl
  | cons o opts ih =>
    rw [List.foldlM_cons]
    by_cases hnone : ∀ d ∈ ds, d.name ≠ [o.opt]
    · rw [option_unknown h hnone, if_pos ⟨o, List.mem_cons_self, hnone⟩, Shell.exit]
      dsimp only
      rw [hbody]
      rfl
    · have hknown : ∃ d ∈ ds, d.name = [o.opt] := by
        by_contra hall
        exact hnone fun d hd hname => hall ⟨d, hd, hname⟩
      obtain ⟨d, hd, hname⟩ := hknown
      have hsame : ∀ d' ∈ ds, d'.address ≠ d.address →
          value (before ++ [o]) d' = value before d' := by
        intro d' hd' hne
        rw [value_concat, if_neg]
        intro hname'
        exact hne (congrArg _ (names_inj h hd' hd (hname'.trans hname.symm)))
      have hvars := update_setAll h.addresses hd sh.vars hsame
      rw [value_concat, if_pos hname] at hvars
      have hstep : ({ sh with vars := setAll (value before) ds sh.vars } : Shell).assign d.address
          (given d o) = { sh with vars := setAll (value (before ++ [o])) ds sh.vars } :=
        congrArg (fun vars => { sh with vars }) hvars
      have hiff : (∃ o' ∈ o :: opts, ∀ d ∈ ds, d.name ≠ [o'.opt])
          ↔ ∃ o' ∈ opts, ∀ d ∈ ds, d.name ≠ [o'.opt] := by
        rw [List.exists_mem_cons_iff]
        exact or_iff_right hnone
      rw [option_known h hd hname, hstep, List.append_cons before o opts]
      refine (ih (before ++ [o])).trans ?_
      simp only [hiff]

/-! ## Checks -/

/-- The checks pass where every required value is there. -/
theorem checks_run {sh : Shell} {body : List Say} (hbody : sh.usage = some body)
    {values : Definition → Bytes} (hvars : ∀ d ∈ ds, sh.vars d.address = some (values d)) :
    exec self (checks ds) sh
      = if ∃ d ∈ ds, d.required ∧ values d = [] then .error (.exits (printed self body) 1)
        else .ok sh := by
  induction ds with
  | nil =>
    rw [if_neg (by rintro ⟨d, hd, -⟩; exact absurd hd List.not_mem_nil)]
    rfl
  | cons d ds ih =>
    obtain ⟨hd, hds⟩ := List.forall_mem_cons.mp hvars
    have hcons : exec self (checks (d :: ds)) sh
        = (exec self (if d.required then [.check d.address] else []) sh).bind
          (exec self (checks ds)) := by
      rw [checks, List.flatMap_cons, exec_append]
      rfl
    have hexit : sh.exit self 1 = .exits (printed self body) 1 := by
      rw [Shell.exit, hbody]
    rw [hcons]
    by_cases hfails : d.required ∧ values d = []
    · rw [if_pos hfails.1, if_pos ⟨d, List.mem_cons_self, hfails⟩]
      have hcheck : exec self [.check d.address] sh = .error (sh.exit self 1) := by
        rw [exec_cons, Shell.command, hd]
        dsimp only
        rw [if_pos hfails.2]
        rfl
      rw [hcheck, hexit]
      rfl
    · have hiff : (∃ d' ∈ d :: ds, d'.required ∧ values d' = [])
          ↔ ∃ d' ∈ ds, d'.required ∧ values d' = [] := by
        rw [List.exists_mem_cons_iff]
        exact or_iff_right hfails
      have hcheck : exec self (if d.required then [.check d.address] else []) sh = .ok sh := by
        split
        · next hreq =>
          rw [exec_cons, Shell.command, hd]
          dsimp only
          rw [if_neg fun hnil => hfails ⟨hreq, hnil⟩]
          rfl
        · rfl
      rw [hcheck]
      refine (ih hds).trans ?_
      simp only [hiff]

/-- **The program does what the definitions say.** -/
theorem exec_program (h : Proper ds) (description : Bytes) (self : Bytes) (sh : Shell) :
    exec self (program description ds) sh = meaning description ds self sh := by
  obtain ⟨opts, rest, hgetopts⟩ : ∃ opts rest,
    Bin.getopts (optstring ds) sh.args = (opts, rest) := ⟨_, _, rfl⟩
  let start : Shell := { sh with strict := true, usage := some (sayings description ds) }
  have hbegin : exec self [.set, .usage (sayings description ds)] sh = .ok start := rfl
  have hdefaults : exec self (ds.map assignOf) start
      = .ok { start with vars := setAll (value []) ds start.vars } :=
    assign_defaults h.addresses start
  have hargs : Bin.getopts (optstring ds)
      ({ start with vars := setAll (value []) ds start.vars } : Shell).args = (opts, rest) := hgetopts
  have hrun := options_run h self (rfl : start.usage = some (sayings description ds)) [] opts
  unfold program meaning
  rw [exec_append, exec_append, hbegin]
  dsimp only [Except.bind]
  rw [hdefaults]
  dsimp only
  rw [exec_cons, command_getopts self hargs, hrun, hgetopts]
  dsimp only
  by_cases hunknown : ∃ o ∈ opts, ∀ d ∈ ds, d.name ≠ [o.opt]
  · rw [if_pos hunknown, if_pos hunknown]
    rfl
  · rw [if_neg hunknown, if_neg hunknown]
    refine (checks_run rfl fun d hd => setAll_address h.addresses hd (value opts) sh.vars).trans ?_
    rfl

/-! ## The script -/

variable {args : List Bytes} {description : Bytes} {p : Parsed} {exists_ : Bytes → Bool}

theorem Reads.proper (hreads : Reads args description ds)
    (hsimple : Simple args description ds) (hparse : Bashscriptgen.parse exists_ args = .ok p) :
    Proper ds := by
  obtain ⟨g, hfold, -⟩ := hreads.parsed hparse
  obtain ⟨hcollects, hoptions, haddresses, hhelp⟩ := collects hfold
  have hnames := hoptions List.nodup_nil
  have haddrs := haddresses List.nodup_nil
  rw [hcollects.options, List.nodup_append] at hnames
  rw [hcollects.addresses, List.nodup_append] at haddrs
  exact {
    names := List.nodup_reverse.mp hnames.1
    addresses := List.nodup_reverse.mp haddrs.1
    help := hhelp
    clean := hsimple.clean }

/-- **A generated script does what its definitions say**, with every command line. Where no text in
the definitions needs quoting, the header that is written for them runs, and ends in the usage for an
option that is not defined (with 0) or for a required value that is empty (with 1); otherwise each
address has its last value or its default, and the operands are left. -/
theorem generated_means (hreads : Reads args description ds)
    (hsimple : Simple args description ds) (hparse : Bashscriptgen.parse exists_ args = .ok p)
    (self : Bytes) (sh : Shell) :
    run (generate args p).text self sh = some (meaning description ds self sh) := by
  rw [run, read_generate hsimple hreads hparse, Option.map_some,
    exec_program (hreads.proper hsimple hparse)]

/-! ## A script with three options -/

/-- The arguments for the last one, which is required. -/
def targetArgs : List Bytes :=
  [lit "-o", lit "t", lit "-h", lit "the target", lit "-a", lit "target", lit "-r", lit "-v", lit "NAME"]

/-- And for one that has a value by default. -/
def countArgs : List Bytes :=
  [lit "-o", lit "n", lit "-h", lit "how many", lit "-a", lit "count", lit "-d", lit "10", lit "-v",
    lit "N", lit "--"] ++ targetArgs

/-- And for a flag. -/
def allArgs : List Bytes :=
  [lit "-o", lit "a", lit "-h", lit "all of it", lit "-a", lit "all", lit "--"] ++ countArgs

/-- The arguments of `bashscriptgen`. -/
def fewArgs : List Bytes := lit "--" :: allArgs

def allDefinition : Definition where
  name := lit "a"
  helpstr := lit "all of it"
  address := lit "all"

def countDefinition : Definition where
  name := lit "n"
  helpstr := lit "how many"
  address := lit "count"
  defaultvalue := lit "10"
  valuename := lit "N"

def targetDefinition : Definition where
  name := lit "t"
  helpstr := lit "the target"
  address := lit "target"
  required := true
  valuename := lit "NAME"

/-- What they define. -/
def fewDefinitions : List Definition := [allDefinition, countDefinition, targetDefinition]

/-- What is collected of it. -/
def fewParsed : Parsed where
  updatefile := []
  descriptionStr := []
  collected :=
    let g := added (added (added {} allDefinition) countDefinition) targetDefinition
    { g with getoptsarg := g.getoptsarg ++ lit "h?" }

theorem getopts_fewArgs : getopts (lit "d:u:h?") fewArgs = ([], allArgs) := by
  decide

theorem getopts_allArgs : getopts (lit "o:h:a:f:d:rv:") allArgs
    = ([{ opt := 111, optarg := lit "a" }, { opt := 104, optarg := lit "all of it" },
      { opt := 97, optarg := lit "all" }], countArgs) := by decide +kernel

theorem getopts_countArgs : getopts (lit "o:h:a:f:d:rv:") countArgs
    = ([{ opt := 111, optarg := lit "n" }, { opt := 104, optarg := lit "how many" },
      { opt := 97, optarg := lit "count" }, { opt := 100, optarg := lit "10" },
      { opt := 118, optarg := lit "N" }], targetArgs) := by decide +kernel

theorem getopts_targetArgs : getopts (lit "o:h:a:f:d:rv:") targetArgs
    = ([{ opt := 111, optarg := lit "t" }, { opt := 104, optarg := lit "the target" },
      { opt := 97, optarg := lit "target" }, { opt := 114, optarg := [] },
      { opt := 118, optarg := lit "NAME" }], []) := by decide +kernel

theorem reads_fewArgs : Reads fewArgs [] fewDefinitions := by
  refine ⟨⟨[], ?_⟩, ?_⟩
  · rw [getopts_fewArgs]
    rfl
  · rw [getopts_fewArgs]
    refine .more (by decide) (by rw [getopts_allArgs]; rfl) ?_
    rw [getopts_allArgs]
    refine .more (by decide) (by rw [getopts_countArgs]; rfl) ?_
    rw [getopts_countArgs]
    refine .more (by decide) (by rw [getopts_targetArgs]; rfl) ?_
    rw [getopts_targetArgs]
    exact .done rfl

theorem clean_allDefinition : Clean allDefinition where
  name := ⟨97, rfl, by decide⟩
  helpstr := by decide
  address := by decide
  flagvalue := nofun
  defaultvalue := nofun
  valuename := nofun

theorem clean_countDefinition : Clean countDefinition where
  name := ⟨110, rfl, by decide⟩
  helpstr := by decide
  address := by decide
  flagvalue := nofun
  defaultvalue := by decide
  valuename := by decide

theorem clean_targetDefinition : Clean targetDefinition where
  name := ⟨116, rfl, by decide⟩
  helpstr := by decide
  address := by decide
  flagvalue := nofun
  defaultvalue := nofun
  valuename := by decide

theorem simple_fewArgs : Simple fewArgs [] fewDefinitions where
  args := by decide
  description := nofun
  clean := List.forall_mem_cons.mpr ⟨clean_allDefinition,
    List.forall_mem_cons.mpr ⟨clean_countDefinition,
      List.forall_mem_singleton.mpr clean_targetDefinition⟩⟩

theorem add_allArgs :
    (Bashscriptgen.definition {} (getopts (lit "o:h:a:f:d:rv:") allArgs).1).bind (Collected.add {})
      = .ok (added {} allDefinition) := by
  rw [getopts_allArgs]
  rfl

theorem add_countArgs :
    (Bashscriptgen.definition {} (getopts (lit "o:h:a:f:d:rv:") countArgs).1).bind
        (added {} allDefinition).add
      = .ok (added (added {} allDefinition) countDefinition) := by
  rw [getopts_countArgs]
  rfl

theorem add_targetArgs :
    (Bashscriptgen.definition {} (getopts (lit "o:h:a:f:d:rv:") targetArgs).1).bind
        (added (added {} allDefinition) countDefinition).add
      = .ok (added (added (added {} allDefinition) countDefinition) targetDefinition) := by
  rw [getopts_targetArgs]
  rfl

theorem definitions_allArgs : Bashscriptgen.definitions {} allArgs
    = .ok (added (added (added {} allDefinition) countDefinition) targetDefinition) := by
  rw [Bashscriptgen.definitions_add (by decide) add_allArgs, getopts_allArgs,
    Bashscriptgen.definitions_add (by decide) add_countArgs, getopts_countArgs,
    Bashscriptgen.definitions_add (by decide) add_targetArgs, getopts_targetArgs]
  exact Bashscriptgen.definitions_nil _

theorem parse_fewArgs : Bashscriptgen.parse (fun _ => false) fewArgs = .ok fewParsed := by
  unfold Bashscriptgen.parse
  rw [getopts_fewArgs]
  dsimp only [Bashscriptgen.command, Except.bind]
  rw [if_neg (by simp), definitions_allArgs]
  rfl

/-- `-b` is not defined, and `-n 5` leaves out what is required. -/
theorem generated_means_few :
    run (generate fewArgs fewParsed).text (lit "few") { vars := fun _ => none, args := [lit "-b"] }
        = some (.error (.exits (printed (lit "few") (sayings [] fewDefinitions)) 0))
      ∧ run (generate fewArgs fewParsed).text (lit "few")
          { vars := fun _ => none, args := [lit "-n", lit "5"] }
        = some (.error (.exits (printed (lit "few") (sayings [] fewDefinitions)) 1)) :=
  ⟨generated_means reads_fewArgs simple_fewArgs parse_fewArgs _ _,
    generated_means reads_fewArgs simple_fewArgs parse_fewArgs _ _⟩

/-! ## Settings -/

/-- A setting in words of its own. -/
def words (d : Definition) (arg : Bytes) : List Bytes :=
  if d.valuename = [] then [45 :: d.name] else [45 :: d.name, arg]

/-- What `getopts` reads of it. -/
def optOf (d : Definition) (arg : Bytes) : Opt where
  opt := d.name.headD 0
  optarg := if d.valuename = [] then [] else arg

/-- The last setting of an option, or its default. -/
def lastSetting (settings : List (Definition × Bytes)) (d : Definition) : Bytes :=
  ((settings.filter fun s => s.1.name = d.name).getLast?.map fun s =>
    if d.valuename = [] then flagOf d else s.2).getD d.defaultvalue

/-- In the options of a header only an option with an argument has a colon behind it. -/
theorem valued_of_takes (hclean : ∀ d ∈ ds, Clean d) {c : UInt8} (hc : Alnum c)
    (h : [c, 58] <:+: optstring ds) : ∃ d ∈ ds, d.name = [c] ∧ d.valuename ≠ [] := by
  have hne : c ≠ 58 := by
    rintro rfl
    exact absurd hc (by decide)
  induction ds with
  | nil =>
    have hmem : (58 : UInt8) ∈ optstring [] := h.subset (by simp)
    exact absurd hmem (by decide)
  | cons d ds ih =>
    obtain ⟨hd, hds⟩ := List.forall_mem_cons.mp hclean
    obtain ⟨b, hname, hb⟩ := hd.name
    have hcons : optstring (d :: ds) = b :: ((if d.valuename = [] then [] else [58])
        ++ optstring ds) := by
      rw [optstring, List.flatMap_cons, optionOf, hname]
      simp [optstring]
      rfl
    have hrest (hin : [c, 58] <:+: optstring ds) :
        ∃ d' ∈ d :: ds, d'.name = [c] ∧ d'.valuename ≠ [] := by
      obtain ⟨d', hd', hvalued⟩ := ih hds hin
      exact ⟨d', List.mem_cons_of_mem d hd', hvalued⟩
    rw [hcons, List.infix_cons_iff] at h
    by_cases hvalue : d.valuename = []
    · rw [if_pos hvalue, List.nil_append] at h
      rcases h with hprefix | hin
      · -- a colon would begin the other options
        obtain ⟨-, tail, htail⟩ := List.cons_prefix_cons.mp hprefix
        exact absurd (congrArg List.head? htail.symm) (Clean.isOptstring hds).2
      · exact hrest hin
    · rw [if_neg hvalue, List.singleton_append] at h
      rcases h with hprefix | hin
      · obtain ⟨rfl, -⟩ := List.cons_prefix_cons.mp hprefix
        exact ⟨d, List.mem_cons_self, hname, hvalue⟩
      · rcases List.infix_cons_iff.mp hin with hprefix | hin
        · exact absurd (List.cons_prefix_cons.mp hprefix).1 hne
        · exact hrest hin

theorem spells_words (h : Proper ds) (settings : List (Definition × Bytes))
    (hmem : ∀ s ∈ settings, s.1 ∈ ds) :
    Spells (optstring ds) (settings.flatMap fun s => words s.1 s.2)
      (settings.map fun s => optOf s.1 s.2) := by
  induction settings with
  | nil => exact .nil
  | cons s settings ih =>
    obtain ⟨d, arg⟩ := s
    obtain ⟨hd, hrest⟩ := List.forall_mem_cons.mp hmem
    dsimp only at hd
    obtain ⟨c, hname, hc⟩ := (h.clean d hd).name
    have hcolon : c ≠ 58 := by
      rintro rfl
      exact absurd hc (by decide)
    have hknown : c ≠ 63 := by
      rintro rfl
      exact absurd hc (by decide)
    have hdash : [c] ≠ [45] := by
      rintro ⟨⟩
      exact absurd hc (by decide)
    have hlisted : c ∈ optstring ds := by
      refine List.mem_append_left _ (List.mem_flatMap.mpr ⟨d, hd, List.mem_append_left _ ?_⟩)
      rw [hname]
      exact List.mem_singleton_self c
    rw [List.flatMap_cons, List.map_cons]
    dsimp only [words, optOf]
    rw [hname]
    by_cases hvalue : d.valuename = []
    · rw [if_pos hvalue, if_pos hvalue]
      have hbare : ¬ [c, 58] <:+: optstring ds := by
        intro hin
        obtain ⟨d', hd', hname', hvalue'⟩ := valued_of_takes h.clean hc hin
        exact hvalue' (names_inj h hd' hd (hname'.trans hname.symm) ▸ hvalue)
      exact .word (List.cons_ne_nil _ _) hdash (.flag ⟨hlisted, hcolon, hknown, hbare⟩ .nil)
        (ih hrest)
    · rw [if_neg hvalue, if_neg hvalue]
      exact .separate hdash (.separate ⟨hcolon, hknown, takes_of_mem hd hvalue hname⟩) (ih hrest)

theorem value_settings (h : Proper ds) {settings : List (Definition × Bytes)}
    (hmem : ∀ s ∈ settings, s.1 ∈ ds) (hd : d ∈ ds) :
    value (settings.map fun s => optOf s.1 s.2) d = lastSetting settings d := by
  have hname {s : Definition × Bytes} (hs : s ∈ settings) :
      d.name = [(optOf s.1 s.2).opt] ↔ s.1.name = d.name := by
    obtain ⟨c, hc, -⟩ := (h.clean s.1 (hmem s hs)).name
    rw [optOf, hc]
    exact eq_comm
  have hfilter : (settings.map fun s => optOf s.1 s.2).filter (fun o => d.name = [o.opt])
      = (settings.filter fun s => s.1.name = d.name).map fun s => optOf s.1 s.2 := by
    rw [List.filter_map]
    exact congrArg _ (List.filter_congr fun s hs => decide_eq_decide.mpr (hname hs))
  rw [value, lastSetting, hfilter, List.getLast?_map, Option.map_map]
  refine congrArg (fun last => Option.getD last d.defaultvalue) (Option.map_congr fun s hs => ?_)
  obtain ⟨hs, hsame⟩ := List.mem_filter.mp (List.mem_of_getLast? hs)
  have hd' := names_inj h (hmem s hs) hd (of_decide_eq_true hsame)
  rw [Function.comp_apply, given, optOf, hd']
  split
  · rfl
  · rfl

/-- **Settings come back.** Written in words of their own, in any order and with any values, the
settings of a command line are what the addresses have in the end, the last one of each option; the
arguments behind `--` are left, and no other variable changes. -/
theorem settings_come_back (hreads : Reads args description ds)
    (hsimple : Simple args description ds) (hparse : Bashscriptgen.parse exists_ args = .ok p)
    (self : Bytes) (sh : Shell) (settings : List (Definition × Bytes)) (operands : List Bytes)
    (hmem : ∀ s ∈ settings, s.1 ∈ ds)
    (hrequired : ∀ d ∈ ds, d.required → lastSetting settings d ≠ [])
    (hargs : sh.args = settings.flatMap (fun s => words s.1 s.2) ++ lit "--" :: operands) :
    ∃ sh', run (generate args p).text self sh = some (.ok sh') ∧ sh'.args = operands
      ∧ (∀ d ∈ ds, sh'.vars d.address = some (lastSetting settings d))
      ∧ ∀ name, (∀ d ∈ ds, d.address ≠ name) → sh'.vars name = sh.vars name := by
  have hproper := hreads.proper hsimple hparse
  have hgetopts : Bin.getopts (optstring ds) sh.args
      = (settings.map (fun s => optOf s.1 s.2), operands) := by
    rw [hargs, getopts_spells (spells_words hproper settings hmem), getopts_dashes,
      List.append_nil]
  have hvalue (d) (hd : d ∈ ds) := value_settings hproper hmem hd
  have hknown : ¬ ∃ o ∈ settings.map fun s => optOf s.1 s.2, ∀ d ∈ ds, d.name ≠ [o.opt] := by
    rintro ⟨o, ho, hnone⟩
    obtain ⟨s, hs, rfl⟩ := List.mem_map.mp ho
    obtain ⟨c, hname, -⟩ := (hproper.clean s.1 (hmem s hs)).name
    exact hnone s.1 (hmem s hs) (by rw [optOf, hname]; rfl)
  have hgiven : ¬ ∃ d ∈ ds, d.required
      ∧ value (settings.map fun s => optOf s.1 s.2) d = [] := by
    rintro ⟨d, hd, hreq, hnil⟩
    exact hrequired d hd hreq ((hvalue d hd).symm.trans hnil)
  have hmeaning : ∃ sh', meaning description ds self sh = .ok sh' ∧ sh'.args = operands
      ∧ sh'.vars = setAll (value (settings.map fun s => optOf s.1 s.2)) ds sh.vars := by
    unfold meaning
    rw [hgetopts]
    dsimp only
    rw [if_neg hknown, if_neg hgiven]
    exact ⟨_, rfl, rfl, rfl⟩
  obtain ⟨sh', hsh', hrest, hvars⟩ := hmeaning
  refine ⟨sh', ?_, hrest, fun d hd => ?_, fun name hname => ?_⟩
  · rw [run, read_generate hsimple hreads hparse, Option.map_some, exec_program hproper, hsh']
  · rw [hvars, setAll_address hproper.addresses hd, hvalue d hd]
  · rw [hvars, setAll_other hname]

/-- `-a -t 'the end' -- -a` -/
theorem settings_come_back_few :
    ∃ sh', run (generate fewArgs fewParsed).text (lit "few")
        { vars := fun _ => none, args := [lit "-a", lit "-t", lit "the end", lit "--", lit "-a"] }
        = some (.ok sh')
      ∧ sh'.args = [lit "-a"] ∧ sh'.vars (lit "all") = some (lit "1")
      ∧ sh'.vars (lit "count") = some (lit "10") ∧ sh'.vars (lit "target") = some (lit "the end") := by
  obtain ⟨sh', hrun, hrest, hvars, -⟩ := settings_come_back reads_fewArgs simple_fewArgs
    parse_fewArgs (lit "few")
    { vars := fun _ => none, args := [lit "-a", lit "-t", lit "the end", lit "--", lit "-a"] }
    [(allDefinition, []), (targetDefinition, lit "the end")] [lit "-a"]
    (List.forall_mem_cons.mpr ⟨.head _, List.forall_mem_singleton.mpr (.tail _ (.tail _ (.head _)))⟩)
    (List.forall_mem_cons.mpr ⟨nofun, List.forall_mem_cons.mpr ⟨nofun,
      List.forall_mem_singleton.mpr fun _ => by decide⟩⟩) rfl
  exact ⟨sh', hrun, hrest, hvars allDefinition (.head _), hvars countDefinition (.tail _ (.head _)),
    hvars targetDefinition (.tail _ (.tail _ (.head _)))⟩

end Holchain.Bin.Generated
