import Holchain.Rc.Setup

/-!
# Laws.Setup — what a dry run changes

Every helper tests for a dry run before it writes, but three directories are made without such a
test. So a dry run that deploys leaves the file system alone if and only if it is `Prepared`: each of
the three that is reached is there already, or cannot be made.
-/

namespace Holchain.Rc

open Lib (FsPath Node Fs Script)
open Lib.Script

variable {env : Env} {o : Options}

/-! ## The helpers -/

theorem keeps_echo (line : String) : Keeps State.fs (echo line) () := keeps_modify fun _ => rfl

theorem dry_false (h : o.dryRun = true) : ¬ (!o.dryRun) = true := by
  rw [h]
  exact Bool.false_ne_true

theorem keeps_includeIn (env : Env) (h : o.dryRun = true) (dest : FsPath) (content commentChar : String) :
    Keeps State.fs (includeIn env o dest content commentChar) () := by
  refine keeps_get fun s => keeps_ite (fun _ => keeps_echo _) fun _ => ?_
  rw [if_neg (dry_false h)]
  exact keeps_echo _

theorem keeps_writeTo (h : o.dryRun = true) (dest : FsPath) (content actingUser : String) :
    Keeps State.fs (writeTo env o dest content actingUser) () := by
  refine keeps_get fun s => keeps_ite (fun _ => ?_) fun _ => ?_
  · refine keeps_ite (fun _ => keeps_echo _) fun _ => ?_
    rw [if_pos h]
    exact keeps_echo _
  · rw [if_pos h]
    exact keeps_echo _

theorem keeps_copyWithBackup (h : o.dryRun = true) (dest src : FsPath) :
    Keeps State.fs (copyWithBackup env o dest src) () := by
  refine keeps_get fun s => keeps_ite (fun _ => keeps_echo _) fun _ => ?_
  rw [if_pos h]
  exact keeps_echo _

theorem keeps_downloadTo (env : Env) (h : o.dryRun = true) (target : FsPath) (url : String) :
    Keeps State.fs (downloadTo env o target url) () := by
  refine keeps_get fun s => keeps_ite (fun _ => keeps_echo _) fun _ => ?_
  rw [if_pos h]
  exact keeps_echo _

theorem keeps_brewEach (h : o.dryRun = true) (cur : String) (args : List String) :
    Keeps State.fs (brewEach env o cur args) () := by
  induction args with
  | nil => exact keeps_pure ()
  | cons p args ih =>
    refine keeps_ite (fun _ => (keeps_echo _).bind ih) fun _ => ?_
    rw [if_neg (dry_false h)]
    exact (keeps_echo _).bind ih

/-- `brew list` must not fail. -/
theorem step_brewInstall (h : o.dryRun = true) (args : List String) :
    Step State.fs (fun _ => False) (fun fs => (env.brewList fs).isSome = true)
      (brewInstall env o args) := by
  refine step_get (fun _ _ => False) (fun fs _ => (env.brewList fs).isSome = true) fun s => ?_
  cases hlist : env.brewList s.fs with
  | none =>
    exact (step_throw 1).congr (fun _ => Iff.rfl) fun _ => ⟨fun hsome => (nomatch hsome), False.elim⟩
  | some cur =>
    exact (keeps_brewEach h cur args).step.congr (fun _ => Iff.rfl) fun _ => iff_true_intro rfl

/-- `mktemp` and `dnf list` must not fail. -/
def Lists (env : Env) (args : List String) (fs : Fs) : Prop :=
  (env.mktemp fs).isSome = true ∧ (env.dnfList args fs).isSome = true

theorem step_dnfInstall (env : Env) (h : o.dryRun = true) (args : List String) :
    Step State.fs (fun _ => False) (Lists env args) (dnfInstall env o args) := by
  refine step_get (fun _ _ => False) (fun fs _ => Lists env args fs) fun s => ?_
  have hthrow (hnot : ¬ Lists env args s.fs) : Step State.fs (fun _ => False)
      (fun _ => Lists env args s.fs) (throw 1 : Script State Unit) :=
    (step_throw 1).congr (fun _ => Iff.rfl) fun _ => ⟨hnot, False.elim⟩
  cases htmp : env.mktemp s.fs with
  | none =>
    refine hthrow fun hlists => ?_
    rw [Lists, htmp] at hlists
    exact nomatch hlists.1
  | some tmp =>
    cases hlist : env.dnfList args s.fs with
    | none =>
      refine hthrow fun hlists => ?_
      rw [Lists, hlist] at hlists
      exact nomatch hlists.2
    | some count =>
      have hkeeps : Keeps State.fs (if count = args.length then echo "  All packages already installed"
          else if o.dryRun then echo ("  Would dnf-install " ++ " ".intercalate args)
          else command env (.dnfInstall args)) () := by
        refine keeps_ite (fun _ => keeps_echo _) fun _ => ?_
        rw [if_pos h]
        exact keeps_echo _
      refine hkeeps.step.congr (fun _ => Iff.rfl) fun _ => iff_true_intro ?_
      rw [Lists, htmp, hlist]
      exact ⟨rfl, rfl⟩

/-! ## Directories -/

variable {may : FsPath → Bool} {path : FsPath}

theorem run_tryMkdir (may : FsPath → Bool) (path : FsPath) (s : State) :
    (tryMkdir may path).run.run s = (.ok (Fs.mkdirAll may [] path s.fs).2,
      { s with fs := (Fs.mkdirAll may [] path s.fs).1 }) := rfl

/-- A directory that is made, is there, or ends the script. -/
theorem step_mkdir (may : FsPath → Bool) (path : FsPath) :
    Step State.fs (fun fs => fs.makes may [] path = true) (fun fs => fs.isDirectory path = true)
      (mkdir may path) where
  grows s h := by
    have hlt := Fs.lt_mkdirAll h
    have hfs : ((mkdir may path).final s).fs = (Fs.mkdirAll may [] path s.fs).1 := by
      rw [mkdir, final, run_bind_ok (run_tryMkdir may path s)]
      split
      · rfl
      · rfl
    rw [hfs]
    exact hlt
  kept s h hgoes := by
    have heq := Fs.mkdirAll_eq h
    refine ⟨s, ?_, rfl⟩
    rw [mkdir, run_bind_ok (run_tryMkdir may path s), heq]
    rw [Fs.isDirectory] at hgoes
    rw [if_pos hgoes]
    rfl
  exits s h hgoes := by
    have heq := Fs.mkdirAll_eq h
    refine ⟨1, s, ?_, rfl⟩
    rw [mkdir, run_bind_ok (run_tryMkdir may path s), heq]
    rw [Fs.isDirectory] at hgoes
    rw [if_neg hgoes]
    rfl

/-- `$bundle_path`. -/
def bundlePath (env : Env) : FsPath := env.home ++ [".vim", "bundle"]

/-- A plugin is not downloaded, but the directory of the plugins is made. -/
theorem run_vimPlugin (env : Env) (h : o.dryRun = true) (gitUrl : String) (s : State) :
    ∃ s', (vimPlugin env o gitUrl).run.run s = (.ok false, s')
      ∧ s'.fs = (Fs.mkdirAll env.may [] (bundlePath env) s.fs).1 := by
  have hrest (package : String) : Keeps State.fs (do
      let s ← get
      if s.fs.isDirectory (bundlePath env ++ [package]) then do
        echo ("  vim plugin " ++ package ++ " already exists")
        return false
      else if o.dryRun then do
        echo ("  Would download vim plugin " ++ package)
        return false
      else if !isThere s.fs (bundlePath env ++ [package]) then do
        echo ("  getting vim plugin " ++ package)
        let _ ← attempt env (.gitClone gitUrl (bundlePath env ++ [package]))
        return true
      else do
        echo ("  vim plugin " ++ package ++ " cannot be downloaded")
        return false) false := by
    refine keeps_get fun s => keeps_ite (fun _ => (keeps_echo _).bind (keeps_pure false)) fun _ => ?_
    rw [if_pos h]
    exact (keeps_echo _).bind (keeps_pure false)
  obtain ⟨s', hrun, hfs⟩ := hrest (packageName gitUrl)
    { s with fs := (Fs.mkdirAll env.may [] (bundlePath env) s.fs).1 }
  exact ⟨s', (run_bind_ok (run_tryMkdir env.may (bundlePath env) s)).trans hrun, hfs⟩

/-- What a step does that makes the directory of the plugins and always goes on. -/
theorem step_of_mkdirAll {b : Script State Unit} (h : ∀ s, ∃ s', b.run.run s = (.ok (), s')
    ∧ s'.fs = (Fs.mkdirAll may [] path s.fs).1) :
    Step State.fs (fun fs => fs.makes may [] path = true) (fun _ => True) b where
  grows s hmakes := by
    obtain ⟨s', hrun, hfs⟩ := h s
    rw [final, hrun, hfs]
    exact Fs.lt_mkdirAll hmakes
  kept s hmakes _ := by
    obtain ⟨s', hrun, hfs⟩ := h s
    exact ⟨s', hrun, by rw [hfs, Fs.mkdirAll_eq hmakes]⟩
  exits _ _ hgoes := absurd trivial hgoes

theorem step_plugin (env : Env) (h : o.dryRun = true) (gitUrl : String) :
    Step State.fs (fun fs => fs.makes env.may [] (bundlePath env) = true) (fun _ => True)
      (plugin env o gitUrl) := by
  refine step_of_mkdirAll fun s => ?_
  obtain ⟨s', hrun, hfs⟩ := run_vimPlugin env h gitUrl s
  exact ⟨s', run_bind_ok hrun, hfs⟩

theorem step_compiledPlugin (env : Env) (h : o.dryRun = true) :
    Step State.fs (fun fs => fs.makes env.may [] (bundlePath env) = true) (fun _ => True)
      (compiledPlugin env o) := by
  refine step_of_mkdirAll fun s => ?_
  obtain ⟨s', hrun, hfs⟩ := run_vimPlugin env h "https://github.com/wincent/command-t.git" s
  exact ⟨s', run_bind_ok hrun, hfs⟩

/-! ## The sections -/

theorem keeps_ifThen {c : Bool} {b : Script State Unit} (h : Keeps State.fs b ()) :
    Keeps State.fs (ifThen c b) () := keeps_ite (fun _ => h) fun _ => keeps_pure ()

theorem step_ifThen {c : Bool} {b : Script State Unit} {changes goesOn : Fs → Prop}
    (h : Step State.fs changes goesOn b) : Step State.fs (fun fs => c = true ∧ changes fs)
      (fun fs => c = true → goesOn fs) (ifThen c b) := by
  refine (step_ite (p := c = true) (fun _ => h) fun _ => (keeps_pure ()).step).congr (fun fs => ?_)
    fun fs => ?_
  · exact ⟨.inl, fun hc => hc.resolve_right fun hn => hn.2⟩
  · exact ⟨fun hg => ⟨hg, fun _ => trivial⟩, fun hg => hg.1⟩

theorem keeps_rcFiles (env : Env) (h : o.dryRun = true) : Keeps State.fs (rcFiles env o) () := by
  have hinclude (dest : FsPath) (content commentChar : String) :=
    keeps_includeIn env h dest content commentChar
  exact (keeps_echo _).bind ((hinclude _ _ _).bind ((hinclude _ _ _).bind
    ((hinclude _ _ _).bind (hinclude _ _ _))))

theorem keeps_configFiles (env : Env) (h : o.dryRun = true) : Keeps State.fs (configFiles env o) () := by
  refine (keeps_copyWithBackup h _ _).bind ((keeps_copyWithBackup h _ _).bind ?_)
  refine (keeps_ifThen ((keeps_echo _).bind (keeps_writeTo h _ _ _))).bind ((keeps_echo _).bind ?_)
  rw [if_neg (dry_false h)]
  exact (keeps_echo _).bind (keeps_echo _)

theorem keeps_darwinFiles (env : Env) (h : o.dryRun = true) : Keeps State.fs (darwinFiles env o) () := by
  refine (keeps_includeIn env h _ _ _).bind (keeps_get fun s => keeps_ifThen ?_)
  rw [if_neg (dry_false h)]
  exact keeps_echo _

theorem keeps_linuxFiles (env : Env) (h : o.dryRun = true) : Keeps State.fs (linuxFiles env o) () :=
  (keeps_writeTo h _ _ _).bind ((keeps_writeTo h _ _ _).bind ((keeps_echo _).bind
    ((keeps_writeTo h _ _ _).bind (keeps_echo _))))

/-- The directory of `xorg` has to be made. -/
def MakesXorg (env : Env) (fs : Fs) : Prop :=
  ¬ fs.isDirectory xorgPath = true ∧ fs.makes env.rootMay [] xorgPath = true

theorem step_xorgDir (env : Env) : Step State.fs (MakesXorg env) (fun fs => fs.isDirectory xorgPath = true)
    (xorgDir env) := by
  have hstep (s : State) := step_ifThen (c := !s.fs.isDirectory xorgPath)
    (step_mkdir env.rootMay xorgPath)
  refine (step_get (fun fs fs' => (!fs.isDirectory xorgPath) = true
    ∧ fs'.makes env.rootMay [] xorgPath = true) (fun fs fs' => (!fs.isDirectory xorgPath) = true →
    fs'.isDirectory xorgPath = true) hstep).congr (fun fs => ?_) fun fs => ?_
  · rw [MakesXorg, Bool.not_eq_true, Bool.not_eq_true']
  · rw [Bool.not_eq_true']
    constructor
    · exact fun hdir _ => hdir
    · intro hgoes
      by_contra hnot
      exact hnot (hgoes (Bool.eq_false_iff.mpr hnot))

theorem step_linux (env : Env) (h : o.dryRun = true) : Step State.fs (MakesXorg env)
    (fun fs => fs.isDirectory xorgPath = true ∧ Lists env dnfPackages fs) (linux env o) := by
  have hstep := (step_xorgDir env).seq ((keeps_linuxFiles env h).then (step_dnfInstall env h dnfPackages))
  refine ((keeps_echo _).then hstep).congr (fun fs => ?_) fun fs => Iff.rfl
  exact ⟨.inl, fun hc => hc.resolve_right fun hn => hn.2⟩

theorem step_darwin (env : Env) (h : o.dryRun = true) : Step State.fs (fun _ => False)
    (fun fs => (env.brewList fs).isSome = true) (darwin env o) :=
  (step_brewInstall h brewPackages).thenKeeps (keeps_darwinFiles env h)

theorem step_plugins (env : Env) (h : o.dryRun = true) : Step State.fs
    (fun fs => fs.makes env.may [] (bundlePath env) = true) (fun _ => True) (plugins env o) := by
  have hlast : Keeps State.fs (do
      echo "downloading irssi plugins"
      downloadTo env o (env.home ++ [".irssi", "scripts", "nickcolor.pl"])
        "https://raw.githubusercontent.com/vigith/random/master/irssi/nickcolor.pl") () :=
    (keeps_echo _).bind (keeps_downloadTo env h _ _)
  have hplugins := (step_plugin env h "https://github.com/scrooloose/nerdtree.git").seq
    ((step_plugin env h "https://github.com/theevocater/thrift.vim.git").seq
      ((step_compiledPlugin env h).thenKeeps hlast))
  refine ((keeps_echo _).then ((keeps_downloadTo env h _ _).then hplugins)).congr (fun fs => ?_)
    fun fs => ?_
  · simp only [true_and, or_self]
  · simp only [and_self]

/-! ## The run -/

/-- The section for Linux is run. -/
def WindowManager (env : Env) (serverMode : Bool) : Prop := env.uname = "Linux" ∧ serverMode = false

/-- The plugins are reached. -/
structure ReachesPlugins (env : Env) (serverMode : Bool) (fs : Fs) : Prop where
  config : fs.isDirectory (configPath env) = true
  brew : env.uname = "Darwin" → (env.brewList fs).isSome = true
  xorg : WindowManager env serverMode → fs.isDirectory xorgPath = true
  dnf : WindowManager env serverMode → Lists env dnfPackages fs

/-- A dry run makes none of the three directories: what is reached is there, or cannot be made. -/
structure Prepared (env : Env) (serverMode : Bool) (fs : Fs) : Prop where
  config : ¬ fs.makes env.may [] (configPath env) = true
  xorg : fs.isDirectory (configPath env) = true → WindowManager env serverMode → ¬ MakesXorg env fs
  bundle : ReachesPlugins env serverMode fs → ¬ fs.makes env.may [] (bundlePath env) = true

theorem step_macSection (env : Env) (h : o.dryRun = true) : Step State.fs (fun _ => False)
    (fun fs => env.uname = "Darwin" → (env.brewList fs).isSome = true)
    (ifThen (env.uname = "Darwin") (darwin env o)) := by
  refine (step_ifThen (step_darwin env h)).congr (fun fs => ?_) fun fs => ?_
  · rw [and_false]
  · rw [decide_eq_true_iff]

theorem step_linuxSection (env : Env) (h : o.dryRun = true) :
    Step State.fs (fun fs => WindowManager env o.serverMode ∧ MakesXorg env fs)
      (fun fs => WindowManager env o.serverMode →
        fs.isDirectory xorgPath = true ∧ Lists env dnfPackages fs)
      (ifThen (env.uname = "Linux" && !o.serverMode) (linux env o)) := by
  have hsection : (decide (env.uname = "Linux") && !o.serverMode) = true
      ↔ WindowManager env o.serverMode := by
    rw [WindowManager, Bool.and_eq_true_iff, decide_eq_true_iff, Bool.not_eq_true']
  refine (step_ifThen (step_linux env h)).congr (fun fs => ?_) fun fs => ?_
  · rw [hsection]
  · rw [hsection]

/-- On a Mac there is no section for Linux. -/
theorem not_darwin {serverMode : Bool} (h : WindowManager env serverMode) : env.uname ≠ "Darwin" := by
  rw [h.1]
  decide

/-- What is asked of the steps behind the rc files. -/
theorem prepared_iff (env : Env) (serverMode : Bool) (fs : Fs) : Prepared env serverMode fs ↔
    ¬ (fs.makes env.may [] (configPath env) = true ∨ fs.isDirectory (configPath env) = true
      ∧ (False ∨ (env.uname = "Darwin" → (env.brewList fs).isSome = true)
        ∧ (WindowManager env serverMode ∧ MakesXorg env fs ∨ (WindowManager env serverMode →
            fs.isDirectory xorgPath = true ∧ Lists env dnfPackages fs)
          ∧ fs.makes env.may [] (bundlePath env) = true))) := by
  constructor
  · rintro h (hconfig | ⟨hdir, hfalse | ⟨hbrew, ⟨hwm, hxorg⟩ | ⟨hgoes, hbundle⟩⟩⟩)
    · exact h.config hconfig
    · exact hfalse
    · exact h.xorg hdir hwm hxorg
    · exact h.bundle ⟨hdir, hbrew, fun hwm => (hgoes hwm).1, fun hwm => (hgoes hwm).2⟩ hbundle
  · intro h
    refine ⟨fun hconfig => h (.inl hconfig), fun hdir hwm hxorg => ?_, fun hreach hbundle => ?_⟩
    · exact h (.inr ⟨hdir, .inr ⟨fun hmac => absurd hmac (not_darwin hwm), .inl ⟨hwm, hxorg⟩⟩⟩)
    · have hgoes (hwm : WindowManager env serverMode) := And.intro (hreach.xorg hwm) (hreach.dnf hwm)
      exact h (.inr ⟨hreach.config, .inr ⟨hreach.brew, .inr ⟨hgoes, hbundle⟩⟩⟩)

theorem deploy_final (env : Env) (h : o.dryRun = true) (s : State) :
    ((deploy env o).final s).fs = s.fs ↔ env.hasSudo = false ∨ Prepared env o.serverMode s.fs := by
  have hrest := (keeps_configFiles env h).then
    ((step_macSection env h).seq ((step_linuxSection env h).seq (step_plugins env h)))
  have hall := (step_ifThen (c := !env.hasSudo) (step_throw 127)).seq
    ((keeps_rcFiles env h).then ((step_mkdir env.may (configPath env)).seq hrest))
  refine (hall.final_eq_iff s).trans ?_
  rw [prepared_iff]
  cases env.hasSudo with
  | false =>
    refine ⟨fun _ => .inl rfl, fun _ hchanges => ?_⟩
    obtain ⟨-, hfalse⟩ | ⟨hgoes, -⟩ := hchanges
    · exact hfalse
    · exact hgoes rfl
  | true =>
    constructor
    · exact fun hnot => .inr fun hchanges => hnot (.inr ⟨Bool.false_ne_true, hchanges⟩)
    · intro hprepared hchanges
      have hnot := hprepared.resolve_left Bool.false_ne_true.symm
      exact hnot (hchanges.resolve_left fun hsudo => hsudo.2).2

/-! ## The options -/

/-- An option that ends the script. -/
def Flag.ends : Flag → Bool
  | .h | .other => true
  | .s | .d _ | .r => false

theorem run_getopts_ends (env : Env) {flags : List Flag} (h : flags.any Flag.ends = true)
    (o : Options) (s : State) : ∃ e s', (getopts env flags o).run.run s = (.error e, s') ∧ s'.fs = s.fs := by
  induction flags generalizing o with
  | nil => cases h
  | cons flag flags ih =>
    cases flag with
    | s => exact ih h _
    | d dir => exact ih h _
    | r => exact ih h _
    | h => exact ⟨0, _, rfl, rfl⟩
    | other => exact ⟨1, _, rfl, rfl⟩

theorem run_getopts (env : Env) {flags : List Flag} (h : flags.any Flag.ends = false) (o : Options)
    (s : State) : ∃ o', (getopts env flags o).run.run s = (.ok o', s)
      ∧ o'.serverMode = (o.serverMode || flags.contains .s)
      ∧ o'.dryRun = (o.dryRun || flags.contains .r) := by
  induction flags generalizing o with
  | nil => exact ⟨o, rfl, (Bool.or_false _).symm, (Bool.or_false _).symm⟩
  | cons flag flags ih =>
    cases flag with
    | s | d | r =>
      refine (ih h _).imp fun o' hrest => ⟨hrest.1, ?_, ?_⟩
      · simpa using hrest.2.1
      · simpa using hrest.2.2
    | h | other => cases h

theorem any_ends_iff (flags : List Flag) :
    flags.any Flag.ends = true ↔ .h ∈ flags ∨ .other ∈ flags := by
  rw [List.any_eq_true]
  constructor
  · intro ⟨flag, hmem, hends⟩
    cases flag with
    | h => exact .inl hmem
    | other => exact .inr hmem
    | s | d | r => cases hends
  · intro h
    rcases h with hmem | hmem
    · exact ⟨.h, hmem, rfl⟩
    · exact ⟨.other, hmem, rfl⟩

/-- **A dry run leaves the file system as it was** if and only if the script ends before it deploys
anything, or the directories it makes all the same are there or cannot be made. -/
theorem dry_run_frame (env : Env) {flags : List Flag} (h : .r ∈ flags) (s : State) :
    ((setup env flags).final s).fs = s.fs ↔ (.h ∈ flags ∨ .other ∈ flags) ∨ env.hasSudo = false
      ∨ Prepared env (flags.contains .s) s.fs := by
  rw [← any_ends_iff]
  cases hends : flags.any Flag.ends with
  | true =>
    obtain ⟨e, s', hrun, hfs⟩ := run_getopts_ends env hends
      ⟨false, display (env.home ++ ["develop"]), false⟩ s
    rw [setup, final, run_bind_error hrun]
    exact ⟨fun _ => .inl rfl, fun _ => hfs⟩
  | false =>
    obtain ⟨o, hrun, hserver, hdry⟩ := run_getopts env hends
      ⟨false, display (env.home ++ ["develop"]), false⟩ s
    rw [Bool.false_or] at hserver hdry
    have hdeploy := deploy_final env (hdry.trans (List.contains_iff_mem.mpr h)) s
    rw [setup, final, run_bind_ok hrun, ← hserver]
    exact hdeploy.trans ⟨.inr, fun hframe => hframe.resolve_left Bool.false_ne_true⟩

/-- A home on Linux, where the files of the script are not there yet. -/
def fedora : Env where
  uname := "Linux"
  home := ["home"]
  dir := ["rc"]
  hasSudo := true
  may path := path.head? == some "home"
  rootMay _ := true
  grep _ _ _ := false
  grepText _ _ := false
  cmp _ _ _ := false
  cmpText _ _ _ := false
  mktemp _ := some ["tmp", "tmp.1"]
  brewList _ := none
  dnfList _ _ := some 0
  run _ fs := (fs, true)

/-- Some directories. -/
def directories (paths : List FsPath) : Fs := ⟨fun path => if path ∈ paths then some .dir else none⟩

theorem dry_run_frame_fedora : ∃ fs, ((setup fedora [.r]).final ⟨fs, []⟩).fs = fs := by
  refine ⟨directories [["etc"], ["etc", "X11"], xorgPath, ["home"], ["home", ".config"],
    ["home", ".config", "i3"], ["home", ".vim"], ["home", ".vim", "bundle"]],
    (dry_run_frame fedora (List.mem_singleton.mpr rfl) _).mpr (.inr (.inr ?_))⟩
  exact ⟨by decide, fun _ _ hxorg => absurd hxorg.1 (by decide), fun _ => by decide⟩

/-- In a new home. -/
theorem dry_run_makes :
    ((setup fedora [.r]).final ⟨directories [["home"]], []⟩).fs ≠ directories [["home"]] := by
  intro heq
  have hrun : (getopts fedora [.r] ⟨false, display (fedora.home ++ ["develop"]), false⟩).run.run
      ⟨directories [["home"]], []⟩ = (.ok ⟨false, display (fedora.home ++ ["develop"]), true⟩,
        ⟨directories [["home"]], []⟩) := rfl
  rw [setup, final, run_bind_ok hrun] at heq
  obtain hsudo | hprepared := (deploy_final fedora rfl ⟨directories [["home"]], []⟩).mp heq
  · cases hsudo
  · exact hprepared.config (by decide)

end Holchain.Rc
