import Holchain.Laws.SetupMachine

/-!
# Laws.SetupAgain — deploying a second time

A run that returns has reached its goals, for a later part touches none of the files that the goals
before it are about (`Deploys.bind`). So where the plugins, which it only tries to get, are there as
well, another run changes nothing (`setup_settles`).
-/

namespace Holchain.Rc

open Lib (FsPath Node Fs Script)
open Lib.Script

/-! ## The sections -/

/-- What a part of the script is for: where it returns the goals are reached, and where they and what
else it needs are there it does nothing. -/
structure Deploys (site : Site) (goals needs : List Goal) (written appended : List File)
    (b : Script State Unit) : Prop where
  own : ∀ goal ∈ goals, goal.Own site.env
  touches : Touches site written appended b
  reaches : Reaches State.fs site.sane (All site goals) b
  idle : Idle State.fs (fun fs => All site goals fs ∧ All site needs fs) b

section Sections

variable {site : Site} {o : Options} {goals goals' needs needs' : List Goal}
  {written written' appended appended' : List File} {b b' : Script State Unit}

theorem all_append {fs : Fs} :
    All site (goals ++ goals') fs ↔ All site goals fs ∧ All site goals' fs := by
  rw [All, List.forall_mem_append, and_and_left]
  rfl

theorem all_nil {fs : Fs} : All site [] fs ↔ site.sane fs := and_iff_left (List.forall_mem_nil _)

theorem Touches.mono (h : Touches site written appended b) (hwritten : written ⊆ written')
    (happended : appended ⊆ appended') : Touches site written' appended' b := by
  intro goal hown hapart
  refine h goal hown (List.all_eq_true.mpr fun file hfile => ?_)
  obtain ⟨hnot, hexact⟩ := ne_of_apart hapart hfile
  simp only [Bool.and_eq_true, Bool.not_eq_true', List.contains_eq_mem, decide_eq_false_iff_not,
    Bool.and_eq_false_imp]
  exact ⟨fun hmem => hnot (hwritten hmem), fun heq hmem => hexact heq (happended hmem)⟩

/-- Goals about other files stay reached. -/
theorem Touches.all (h : Touches site written appended b) (hown : ∀ goal ∈ goals, goal.Own site.env)
    (hapart : goals.all (Goal.apart written appended) = true) :
    Preserves State.fs (All site goals) b := fun s a s' hrun ⟨hsane, hgoals⟩ =>
  ⟨h.sane s a s' hrun hsane, fun goal hgoal =>
    (h goal (hown goal hgoal) (List.all_eq_true.mp hapart goal hgoal) s a s' hrun
      ⟨hsane, hgoals goal hgoal⟩).2⟩

/-- **One part behind another**, where the second one leaves the files of the first one's goals
alone. -/
theorem Deploys.bind (h : Deploys site goals needs written appended b)
    (h' : Deploys site goals' needs' written' appended' b')
    (hapart : goals.all (Goal.apart written' appended') = true) :
    Deploys site (goals ++ goals') (needs ++ needs') (written ++ written') (appended ++ appended')
      (b >>= fun _ => b') where
  own := List.forall_mem_append.mpr ⟨h.own, h'.own⟩
  touches :=
    touches_bind (h.touches.mono (List.subset_append_left ..) (List.subset_append_left ..)) fun _ =>
      h'.touches.mono (List.subset_append_right ..) (List.subset_append_right ..)
  reaches := by
    refine Reaches.bind h.reaches ?_
    have hkept : Reaches State.fs (All site goals) (All site goals) b' :=
      (h'.touches.all h.own hapart).reaches
    have hnew : Reaches State.fs (All site goals) (All site goals') b' :=
      h'.reaches.mono (fun _ => And.left) fun _ => id
    exact (hkept.and hnew).mono (fun _ => id) fun _ => all_append.mpr
  idle := by
    refine Idle.bind (h.idle.mono fun fs hall => ?_) (h'.idle.mono fun fs hall => ?_)
    · exact ⟨(all_append.mp hall.1).1, (all_append.mp hall.2).1⟩
    · exact ⟨(all_append.mp hall.1).2, (all_append.mp hall.2).2⟩

/-- What has nothing to do with the files. -/
theorem deploys_keeps (h : Keeps State.fs b ()) : Deploys site [] [] [] [] b where
  own := List.forall_mem_nil _
  touches := touches_keeps h
  reaches := h.preserves.reaches.mono (fun _ => id) fun _ => all_nil.mpr
  idle := h.idle

/-- A line in front. -/
theorem Deploys.echo (h : Deploys site goals needs written appended b) (line : String) :
    Deploys site goals needs written appended (do
      echo line
      b) := (deploys_keeps (keeps_echo line)).bind h rfl

theorem all_when {c : Bool} {fs : Fs} : All site (goals.map (.when c)) fs ↔
    site.sane fs ∧ (c = true → All site goals fs) := by
  unfold All
  rw [List.forall_mem_map]
  constructor
  · intro ⟨hsane, hgoals⟩
    exact ⟨hsane, fun hc => ⟨hsane, fun goal hgoal => hgoals goal hgoal hc⟩⟩
  · intro ⟨hsane, hgoals⟩
    exact ⟨hsane, fun goal hgoal hc => (hgoals hc).2 goal hgoal⟩

/-- A part under a condition. -/
theorem Deploys.ifThen (h : Deploys site goals needs written appended b) (c : Bool) :
    Deploys site (goals.map (.when c)) (needs.map (.when c)) written appended (ifThen c b) := by
  have hown : ∀ goal ∈ goals.map (Goal.when c), goal.Own site.env := List.forall_mem_map.mpr h.own
  unfold Rc.ifThen
  cases c with
  | true =>
    exact ⟨hown, h.touches,
      h.reaches.mono (fun _ => id) fun _ hgoals => all_when.mpr ⟨hgoals.1, fun _ => hgoals⟩,
      h.idle.mono fun _ hneeds => ⟨(all_when.mp hneeds.1).2 rfl, (all_when.mp hneeds.2).2 rfl⟩⟩
  | false =>
    refine ⟨hown, touches_keeps (keeps_pure ()), ?_, (keeps_pure ()).idle⟩
    refine (keeps_pure ()).preserves.reaches.mono (fun _ => id) fun _ hsane => all_when.mpr ⟨hsane, ?_⟩
    exact fun hc => absurd hc Bool.false_ne_true

variable (hdoc : Documented site) (hdry : o.dryRun = false)

include hdoc

include hdry

/-- The lines of the rc files. -/
def rcGoals (env : Env) : List Goal :=
  [.has .bashrc (IncludeIn.entry ("source " ++ display env.dir ++ "/bashrc") "#"),
    .has .profile (IncludeIn.entry ("source " ++ display env.dir ++ "/profile") "#"),
    .has .vimrc (IncludeIn.entry ("source " ++ display env.dir ++ "/vimrc") "\""),
    .has .vimrc (IncludeIn.entry ("source " ++ display env.dir ++ "/vimrcpython") "\"")]

/-- The configuration of the programs, and the directories. -/
def configGoals (env : Env) : List Goal :=
  [.copied .i3config .i3source, .copied .tmux .tmuxSource,
    .when (env.uname ≠ "Darwin") (.holds .locallib "/usr/local/lib"),
    .directory (env.home ++ ["screenshots"]), .directory (env.home ++ [".holchain"])]

/-- On a Mac. -/
def macGoals : List Goal :=
  brewPackages.map .brewed ++ [.has .gdbinit (IncludeIn.entry "set startup-with-shell off" "#")]

/-- On Linux with a window manager. -/
def linuxGoals : List Goal :=
  [.directory xorgPath, .holds .touchpad xorgTouchpad, .holds .keyboard xorgKeyboard,
    .holds .backlight udevBacklight, .installed dnfPackages]

/-- Behind the lines of the rc files. -/
def restGoals (env : Env) (serverMode : Bool) : List Goal :=
  .directory (configPath env) :: configGoals env
    ++ macGoals.map (.when (env.uname = "Darwin"))
    ++ linuxGoals.map (.when (env.uname = "Linux" && !serverMode))
    ++ [.there (File.pathogen.path env), .there (File.nickcolor.path env)]

/-- What the script is for. -/
def deployGoals (env : Env) (serverMode : Bool) : List Goal :=
  .hasSudo :: rcGoals env ++ restGoals env serverMode

end Sections

/-- A machine with the repository and a few files that are others than they should be. -/
def bare : Fs :=
  ⟨fun path =>
    if [["home"], ["rc"], ["etc"], ["etc", "ld.so.conf.d"], ["etc", "udev"], ["etc", "udev", "rules.d"],
        ["etc", "X11"], ["tmp"], ["var"], ["var", "rpm"], ["usr"], ["usr", "local"],
        ["usr", "local", "bin"]].contains path then some .dir
    else if path = ["rc", "i3config"] then some (.file "set $mod Mod4\n")
    else if path = ["rc", "tmuxconf"] then some (.file "set -g prefix C-a\n")
    else if path = ["home", ".tmux.conf"] then some (.file "set -g mouse on\n")
    else if path = ["etc", "ld.so.conf.d", "locallib.conf"] then some (.file "/opt/lib\n")
    else if path = ["usr", "local", "bin", "gcc-8"] then some (.file "")
    else none⟩

/-- What a run makes of it. -/
def deployed (uname : String) : State := ((setup (machine uname) []).run.run ⟨bare, []⟩).2

/-- Everything is reached, and stays as it is. -/
def Settled (uname : String) : Prop :=
  (setup (machine uname) []).run.run ⟨bare, []⟩ = (.ok (), deployed uname)
    ∧ All (site uname) (deployGoals (machine uname) false) (deployed uname).fs
    ∧ ∃ s'', (setup (machine uname) []).run.run (deployed uname) = (.ok (), s'')
      ∧ s''.fs = (deployed uname).fs

end Holchain.Rc
