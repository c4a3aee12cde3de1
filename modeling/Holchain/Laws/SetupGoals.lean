import Holchain.Laws.IncludeIn
import Holchain.Lib.Settle

/-!
# Laws.SetupGoals — what the helpers of `setup` are for

What is to be deployed are goals: a text that is found in a file, a copy, a directory, a package. A
script touches some files at most (`Touches`), and a goal about others stays reached. Every helper is
idle where its goal is reached, and reaches it where it returns; `vim_plugin` is idle only, for a
clone may fail.

The commands are used as their manuals describe them, and on the script's own arguments only
(`Documented`). What that needs of the file system, such as that no directory is in a file's place, is
a parameter (`Site`).
-/

namespace Holchain.Rc

open Lib (FsPath Node Fs Script)
open Lib.Script

/-! ## Goals -/

/-- A file that is written, or that is copied. -/
inductive File where
  | bashrc
  | profile
  | vimrc
  | gdbinit
  | i3config
  | i3backup
  | tmux
  | tmuxBackup
  | locallib
  | touchpad
  | keyboard
  | backlight
  | pathogen
  | nickcolor
  /-- in `$DIR` -/
  | i3source
  | tmuxSource
  deriving DecidableEq

/-- Where `copy_with_backup` has its copy. -/
def backup (dest : FsPath) : FsPath := dest.dropLast ++ [basename dest ++ ".bak"]

/-- Where it is. -/
def File.path (env : Env) : File → FsPath
  | bashrc => env.home ++ [".bashrc"]
  | profile => env.home ++ [".profile"]
  | vimrc => env.home ++ [".vimrc"]
  | gdbinit => env.home ++ [".gdbinit"]
  | i3config => configPath env ++ ["config"]
  | i3backup => backup (configPath env ++ ["config"])
  | tmux => env.home ++ [".tmux.conf"]
  | tmuxBackup => backup (env.home ++ [".tmux.conf"])
  | locallib => ["etc", "ld.so.conf.d", "locallib.conf"]
  | touchpad => xorgPath ++ ["90-touchpad.conf"]
  | keyboard => xorgPath ++ ["90-keyboard.conf"]
  | backlight => ["etc", "udev", "rules.d", "backlight.rules"]
  | pathogen => env.home ++ [".vim", "autoload", "pathogen.vim"]
  | nickcolor => env.home ++ [".irssi", "scripts", "nickcolor.pl"]
  | i3source => env.dir ++ ["i3config"]
  | tmuxSource => env.dir ++ ["tmuxconf"]

/-- The surroundings, with what is always so of the file system, and when packages are installed. -/
structure Site where
  env : Env
  sane : Fs → Prop
  installed : List String → Fs → Prop

/-- What is to be deployed. -/
inductive Goal where
  /-- `grep` finds the text. -/
  | has (file : File) (line : String)
  /-- `cmp` finds no difference. -/
  | copied (dest src : File)
  | holds (file : File) (content : String)
  | directory (path : FsPath)
  | there (path : FsPath)
  /-- for a plugin -/
  | present (path : FsPath)
  /-- `grep` finds the name in what `brew` lists. -/
  | brewed (package : String)
  | installed (packages : List String)
  | hasSudo
  /-- where the condition is met -/
  | when (c : Bool) (goal : Goal)

namespace Goal

/-- It is reached. -/
def Holds (site : Site) : Goal → Fs → Prop
  | has file line, fs => site.env.grep line (file.path site.env) fs = true
  | copied dest src, fs => site.env.cmp (dest.path site.env) (src.path site.env) fs = true
  | holds file content, fs => isFile fs (file.path site.env) = true
    ∧ site.env.cmpText (file.path site.env) content fs = true
  | directory path, fs => fs.isDirectory path = true
  | there path, fs => isThere fs path = true
  | present path, fs => fs.isDirectory path = true ∨ isThere fs path = true
  | brewed package, fs =>
    ∃ cur, site.env.brewList fs = some cur ∧ site.env.grepText package cur = true
  | installed packages, fs => site.installed packages fs
  | hasSudo, _ => site.env.hasSudo = true
  | when c goal, fs => c = true → goal.Holds site fs

/-- The files it is about. -/
def files : Goal → List File
  | has file _ => [file]
  | copied dest src => [dest, src]
  | holds file _ => [file]
  | directory _ | there _ | present _ | brewed _ | installed _ | hasSudo => []
  | when _ goal => goal.files

/-- It is about all that the files have. -/
def exact : Goal → Bool
  | copied _ _ | holds _ _ => true
  | has _ _ | directory _ | there _ | present _ | brewed _ | installed _ | hasSudo => false
  | when _ goal => goal.exact

/-- What is written to these files, or appended to those, does not matter. -/
def apart (written appended : List File) (goal : Goal) : Bool :=
  goal.files.all fun file => !written.contains file && !(goal.exact && appended.contains file)

end Goal

/-! ## What the commands do -/

/-- The file that a command writes. -/
def Command.written : Command → Option FsPath
  | tee _ dest _ => some dest
  | cp _ dest => some dest
  | curl target _ => some target
  | _ => none

/-- The file that a command appends to. -/
def Command.appended : Command → Option FsPath
  | append dest _ => some dest
  | _ => none

/-- The command writes no file that the goal is about. -/
structure Goal.Safe (env : Env) (goal : Goal) (c : Command) : Prop where
  written : ∀ file ∈ goal.files, c.written ≠ some (file.path env)
  appended : goal.exact = true → ∀ file ∈ goal.files, c.appended ≠ some (file.path env)

/-- All of some goals are reached, in a file system as it always is. -/
def All (site : Site) (goals : List Goal) (fs : Fs) : Prop :=
  site.sane fs ∧ ∀ goal ∈ goals, goal.Holds site fs

/-- The lines that are put into rc files. -/
def rcLines (env : Env) : List String :=
  [IncludeIn.entry ("source " ++ display env.dir ++ "/bashrc") "#",
    IncludeIn.entry ("source " ++ display env.dir ++ "/profile") "#",
    IncludeIn.entry ("source " ++ display env.dir ++ "/vimrc") "\"",
    IncludeIn.entry ("source " ++ display env.dir ++ "/vimrcpython") "\"",
    IncludeIn.entry "set startup-with-shell off" "#"]

/-- The plugins that are cloned. -/
def pluginUrls : List String :=
  ["https://github.com/scrooloose/nerdtree.git", "https://github.com/theevocater/thrift.vim.git",
    "https://github.com/wincent/command-t.git"]

/-- The link on a Mac. -/
def gcc : FsPath := ["usr", "local", "bin", "gcc"]

/-- The directories that are made. -/
def ownDirs (env : Env) : List FsPath :=
  [configPath env, env.home ++ ["screenshots"], env.home ++ [".holchain"], xorgPath, bundlePath env,
    (File.pathogen.path env).dropLast, (File.nickcolor.path env).dropLast]

/-- The goals of the script. -/
def Goal.Own (env : Env) : Goal → Prop
  | has _ line => line ∈ rcLines env
  | directory path => path ∈ ownDirs env
  | there path => path = gcc ∨ ∃ file : File, path = file.path env
  | present path => ∃ url ∈ pluginUrls, path = bundlePath env ++ [packageName url]
  | brewed package => package ∈ brewPackages
  | installed packages => packages = dnfPackages
  | copied _ _ | holds _ _ | hasSudo => True
  | when _ goal => goal.Own env

/-- The commands of the script. -/
inductive Own (env : Env) : Command → Prop
  | append (file : File) {line : String} (h : line ∈ rcLines env) :
    Own env (.append (file.path env) line)
  | tee (file : File) (user content : String) : Own env (.tee user (file.path env) content)
  | copy (src dest : File) : Own env (.cp (src.path env) (dest.path env))
  | save (file : File) {fs : Fs} {tmp : FsPath} (h : env.mktemp fs = some tmp) :
    Own env (.cp (file.path env) tmp)
  | link : Own env (.ln ["usr", "local", "bin", "gcc-8"] gcc)
  | clone {url : String} (h : url ∈ pluginUrls) :
    Own env (.gitClone url (bundlePath env ++ [packageName url]))
  | download (file : File) (url : String) : Own env (.curl (file.path env) url)
  | brew {package : String} (h : package ∈ brewPackages) : Own env (.brewInstall package)
  | dnf : Own env (.dnfInstall dnfPackages)
  | compile : Own env (.compile (env.home
    ++ [".vim", "bundle", "command-t", "ruby", "command-t", "ext", "command-t"]))

/-- What the script's commands do: each reaches what it is for, and leaves the files of others alone. -/
structure Documented (site : Site) : Prop where
  /-- The files are different ones. -/
  files : Function.Injective (File.path site.env)
  home : ∀ c ∈ site.env.home, Fs.IsName c
  mkdir : ∀ dir ∈ ownDirs site.env, ∀ may fs, site.sane fs → site.sane (Fs.mkdirAll may [] dir fs).1
  run : ∀ c, Own site.env c → ∀ fs, site.sane fs → site.sane (site.env.run c fs).1
  mktemp : ∀ fs, site.sane fs → (site.env.mktemp fs).isSome
  /-- A temporary file is a new one. -/
  new : ∀ fs tmp, site.env.mktemp fs = some tmp → ∀ file : File, tmp ≠ file.path site.env
  /-- These lines match themselves; not every line does. -/
  append : ∀ file : File, ∀ line ∈ rcLines site.env, ∀ fs fs', site.sane fs →
    site.env.run (.append (file.path site.env) line) fs = (fs', true) →
    (Goal.has file line).Holds site fs'
  tee : ∀ (file : File) user content fs fs', site.sane fs →
    site.env.run (.tee user (file.path site.env) content) fs = (fs', true) →
    (Goal.holds file content).Holds site fs'
  cp : ∀ (src dest : File) fs fs', site.sane fs →
    site.env.run (.cp (src.path site.env) (dest.path site.env)) fs = (fs', true) →
    (Goal.copied dest src).Holds site fs'
  curl : ∀ (file : File) url fs fs', site.sane fs →
    site.env.run (.curl (file.path site.env) url) fs = (fs', true) →
    (Goal.there (file.path site.env)).Holds site fs'
  brew : ∀ package ∈ brewPackages, ∀ fs fs', site.sane fs →
    site.env.run (.brewInstall package) fs = (fs', true) → (Goal.brewed package).Holds site fs'
  dnf : ∀ fs fs', site.sane fs → site.env.run (.dnfInstall dnfPackages) fs = (fs', true) →
    site.installed dnfPackages fs'
  /-- They are if each is in the list; some are not listed by the names they are asked for with. -/
  listed : ∀ fs, site.sane fs → site.env.dnfList dnfPackages fs = some dnfPackages.length →
    site.installed dnfPackages fs
  /-- Where they are, there is a list and nothing to do. -/
  done : ∀ fs, site.sane fs → site.installed dnfPackages fs →
    (site.env.dnfList dnfPackages fs).isSome ∧ site.env.run (.dnfInstall dnfPackages) fs = (fs, true)
  /-- Directories that are made are nothing to a goal, and neither are other files. -/
  more : ∀ goal : Goal, goal.Own site.env → ∀ dir ∈ ownDirs site.env, ∀ may fs, site.sane fs →
    goal.Holds site fs → goal.Holds site (Fs.mkdirAll may [] dir fs).1
  keeps : ∀ goal : Goal, goal.Own site.env → ∀ c, Own site.env c → goal.Safe site.env c →
    ∀ fs, site.sane fs → goal.Holds site fs → goal.Holds site (site.env.run c fs).1

/-! ## Which files a script writes -/

/-- A script writes and appends to some files at most, and leaves the file system as it always is. -/
def Touches {α : Type} (site : Site) (written appended : List File) (b : Script State α) : Prop :=
  ∀ goal : Goal, goal.Own site.env → goal.apart written appended = true →
    Preserves State.fs (fun fs => site.sane fs ∧ goal.Holds site fs) b

section Touches

variable {site : Site} {o : Options} {written appended : List File} {file dest src : File}

theorem Touches.sane {α : Type} {b : Script State α} (h : Touches site written appended b) :
    Preserves State.fs site.sane b := fun s a s' hrun hsane =>
  (h (.when false .hasSudo) trivial rfl s a s' hrun ⟨hsane, fun hc => absurd hc Bool.false_ne_true⟩).1

theorem touches_bind {α β : Type} {b : Script State α} {f : α → Script State β}
    (h : Touches site written appended b) (hf : ∀ a, Touches site written appended (f a)) :
    Touches site written appended (b >>= f) :=
  fun goal hown hapart => (h goal hown hapart).bind fun a => hf a goal hown hapart

theorem touches_keeps {α : Type} {b : Script State α} {a : α} (h : Keeps State.fs b a) :
    Touches site written appended b := fun _ _ _ => h.preserves

/-- The goal is not about a file that is written. -/
theorem ne_of_apart {goal : Goal} (h : goal.apart written appended = true) {other : File}
    (hother : other ∈ goal.files) :
    other ∉ written ∧ (goal.exact = true → other ∉ appended) := by
  have hall := List.all_eq_true.mp h other hother
  simp only [Bool.and_eq_true, Bool.not_eq_true', List.contains_eq_mem, decide_eq_false_iff_not,
    Bool.and_eq_false_imp] at hall
  exact hall

section Mkdir

variable (hdoc : Documented site) (may : FsPath → Bool) {path : FsPath}
  (hpath : path ∈ ownDirs site.env)

include hdoc hpath

end Mkdir

end Touches

/-! ## What the helpers are for -/

section Helpers

variable {env : Env} {site : Site} {o : Options} {p : Fs → Prop} {s s' : State}

theorem run_get (s : State) : (get : Script State State).run.run s = (.ok s, s) := rfl

end Helpers

end Holchain.Rc
