import Holchain.Lib.FileTree
import Holchain.Lib.Script

/-!
# Rc.Setup — deploying the rc files

`setup` runs with `errexit`: a command that fails ends it, but in a condition or on the left of `||`.
Commands outside of it are a parameter (`Env`), those that write files among them; neither the files
it makes with `mktemp`, what `sudo -k` forgets nor what a package manager logs is part of the file
system here. `mkdir -p` is the library's.
-/

namespace Holchain.Rc

open Lib (FsPath Node Fs Script)

/-- The commands that write. -/
inductive Command where
  /-- `echo line >> dest` -/
  | append (dest : FsPath) (line : String)
  /-- `sudo -u user tee dest` -/
  | tee (user : String) (dest : FsPath) (content : String)
  | cp (src dest : FsPath)
  | ln (target link : FsPath)
  | gitClone (url : String) (target : FsPath)
  | curl (target : FsPath) (url : String)
  | brewInstall (package : String)
  | dnfInstall (packages : List String)
  /-- `ruby extconf.rb; make` -/
  | compile (dir : FsPath)

/-- The surroundings of a run. -/
structure Env where
  uname : String
  home : FsPath
  /-- `$DIR` -/
  dir : FsPath
  /-- whether there is `sudo` -/
  hasSudo : Bool
  /-- where the user, and where `sudo` may make a directory -/
  may : FsPath → Bool
  rootMay : FsPath → Bool
  /-- `grep --quiet` in a file, and in a text -/
  grep : String → FsPath → Fs → Bool
  grepText : String → String → Bool
  /-- `cmp --silent` of two files, and of a file and a text -/
  cmp : FsPath → FsPath → Fs → Bool
  cmpText : FsPath → String → Fs → Bool
  /-- `mktemp`; an error is `none` -/
  mktemp : Fs → Option FsPath
  /-- `brew list -1` -/
  brewList : Fs → Option String
  /-- how many of the packages `dnf list --installed` has -/
  dnfList : List String → Fs → Option ℕ
  /-- what a command does, and whether it succeeds -/
  run : Command → Fs → Fs × Bool

/-- The file system, and the lines that are printed. -/
structure State where
  fs : Fs
  out : List String

/-- `server_mode`, `clone_dir` and `dry_run`. -/
structure Options where
  serverMode : Bool
  cloneDir : String
  dryRun : Bool

/-- An option of the command line; `other` is any that `getopts` does not know, or `-d` without a
directory. -/
inductive Flag where
  | s
  | d (dir : String)
  | r
  | h
  | other
  deriving DecidableEq

/-! ## Commands -/

/-- `echo`. -/
def echo (line : String) : Script State Unit := modify fun s => { s with out := s.out ++ [line] }

/-- A path as it is printed. -/
def display (path : FsPath) : String := "/" ++ "/".intercalate path

/-- `basename`. -/
def basename (path : FsPath) : String := path.getLast?.getD "/"

/-- `[ -e path ]`. -/
def isThere (fs : Fs) (path : FsPath) : Bool := (fs.stat path).isSome

/-- `[ -f path ]`. -/
def isFile (fs : Fs) (path : FsPath) : Bool :=
  match fs.stat path with
  | some (.file _) => true
  | _ => false

/-- An `if` without an `else`. -/
def ifThen (c : Bool) (b : Script State Unit) : Script State Unit := if c then b else pure ()

/-- `mkdir -p` where `errexit` is off: whether it succeeds. -/
def tryMkdir (may : FsPath → Bool) (path : FsPath) : Script State Bool := do
  let s ← get
  let (fs, ok) := Fs.mkdirAll may [] path s.fs
  set { s with fs }
  return ok

/-- `mkdir -p`. -/
def mkdir (may : FsPath → Bool) (path : FsPath) : Script State Unit := do
  let ok ← tryMkdir may path
  if ok then return else throw 1

section Helpers

variable (env : Env) (o : Options)

/-- A command where `errexit` is off. -/
def attempt (c : Command) : Script State Bool := do
  let s ← get
  let (fs, ok) := env.run c s.fs
  set { s with fs }
  return ok

/-- A command. -/
def command (c : Command) : Script State Unit := do
  let ok ← attempt env c
  if ok then return else throw 1

/-- `include_in`. -/
def includeIn (dest : FsPath) (content commentChar : String) : Script State Unit := do
  let content := content ++ " " ++ commentChar ++ "  Added by holchain"
  let s ← get
  if env.grep content dest s.fs then
    echo ("  Already exists in " ++ basename dest)
  else if !o.dryRun then do
    command env (.append dest content)
    echo ("  Appended config to " ++ basename dest)
  else
    echo ("  Would modify " ++ basename dest)

/-- The end of `write_to`. -/
def write (dest : FsPath) (content actingUser : String) : Script State Unit := do
  command env (.tee actingUser dest content)
  echo ("  Updated " ++ display dest)

/-- `write_to`. -/
def writeTo (dest : FsPath) (content actingUser : String) : Script State Unit := do
  let s ← get
  if isFile s.fs dest then
    if env.cmpText dest content s.fs then
      echo ("  " ++ display dest ++ " is up to date")
    else if o.dryRun then
      echo ("  Would overwrite " ++ display dest)
    else
      match env.mktemp s.fs with
      | none => throw 1
      | some tmp => do
        command env (.cp dest tmp)
        echo ("  " ++ display dest ++ " backup: " ++ display tmp)
        write env dest content actingUser
  else if o.dryRun then
    echo ("  Would create " ++ display dest)
  else write env dest content actingUser

/-- `sed -E 's:^.*/(.+)\.git:\1:'` of a URL that ends in `.git`. -/
def packageName (url : String) : String :=
  let name := (url.toList.splitOn '/').getLast?.getD url.toList
  String.ofList (name.take (name.length - 4))

/-- `vim_plugin`; it is called only where `errexit` is off. -/
def vimPlugin (gitUrl : String) : Script State Bool := do
  let bundlePath := env.home ++ [".vim", "bundle"]
  let _ ← tryMkdir env.may bundlePath
  let package := packageName gitUrl
  let targetPath := bundlePath ++ [package]
  let s ← get
  if s.fs.isDirectory targetPath then do
    echo ("  vim plugin " ++ package ++ " already exists")
    return false
  else if o.dryRun then do
    echo ("  Would download vim plugin " ++ package)
    return false
  else if !isThere s.fs targetPath then do
    echo ("  getting vim plugin " ++ package)
    let _ ← attempt env (.gitClone gitUrl targetPath)
    return true
  else do
    echo ("  vim plugin " ++ package ++ " cannot be downloaded")
    return false

/-- `copy_with_backup`. -/
def copyWithBackup (dest src : FsPath) : Script State Unit := do
  let s ← get
  if env.cmp dest src s.fs then
    echo ("  Not changed: " ++ basename src)
  else if o.dryRun then
    echo ("  Would overwrite " ++ display dest)
  else do
    ifThen (isThere s.fs dest)
      (command env (.cp dest (dest.dropLast ++ [basename dest ++ ".bak"])))
    command env (.cp src dest)
    echo ("  Updated " ++ display dest)

/-- The loop of `brew_install`. -/
def brewEach (cur : String) : List String → Script State Unit
  | [] => return
  | p :: args => do
    if env.grepText p cur then
      echo ("  " ++ p ++ " already installed")
    else if !o.dryRun then do
      command env (.brewInstall p)
      echo ("  " ++ p ++ " installed")
    else
      echo ("  Would brew-install " ++ p)
    brewEach cur args

/-- `brew_install`. -/
def brewInstall (args : List String) : Script State Unit := do
  let s ← get
  match env.brewList s.fs with
  | none => throw 1
  | some cur => brewEach env o cur args

/-- `dnf_install`. -/
def dnfInstall (args : List String) : Script State Unit := do
  let s ← get
  match env.mktemp s.fs, env.dnfList args s.fs with
  | some _, some count =>
    if count = args.length then
      echo "  All packages already installed"
    else if o.dryRun then
      echo ("  Would dnf-install " ++ " ".intercalate args)
    else command env (.dnfInstall args)
  | _, _ => throw 1

/-- `download_to`. -/
def downloadTo (target : FsPath) (url : String) : Script State Unit := do
  let name := basename target
  let s ← get
  if isThere s.fs target then
    echo ("  " ++ name ++ " exists, skipping")
  else if o.dryRun then
    echo ("  Would download " ++ name ++ " to " ++ display target)
  else do
    mkdir env.may target.dropLast
    command env (.curl target url)
    echo ("  " ++ name ++ " downloaded")

/-! ## The script -/

/-- `usage`. -/
def usage : Script State Unit := do
  echo (display env.dir ++ "/setup [OPTIONS]")
  echo "  Deploys rc files and sets up stuff"
  echo "Parameters:"
  echo "  -s: Server mode (do not install window manager etc.)"
  echo "  -d: Directory to clone repos into (defaults to ~/develop)"
  echo "  -r: Dry run - Just print operations"
  echo "  -h: Display this help and exit"

/-- The loop of `getopts`. -/
def getopts : List Flag → Options → Script State Options
  | [], o => return o
  | .s :: flags, o => getopts flags { o with serverMode := true }
  | .d dir :: flags, o => getopts flags { o with cloneDir := dir }
  | .r :: flags, o => getopts flags { o with dryRun := true }
  | .h :: _, _ => do
    usage env
    throw 0
  | .other :: _, _ => do
    usage env
    throw 1

/-- `~/.config/i3`. -/
def configPath : FsPath := env.home ++ [".config", "i3"]

/-- `$xorg_path`. -/
def xorgPath : FsPath := ["etc", "X11", "xorg.conf.d"]

/-- From `Adding rc files` on. -/
def rcFiles : Script State Unit := do
  echo "Adding rc files"
  includeIn env o (env.home ++ [".bashrc"]) ("source " ++ display env.dir ++ "/bashrc") "#"
  includeIn env o (env.home ++ [".profile"]) ("source " ++ display env.dir ++ "/profile") "#"
  includeIn env o (env.home ++ [".vimrc"]) ("source " ++ display env.dir ++ "/vimrc") "\""
  includeIn env o (env.home ++ [".vimrc"]) ("source " ++ display env.dir ++ "/vimrcpython") "\""

/-- Behind the directory of `i3`. -/
def configFiles : Script State Unit := do
  copyWithBackup env o (configPath env ++ ["config"]) (env.dir ++ ["i3config"])
  copyWithBackup env o (env.home ++ [".tmux.conf"]) (env.dir ++ ["tmuxconf"])
  ifThen (env.uname ≠ "Darwin") do
    echo "updating system config"
    writeTo env o ["etc", "ld.so.conf.d", "locallib.conf"] "/usr/local/lib" "root"
  echo "creating directories"
  if !o.dryRun then do
    mkdir env.may (env.home ++ ["screenshots"])
    mkdir env.may (env.home ++ [".holchain"])
  else do
    echo (" Would create " ++ display (env.home ++ ["screenshots"]))
    echo (" Would create " ++ display (env.home ++ [".holchain"]))

/-- On a Mac, behind `brew_install`. -/
def darwinFiles : Script State Unit := do
  includeIn env o (env.home ++ [".gdbinit"]) "set startup-with-shell off" "#"
  let s ← get
  ifThen (!isThere s.fs ["usr", "local", "bin", "gcc"]) <|
    if !o.dryRun then
      command env (.ln ["usr", "local", "bin", "gcc-8"] ["usr", "local", "bin", "gcc"])
    else
      echo "  would create symlink /usr/local/bin/gcc"

/-- The packages on a Mac. -/
def brewPackages : List String :=
  ["gcc", "coreutils", "binutils", "diffutils", "ed", "findutils", "gawk", "gnu-indent", "gnu-sed",
    "gnu-tar", "gnu-which", "gnutls", "grep", "gzip", "watch", "wdiff", "wget", "bash", "gdb",
    "gpatch", "less", "m4", "make", "file-formula", "git", "openssh", "perl", "python"]

/-- The packages on Linux. -/
def dnfPackages : List String :=
  ["i3", "i3status", "dmenu", "i3lock", "xbacklight", "feh", "conky", "NetworkManager",
    "network-manager-applet", "light", "irssi", "xdotool", "xsel", "ShellCheck", "tmux", "blueman",
    "ruby", "pavucontrol", "boost-devel", "ninja-build", "g++", "xrandr", "libXrandr-devel",
    "pulseaudio-libs-devel", "the_silver_searcher"]

/-- `$xorg_touchpad`. -/
def xorgTouchpad : String := "Section \"InputClass\"
        Identifier \"touchpad\"
        MatchIsTouchpad \"on\"
        Driver \"libinput\"
        Option \"Tapping\" \"on\"
        Option \"NaturalScrolling\" \"on\"
        Option \"ScrollMethod\" \"twofinger\"
        Option \"TappingButtonMap\" \"lrm\"
        Option \"DisableWhileTyping\" \"false\"
  EndSection"

/-- `$xorg_keyboard`. -/
def xorgKeyboard : String := "Section \"InputClass\"
        Identifier \"system-keyboard\"
        MatchIsKeyboard \"on\"
        Option \"XkbLayout\" \"us\"
        Option \"XKbOptions\" \"ctrl:nocaps\"
  EndSection"

/-- A rule of `$udev_backlight`. -/
def udevRule (subsystem kernel program : String) : String :=
  "ACTION==\"add\", SUBSYSTEM==\"" ++ subsystem ++ "\", KERNEL==\"" ++ kernel ++ "\", RUN+=\"/bin/"
    ++ program ++ " /sys/class/" ++ subsystem ++ "/%k/brightness\""

/-- `$udev_backlight`. -/
def udevBacklight : String := "\n".intercalate
  [udevRule "backlight" "acpi_video0" "chgrp video", udevRule "backlight" "acpi_video0" "chmod g+w",
    udevRule "leds" "tpacpi::kbd_backlight" "chgrp video",
    udevRule "leds" "tpacpi::kbd_backlight" "chmod g+w"]

/-- On Linux, behind the directory of `xorg`. -/
def linuxFiles : Script State Unit := do
  writeTo env o (xorgPath ++ ["90-touchpad.conf"]) xorgTouchpad "root"
  writeTo env o (xorgPath ++ ["90-keyboard.conf"]) xorgKeyboard "root"
  echo "udev setup"
  writeTo env o ["etc", "udev", "rules.d", "backlight.rules"] udevBacklight "root"
  echo "Installing software"

/-- `vim_plugin … || true`. -/
def plugin (gitUrl : String) : Script State Unit := do
  let _ ← vimPlugin env o gitUrl
  return

/-- The plugin that is compiled. -/
def compiledPlugin : Script State Unit := do
  let got ← vimPlugin env o "https://github.com/wincent/command-t.git"
  ifThen got (command env (.compile (env.home
    ++ [".vim", "bundle", "command-t", "ruby", "command-t", "ext", "command-t"])))

/-- From `downloading vim plugins` to the end. -/
def plugins : Script State Unit := do
  echo "downloading vim plugins"
  downloadTo env o (env.home ++ [".vim", "autoload", "pathogen.vim"]) "https://tpo.pe/pathogen.vim"
  plugin env o "https://github.com/scrooloose/nerdtree.git"
  plugin env o "https://github.com/theevocater/thrift.vim.git"
  compiledPlugin env o
  echo "downloading irssi plugins"
  downloadTo env o (env.home ++ [".irssi", "scripts", "nickcolor.pl"])
    "https://raw.githubusercontent.com/vigith/random/master/irssi/nickcolor.pl"

/-- The directory of `xorg`. -/
def xorgDir : Script State Unit := do
  let s ← get
  ifThen (!s.fs.isDirectory xorgPath) (mkdir env.rootMay xorgPath)

/-- The section for Linux with a window manager. -/
def linux : Script State Unit := do
  echo "xorg setup"
  xorgDir env
  linuxFiles env o
  dnfInstall env o dnfPackages

/-- The section for a Mac. -/
def darwin : Script State Unit := do
  brewInstall env o brewPackages
  darwinFiles env o

/-- Behind the options. -/
def deploy : Script State Unit := do
  ifThen (!env.hasSudo) (throw 127)
  rcFiles env o
  mkdir env.may (configPath env)
  configFiles env o
  ifThen (env.uname = "Darwin") (darwin env o)
  ifThen (env.uname = "Linux" && !o.serverMode) (linux env o)
  plugins env o

end Helpers

/-- The script. -/
def setup (env : Env) (flags : List Flag) : Script State Unit := do
  let o ← getopts env flags ⟨false, display (env.home ++ ["develop"]), false⟩
  deploy env o

end Holchain.Rc
