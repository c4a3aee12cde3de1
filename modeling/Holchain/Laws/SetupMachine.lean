import Holchain.Laws.SetupGoals
import Mathlib.Data.List.Infix

/-!
# Laws.SetupMachine — a machine for `setup`

The commands on a tree: `>>`, `tee`, `cp` and `curl` write files, `git` makes a directory, and the
package managers have lists of what they have installed. They are as the laws of a second deployment
take them to be (`documented_machine`), where no directory is in the way of a file.
-/

namespace Holchain.Rc

open Lib (FsPath Node Fs Script)

/-! ## Files and commands -/

/-- What a file has. -/
def fileText (fs : Fs) (path : FsPath) : Option String :=
  match fs.node path with
  | some (.file contents) => some contents
  | _ => none

/-- Writing a file where no link is on the way. -/
def writeFile (path : FsPath) (contents : String) (fs : Fs) : Fs × Bool :=
  if fs.place path = some path then fs.put path contents else (fs, false)

/-- Making something in a directory where there is nothing. -/
def makeNode (path : FsPath) (n : Node) (fs : Fs) : Fs × Bool :=
  if fs.isDir path.dropLast && (fs.node path).isNone then
    (⟨Function.update fs.node path (some n)⟩, true)
  else (fs, false)

/-- Where `brew` has its list. -/
def cellar : FsPath := ["usr", "local", "cellar"]

/-- What it has. -/
def brewed (fs : Fs) : String := (fileText fs cellar).getD ""

/-- Where `dnf` has a package. -/
def rpm (package : String) : FsPath := ["var", "rpm", package]

/-- It is there. -/
def isInstalled (package : String) (fs : Fs) : Bool := (fs.node (rpm package)).isSome

/-- What the commands do on such a tree. -/
def runOn (c : Command) (fs : Fs) : Fs × Bool :=
  match c with
  | .append dest line => writeFile dest ((fileText fs dest).getD "" ++ (line ++ "\n")) fs
  | .tee _ dest content => writeFile dest (content ++ "\n") fs
  | .cp src dest =>
    match fileText fs src with
    | some text => writeFile (if fs.isDir dest then dest ++ [basename src] else dest) text fs
    | none => (fs, false)
  | .ln target link => makeNode link (.link true target) fs
  | .gitClone _ target => makeNode target .dir fs
  | .curl target url => writeFile target url fs
  | .brewInstall package => writeFile cellar (brewed fs ++ (package ++ "\n")) fs
  | .dnfInstall packages =>
    let fs := packages.foldl (fun fs p => (makeNode (rpm p) (.file "") fs).1) fs
    (fs, packages.all (isInstalled · fs))
  | .compile _ => (fs, true)

/-- A machine of a platform, with its commands. -/
def machine (uname : String) : Env where
  uname := uname
  home := ["home"]
  dir := ["rc"]
  hasSudo := true
  may path := path.head? == some "home"
  rootMay _ := true
  grep line dest fs := (fileText fs dest).any fun text => decide (line.toList <:+: text.toList)
  grepText line text := decide (line.toList <:+: text.toList)
  cmp dest src fs := (fileText fs dest).any fun text => fileText fs src == some text
  cmpText dest content fs := fileText fs dest == some (content ++ "\n")
  mktemp _ := some ["tmp", "tmp.1"]
  brewList fs := some (brewed fs)
  dnfList packages fs := some (packages.countP (isInstalled · fs))
  run := runOn

/-- Where files are written. -/
def spots : List FsPath :=
  ["tmp", "tmp.1"] :: [File.bashrc, .profile, .vimrc, .gdbinit, .i3config, .i3backup, .tmux, .tmuxBackup,
    .locallib, .touchpad, .keyboard, .backlight, .pathogen, .nickcolor, .i3source, .tmuxSource].map
      (File.path (machine "Linux"))

/-- No directory is in the way of a file. -/
def Sane (fs : Fs) : Prop := ∀ path ∈ spots, fs.node path ≠ some .dir

/-- The machine, as a site. -/
def site (uname : String) : Site where
  env := machine uname
  sane := Sane
  installed packages fs := ∀ package ∈ packages, isInstalled package fs = true

section Machine

variable {uname : String} {fs fs' : Fs} {path : FsPath} {file : File} {contents : String}

theorem path_machine (uname : String) (file : File) :
    file.path (machine uname) = file.path (machine "Linux") := by
  cases file <;> rfl

theorem path_mem_spots (uname : String) (file : File) : file.path (machine uname) ∈ spots := by
  rw [path_machine]
  cases file <;> decide

/-- No program's list is there, no plugin and no directory. -/
theorem spots_spec : ∀ path ∈ spots, path ≠ [] ∧ path ≠ cellar
    ∧ path.dropLast ≠ ["home", ".vim", "bundle"] ∧ path.getLast? ≠ some ".." ∧ path.getLast? ≠ some "."
    ∧ ∀ dir ∈ ownDirs (machine "Linux"), ∀ c ∈ dir, path.getLast? ≠ some c := by
  decide +kernel

theorem grep_machine {line : String} {dest : FsPath} : (machine uname).grep line dest fs = true ↔
    ∃ text, fileText fs dest = some text ∧ line.toList <:+: text.toList := by
  simp [machine, Option.any_eq_true]

theorem cmp_machine {dest src : FsPath} : (machine uname).cmp dest src fs = true ↔
    ∃ text, fileText fs dest = some text ∧ fileText fs src = some text := by
  simp [machine, Option.any_eq_true]

theorem isFile_iff : isFile fs path = true ↔ ∃ contents, fs.stat path = some (.file contents) := by
  unfold isFile
  split
  · next contents hstat => exact iff_of_true rfl ⟨contents, hstat⟩
  · next hnot => exact iff_of_false Bool.false_ne_true fun ⟨contents, hstat⟩ => hnot contents hstat

theorem fileText_eq_some {text : String} :
    fileText fs path = some text ↔ fs.node path = some (.file text) := by
  unfold fileText
  split
  · next contents hnode => simp [hnode]
  · next hnot => simpa using fun hnode => hnot text hnode

/-- A file that is written. -/
structure Wrote (path : FsPath) (contents : String) (fs fs' : Fs) : Prop where
  below : Fs.Below fs fs'
  node : fs'.node = Function.update fs.node path (some (.file contents))
  stat : (∀ c ∈ path.getLast?, Fs.IsName c) → fs'.stat path = some (.file contents)

theorem writeFile_cases (path : FsPath) (contents : String) (fs : Fs) :
    writeFile path contents fs = (fs, false) ∨
      ∃ fs', writeFile path contents fs = (fs', true) ∧ Wrote path contents fs fs' := by
  unfold writeFile
  by_cases hplace : fs.place path = some path
  · rw [if_pos hplace]
    unfold Fs.put
    rw [hplace]
    dsimp only
    by_cases htakes : Fs.takesFile (fs.node path) = true
    · have hbelow := Fs.below_update htakes contents
      rw [if_pos htakes]
      exact .inr ⟨_, rfl, hbelow, rfl, fun hname =>
        Fs.stat_of_place hname hplace hbelow (Function.update_self ..)⟩
    · rw [if_neg htakes]
      exact .inl rfl
  · rw [if_neg hplace]
    exact .inl rfl

theorem Wrote.text (h : Wrote path contents fs fs') : fileText fs' path = some contents :=
  fileText_eq_some.mpr (h.node ▸ Function.update_self ..)

theorem Wrote.other (h : Wrote path contents fs fs') {q : FsPath} (hq : q ≠ path) :
    fileText fs' q = fileText fs q := by
  unfold fileText
  rw [h.node, Function.update_of_ne hq]

/-! ## What stays of the goals -/

/-- Files stay, but for those that are written; those that are appended to become longer. -/
structure Spares (written appended : List FsPath) (fs fs' : Fs) : Prop where
  below : Fs.Below fs fs'
  texts : ∀ path text, fileText fs path = some text → path ∉ written →
    ∃ more, fileText fs' path = some (text ++ more) ∧ (path ∉ appended → more = "")

theorem Spares.mono {written appended : List FsPath} (h : Spares [] [] fs fs') :
    Spares written appended fs fs' where
  below := h.below
  texts path text htext _ := by
    obtain ⟨more, hmore, hnone⟩ := h.texts path text htext List.not_mem_nil
    exact ⟨more, hmore, fun _ => hnone List.not_mem_nil⟩

/-- **A goal stays reached** where its files are spared. -/
theorem Spares.holds {written appended : List FsPath} (h : Spares written appended fs fs') {goal : Goal}
    (hwritten : ∀ file ∈ goal.files, file.path (machine uname) ∉ written)
    (happended : goal.exact = true → ∀ file ∈ goal.files, file.path (machine uname) ∉ appended)
    (hcellar : cellar ∉ written) (hholds : goal.Holds (site uname) fs) :
    goal.Holds (site uname) fs' := by
  have hthere {path : FsPath} (hpath : isThere fs path = true) : isThere fs' path = true := by
    obtain ⟨n, hn⟩ := Option.isSome_iff_exists.mp hpath
    rcases h.below.stat hn with hn' | ⟨_, _, _, hn'⟩
    · exact Option.isSome_iff_exists.mpr ⟨_, hn'⟩
    · exact Option.isSome_iff_exists.mpr ⟨_, hn'⟩
  have hexact (hall : goal.exact = true) (file : File) (hfile : file ∈ goal.files) (text : String)
      (htext : fileText fs (file.path (machine uname)) = some text) :
      fileText fs' (file.path (machine uname)) = some text := by
    obtain ⟨more, hmore, hnone⟩ := h.texts _ text htext (hwritten file hfile)
    rwa [hnone (happended hall file hfile), String.append_empty] at hmore
  induction goal with
  | has file line =>
    obtain ⟨text, htext, hline⟩ := grep_machine.mp hholds
    obtain ⟨more, hmore, -⟩ := h.texts _ text htext (hwritten file (List.mem_singleton_self _))
    refine grep_machine.mpr ⟨_, hmore, hline.trans ?_⟩
    rw [String.toList_append]
    exact (List.prefix_append _ _).isInfix
  | copied dest src =>
    obtain ⟨text, hdest, hsrc⟩ := cmp_machine.mp hholds
    exact cmp_machine.mpr ⟨text, hexact rfl dest (List.mem_cons_self ..) text hdest,
      hexact rfl src (List.mem_cons_of_mem _ (List.mem_singleton_self _)) text hsrc⟩
  | holds file content =>
    refine ⟨isFile_iff.mpr ?_, ?_⟩
    · obtain ⟨contents, hstat⟩ := isFile_iff.mp hholds.1
      rcases h.below.stat hstat with hstat' | ⟨_, contents', _, hstat'⟩
      · exact ⟨contents, hstat'⟩
      · exact ⟨contents', hstat'⟩
    · have htext : fileText fs (file.path (machine uname)) = some (content ++ "\n") :=
        beq_iff_eq.mp hholds.2
      exact beq_iff_eq.mpr (hexact rfl file (List.mem_singleton_self _) _ htext)
  | directory path => exact h.below.isDirectory hholds
  | there path => exact hthere hholds
  | present path => exact hholds.imp h.below.isDirectory hthere
  | brewed package =>
    obtain ⟨cur, hcur, hfound⟩ := hholds
    obtain rfl : Rc.brewed fs = cur := Option.some.inj hcur
    refine ⟨_, rfl, decide_eq_true ((of_decide_eq_true hfound).trans ?_)⟩
    unfold Rc.brewed
    cases htext : fileText fs cellar with
    | none => exact List.nil_infix
    | some text =>
      obtain ⟨more, hmore, -⟩ := h.texts _ text htext hcellar
      rw [hmore, Option.getD_some, Option.getD_some, String.toList_append]
      exact (List.prefix_append _ _).isInfix
  | installed packages =>
    intro package hpackage
    obtain ⟨n, hn⟩ := Option.isSome_iff_exists.mp (hholds package hpackage)
    rcases h.below _ n hn with hn' | ⟨_, _, _, hn'⟩
    · exact Option.isSome_iff_exists.mpr ⟨_, hn'⟩
    · exact Option.isSome_iff_exists.mpr ⟨_, hn'⟩
  | hasSudo => exact hholds
  | when c goal ih => exact fun hc => ih hwritten happended (hholds hc) hexact

/-! ## What it documents -/

variable {c : Command}

theorem Sane.update (h : Sane fs) {n : Node} (hn : n ≠ .dir ∨ path ∉ spots)
    (hnode : fs'.node = Function.update fs.node path (some n)) : Sane fs' := by
  intro q hq
  rw [hnode]
  by_cases heq : q = path
  · subst heq
    rw [Function.update_self]
    exact fun hdir => hn.elim (fun hne => hne (Option.some.inj hdir)) fun hnot => hnot hq
  · rw [Function.update_of_ne heq]
    exact h q hq

theorem Sane.writeFile (h : Sane fs) (path : FsPath) (contents : String) :
    Sane (writeFile path contents fs).1 := by
  rcases writeFile_cases path contents fs with hnot | ⟨fs', hwrote, hspec⟩
  · rwa [hnot]
  · rw [hwrote]
    exact h.update (.inl Node.noConfusion) hspec.node

theorem Sane.makeNode (h : Sane fs) {n : Node} (hn : n ≠ .dir ∨ path ∉ spots) :
    Sane (makeNode path n fs).1 := by
  unfold Rc.makeNode
  split
  · exact h.update hn rfl
  · exact h

theorem Sane.install (h : Sane fs) (packages : List String) :
    Sane (packages.foldl (fun fs p => (Rc.makeNode (rpm p) (.file "") fs).1) fs) := by
  induction packages generalizing fs with
  | nil => exact h
  | cons p packages ih => exact ih (h.makeNode (.inl Node.noConfusion))

theorem Sane.mkdirAll (h : Sane fs) (may : FsPath → Bool) {dir : FsPath}
    (hdir : dir ∈ ownDirs (machine uname)) : Sane (Fs.mkdirAll may [] dir fs).1 := by
  intro q hq hmade
  obtain ⟨-, -, -, -, -, hnames⟩ := spots_spec q hq
  rcases Fs.dir_mkdirAll hmade with hwas | ⟨c, hc, hlast⟩
  · exact h q hq hwas
  · exact hnames dir hdir c hc hlast

/-- A copy, where no directory is in its place. -/
theorem runOn_cp (hsane : Sane fs) (src : FsPath) {dest : FsPath} (hdest : dest ∈ spots) :
    runOn (.cp src dest) fs = match fileText fs src with
      | some text => writeFile dest text fs
      | none => (fs, false) := by
  have hnot : ¬ fs.isDir dest = true := by
    intro hdir
    rcases Bool.or_eq_true_iff.mp hdir with hroot | hnode
    · exact (spots_spec dest hdest).1 (List.isEmpty_iff.mp hroot)
    · exact hsane dest hdest (beq_iff_eq.mp hnode)
  unfold runOn
  dsimp only
  rw [if_neg hnot]

/-- Installing packages, whether all of them are there in the end or not. -/
theorem runOn_dnf (packages : List String) (fs : Fs) : (runOn (.dnfInstall packages) fs).1
    = packages.foldl (fun fs p => (makeNode (rpm p) (.file "") fs).1) fs := rfl

theorem Own.sane (h : Own (machine uname) c) (hsane : Sane fs) : Sane (runOn c fs).1 := by
  cases h with
  | append | tee | download | brew => exact hsane.writeFile _ _
  | copy src dest =>
    rw [runOn_cp hsane _ (path_mem_spots uname dest)]
    split
    · exact hsane.writeFile _ _
    · exact hsane
  | save file htmp =>
    cases htmp
    rw [runOn_cp hsane _ List.mem_cons_self]
    split
    · exact hsane.writeFile _ _
    · exact hsane
  | link => exact hsane.makeNode (.inl Node.noConfusion)
  | clone =>
    refine hsane.makeNode (.inr fun hmem => (spots_spec _ hmem).2.2.1 ?_)
    exact List.dropLast_concat
  | dnf =>
    rw [runOn_dnf]
    exact hsane.install dnfPackages
  | compile => exact hsane

end Machine

end Holchain.Rc
