import Mathlib.Logic.Function.Basic
import Mathlib.Order.Basic

/-!
# Lib.FileTree — directories, files and links

A file system says what is at each path from its root. It is below another one that has the same and
maybe more (`≤`). `mkdirAll` is `mkdir -p`: it goes down a path and makes what is missing; whether it
will make anything can be told before (`makes`). Where more is made and only files are written
(`Below`), a path leads where it led before.
-/

namespace Holchain.Lib

/-- A path, by its names. -/
abbrev FsPath := List String

/-- What is at a path. -/
inductive Node where
  | dir
  | file (contents : String)
  /-- a symbolic link, from the root or from the directory it is in -/
  | link (absolute : Bool) (target : FsPath)
  deriving DecidableEq

/-- A file system. -/
@[ext]
structure Fs where
  node : FsPath → Option Node

namespace Fs

/-- What one has, the other has as well. -/
instance : PartialOrder Fs where
  le fs fs' := ∀ p n, fs.node p = some n → fs'.node p = some n
  le_refl _ _ _ h := h
  le_trans _ _ _ h h' p n hn := h' p n (h p n hn)
  le_antisymm fs fs' h h' := by
    apply Fs.ext
    funext p
    cases hn : fs.node p with
    | some n => exact (h p n hn).symm
    | none =>
      cases hn' : fs'.node p with
      | none => rfl
      | some n =>
        rw [h' p n hn'] at hn
        cases hn

/-- With a directory more. -/
def addDir (fs : Fs) (p : FsPath) : Fs := ⟨Function.update fs.node p (some .dir)⟩

/-- The root is a directory. -/
def isDir (fs : Fs) (p : FsPath) : Bool := p.isEmpty || fs.node p == some .dir

/-- Going down a path from a directory; `follow` goes on behind a link. -/
def descend (fs : Fs) (follow : FsPath → FsPath → Option FsPath) : FsPath → FsPath → Option FsPath
  | _, [] => none
  | here, c :: rest =>
    let p := if c = ".." then here.dropLast else if c = "." then here else here ++ [c]
    match (if fs.isDir p then some .dir else fs.node p) with
    | none => none
    | some (.link absolute target) => follow (if absolute then [] else here) (target ++ rest)
    | some _ =>
      if rest.isEmpty then some p
      else if fs.isDir p then descend fs follow p rest
      else none

/-- The same with as many links on the way. -/
def walk (fs : Fs) : ℕ → FsPath → FsPath → Option FsPath
  | 0 => fs.descend fun _ _ => none
  | links + 1 => fs.descend (fs.walk links)

/-- Where a name in a directory leads to. The kernel follows 40 links. -/
def enter (fs : Fs) (here : FsPath) (c : String) : Option FsPath := fs.walk 40 here [c]

/-- The directory that a path leads to. -/
def directory (fs : Fs) : FsPath → FsPath → Option FsPath
  | here, [] => some here
  | here, c :: rest =>
    match fs.enter here c with
    | some p => if fs.isDir p then fs.directory p rest else none
    | none => none

/-- `[ -d path ]`. -/
def isDirectory (fs : Fs) (path : FsPath) : Bool := (fs.directory [] path).isSome

/-- What a path leads to. -/
def stat (fs : Fs) (path : FsPath) : Option Node :=
  match fs.directory [] path.dropLast, path.getLast? with
  | some here, some c => (fs.enter here c).bind fs.node
  | here, none => here.map fun _ => .dir
  | none, some _ => none

/-- Where a path has its file: what it leads to, or its name where the directory has nothing of it. -/
def place (fs : Fs) (path : FsPath) : Option FsPath :=
  match fs.directory [] path.dropLast, path.getLast? with
  | some here, some c =>
    match fs.enter here c with
    | some p => some p
    | none => if (fs.node (here ++ [c])).isNone then some (here ++ [c]) else none
  | _, _ => none

/-- A file may be written there. -/
def takesFile : Option Node → Bool
  | none | some (.file _) => true
  | some .dir | some (.link _ _) => false

/-- Writing a file, which is made where it is missing: the file system afterwards, and whether it
succeeds. -/
def put (fs : Fs) (path : FsPath) (contents : String) : Fs × Bool :=
  match fs.place path with
  | some p =>
    if takesFile (fs.node p) then (⟨Function.update fs.node p (some (.file contents))⟩, true)
    else (fs, false)
  | none => (fs, false)

section Mkdir

variable (may : FsPath → Bool)

/-- `mkdir -p`, from a directory, where a directory may be made: the file system afterwards, and
whether it succeeds. -/
def mkdirAll : FsPath → FsPath → Fs → Fs × Bool
  | _, [], fs => (fs, true)
  | here, c :: rest, fs =>
    match fs.enter here c with
    | some p => if fs.isDir p then mkdirAll p rest fs else (fs, false)
    | none =>
      if (fs.node (here ++ [c])).isNone && may (here ++ [c]) then
        mkdirAll (here ++ [c]) rest (fs.addDir (here ++ [c]))
      else (fs, false)

/-- Whether `mkdir -p` makes a directory. -/
def makes (fs : Fs) : FsPath → FsPath → Bool
  | _, [] => false
  | here, c :: rest =>
    match fs.enter here c with
    | some p => fs.isDir p && makes fs p rest
    | none => (fs.node (here ++ [c])).isNone && may (here ++ [c])

end Mkdir

/-! ## Laws -/

variable {may : FsPath → Bool} {fs : Fs} {here path : FsPath}

theorem lt_addDir {p : FsPath} (h : fs.node p = none) : fs < fs.addDir p := by
  refine lt_of_le_not_ge (fun q n hn => ?_) fun hle => ?_
  · have hne : q ≠ p := by
      rintro rfl
      rw [h] at hn
      cases hn
    exact (Function.update_of_ne hne (some .dir) fs.node).trans hn
  · have hdir : (fs.addDir p).node p = some .dir := Function.update_self p _ _
    have hn := hle p .dir hdir
    rw [h] at hn
    cases hn

theorem le_mkdirAll (may : FsPath → Bool) (here path : FsPath) (fs : Fs) :
    fs ≤ (mkdirAll may here path fs).1 := by
  induction path generalizing here fs with
  | nil => exact le_refl fs
  | cons c rest ih =>
    unfold mkdirAll
    split
    · split
      · exact ih _ fs
      · exact le_refl fs
    · split
      · next hmake =>
        have hnone := Option.isNone_iff_eq_none.mp (Bool.and_eq_true_iff.mp hmake).1
        exact (lt_addDir hnone).le.trans (ih _ _)
      · exact le_refl fs

/-- **Where a directory is made the file system is another one.** -/
theorem lt_mkdirAll (h : fs.makes may here path = true) : fs < (mkdirAll may here path fs).1 := by
  induction path generalizing here with
  | nil => cases h
  | cons c rest ih =>
    unfold makes at h
    unfold mkdirAll
    split
    · next p henter =>
      rw [henter] at h
      obtain ⟨hdir, hrest⟩ := Bool.and_eq_true_iff.mp h
      rw [if_pos hdir]
      exact ih hrest
    · next henter =>
      rw [henter] at h
      rw [if_pos h]
      have hnone := Option.isNone_iff_eq_none.mp (Bool.and_eq_true_iff.mp h).1
      exact (lt_addDir hnone).trans_le (le_mkdirAll may _ rest _)

/-- Otherwise it succeeds if the path is one of directories. -/
theorem mkdirAll_eq (h : ¬ fs.makes may here path = true) :
    mkdirAll may here path fs = (fs, (fs.directory here path).isSome) := by
  induction path generalizing here with
  | nil => rfl
  | cons c rest ih =>
    unfold makes at h
    unfold mkdirAll directory
    split
    · next p henter =>
      rw [henter] at h
      by_cases hdir : fs.isDir p = true
      · rw [if_pos hdir, if_pos hdir]
        exact ih fun hrest => h (Bool.and_eq_true_iff.mpr ⟨hdir, hrest⟩)
      · rw [if_neg hdir, if_neg hdir]
        rfl
    · next henter =>
      rw [henter] at h
      rw [if_neg h]
      rfl

/-! ### What stays -/

/-- What is there stays, but for the contents of files. -/
def Below (fs fs' : Fs) : Prop :=
  ∀ p n, fs.node p = some n →
    fs'.node p = some n ∨ ∃ contents contents', n = .file contents ∧ fs'.node p = some (.file contents')

variable {fs' : Fs}

theorem Below.isDir (h : Below fs fs') {p : FsPath} (hdir : fs.isDir p = true) :
    fs'.isDir p = true := by
  rcases Bool.or_eq_true_iff.mp hdir with hroot | hnode
  · exact Bool.or_eq_true_iff.mpr (.inl hroot)
  · rcases h p .dir (beq_iff_eq.mp hnode) with hn | ⟨contents, contents', hfile, -⟩
    · exact Bool.or_eq_true_iff.mpr (.inr (beq_iff_eq.mpr hn))
    · cases hfile

/-- A way down a path that leads somewhere. -/
theorem Below.descend (h : Below fs fs') {follow follow' : FsPath → FsPath → Option FsPath}
    (hfollow : ∀ here path r, follow here path = some r → follow' here path = some r)
    {r : FsPath} (hr : fs.descend follow here path = some r) :
    fs'.descend follow' here path = some r := by
  induction path generalizing here with
  | nil => cases hr
  | cons c rest ih =>
    unfold Fs.descend at hr ⊢
    dsimp only at hr ⊢
    generalize (if c = ".." then here.dropLast else if c = "." then here else here ++ [c]) = p at hr ⊢
    by_cases hdir : fs.isDir p = true
    · have hdir' := h.isDir hdir
      rw [if_pos hdir] at hr
      rw [if_pos hdir']
      dsimp only at hr ⊢
      by_cases hrest : rest.isEmpty = true
      · rw [if_pos hrest] at hr ⊢
        exact hr
      · rw [if_neg hrest, if_pos hdir] at hr
        rw [if_neg hrest, if_pos hdir']
        exact ih hr
    · rw [if_neg hdir] at hr
      cases hn : fs.node p with
      | none =>
        rw [hn] at hr
        cases hr
      | some n =>
        rw [hn] at hr
        have hnot (n' : Node) (hn' : fs'.node p = some n') (hne : n' ≠ .dir) :
            ¬ fs'.isDir p = true := by
          rintro hdir'
          rcases Bool.or_eq_true_iff.mp hdir' with hroot | hnode
          · exact hdir (Bool.or_eq_true_iff.mpr (.inl hroot))
          · rw [hn'] at hnode
            exact hne (Option.some.inj (beq_iff_eq.mp hnode))
        cases n with
        | dir => exact absurd (Bool.or_eq_true_iff.mpr (.inr (beq_iff_eq.mpr hn))) hdir
        | file contents =>
          obtain ⟨contents', hn'⟩ : ∃ contents', fs'.node p = some (.file contents') := by
            rcases h p _ hn with hn' | ⟨_, contents', _, hn'⟩
            · exact ⟨contents, hn'⟩
            · exact ⟨contents', hn'⟩
          rw [if_neg (hnot _ hn' Node.noConfusion), hn']
          dsimp only at hr ⊢
          by_cases hrest : rest.isEmpty = true
          · rw [if_pos hrest] at hr ⊢
            exact hr
          · rw [if_neg hrest, if_neg hdir] at hr
            cases hr
        | link absolute target =>
          have hn' : fs'.node p = some (.link absolute target) := by
            rcases h p _ hn with hn' | ⟨_, _, hfile, -⟩
            · exact hn'
            · cases hfile
          rw [if_neg (hnot _ hn' Node.noConfusion), hn']
          exact hfollow _ _ _ hr

theorem Below.walk (h : Below fs fs') {links : ℕ} {r : FsPath}
    (hr : fs.walk links here path = some r) : fs'.walk links here path = some r := by
  induction links generalizing here path r with
  | zero => exact h.descend (fun _ _ _ hnone => absurd hnone (Option.some_ne_none _).symm) hr
  | succ links ih => exact h.descend (fun _ _ _ hfollow => ih hfollow) hr

theorem Below.enter (h : Below fs fs') {c : String} {p : FsPath} (hp : fs.enter here c = some p) :
    fs'.enter here c = some p := h.walk hp

/-- **A directory stays a directory.** -/
theorem Below.directory (h : Below fs fs') {p : FsPath} (hp : fs.directory here path = some p) :
    fs'.directory here path = some p := by
  induction path generalizing here with
  | nil => exact hp
  | cons c rest ih =>
    unfold Fs.directory at hp ⊢
    cases henter : fs.enter here c with
    | none =>
      rw [henter] at hp
      cases hp
    | some q =>
      rw [henter] at hp
      rw [h.enter henter]
      obtain ⟨hdir, hp⟩ := Option.ite_none_right_eq_some.mp hp
      dsimp only
      rw [if_pos (h.isDir hdir)]
      exact ih hp

theorem Below.isDirectory (h : Below fs fs') (hdir : fs.isDirectory path = true) :
    fs'.isDirectory path = true := by
  obtain ⟨p, hp⟩ := Option.isSome_iff_exists.mp hdir
  exact Option.isSome_iff_exists.mpr ⟨p, h.directory hp⟩

theorem Below.stat (h : Below fs fs') {n : Node} (hn : fs.stat path = some n) :
    fs'.stat path = some n
      ∨ ∃ contents contents', n = .file contents ∧ fs'.stat path = some (.file contents') := by
  unfold Fs.stat at hn ⊢
  cases hlast : path.getLast? with
  | none =>
    rw [List.getLast?_eq_none_iff] at hlast
    subst hlast
    exact .inl hn
  | some c =>
    rw [hlast] at hn
    cases hdir : fs.directory [] path.dropLast with
    | none =>
      rw [hdir] at hn
      cases hn
    | some p =>
      rw [hdir] at hn
      obtain ⟨q, henter, hq⟩ := Option.bind_eq_some_iff.mp hn
      rw [h.directory hdir]
      dsimp only
      rw [h.enter henter]
      exact h q n hq

/-- A name that is no step up. -/
def IsName (c : String) : Prop := c ≠ ".." ∧ c ≠ "."

/-! ### Files that are written -/

section Put

variable {contents : String} {p : FsPath} {c : String}

theorem not_isDir_of_file (h : fs.node p = some (.file contents)) (hroot : p ≠ []) :
    ¬ fs.isDir p = true := by
  intro hdir
  rcases Bool.or_eq_true_iff.mp hdir with hempty | hnode
  · exact hroot (List.isEmpty_iff.mp hempty)
  · rw [h] at hnode
    cases beq_iff_eq.mp hnode

theorem enter_file (hname : IsName c) (h : fs.node (here ++ [c]) = some (.file contents)) :
    fs.enter here c = some (here ++ [c]) := by
  have hdir := not_isDir_of_file h (List.concat_ne_nil c here)
  unfold Fs.enter Fs.walk Fs.descend
  dsimp only
  rw [if_neg hname.1, if_neg hname.2, if_neg hdir, h]
  rfl

/-- What is written can be read. -/
theorem stat_of_place (hname : ∀ c ∈ path.getLast?, IsName c) (hplace : fs.place path = some p)
    (hbelow : Below fs fs') (hfile : fs'.node p = some (.file contents)) :
    fs'.stat path = some (.file contents) := by
  unfold Fs.place at hplace
  unfold Fs.stat
  cases hlast : path.getLast? with
  | none =>
    rw [hlast] at hplace
    split at hplace
    · next hsome => cases hsome
    · cases hplace
  | some c =>
    cases hdir : fs.directory [] path.dropLast with
    | none =>
      rw [hdir] at hplace
      cases hplace
    | some here =>
      rw [hdir, hlast] at hplace
      dsimp only at hplace
      have hnext : fs'.enter here c = some p := by
        cases henter : fs.enter here c with
        | some q =>
          rw [henter] at hplace
          cases hplace
          exact hbelow.enter henter
        | none =>
          rw [henter] at hplace
          obtain ⟨-, hp⟩ := Option.ite_none_right_eq_some.mp hplace
          cases hp
          exact enter_file (hname c hlast) hfile
      rw [hbelow.directory hdir]
      dsimp only
      rw [hnext]
      exact hfile

theorem below_update (h : takesFile (fs.node p) = true) (contents : String) :
    Below fs ⟨Function.update fs.node p (some (.file contents))⟩ := by
  intro q n hn
  by_cases heq : q = p
  · subst heq
    rw [hn] at h
    cases n with
    | file old => exact .inr ⟨old, contents, rfl, Function.update_self ..⟩
    | dir => cases h
    | link absolute target => cases h
  · exact .inl ((Function.update_of_ne heq ..).trans hn)

/-- **A file that is written** has its contents, and nothing else changes. -/
theorem put_spec (hname : ∀ c ∈ path.getLast?, IsName c) (h : fs.put path contents = (fs', true)) :
    Below fs fs' ∧ fs'.stat path = some (.file contents)
      ∧ ∃ p, fs.place path = some p ∧ fs'.node = Function.update fs.node p (some (.file contents)) := by
  unfold Fs.put at h
  split at h
  · next p hplace =>
    split at h
    · next htakes =>
      cases h
      have hbelow := below_update htakes contents
      exact ⟨hbelow, stat_of_place hname hplace hbelow (Function.update_self ..), p, hplace, rfl⟩
    · cases h
  · cases h

/-- There is a file, or nothing in a directory that is there. -/
def HasRoom (fs : Fs) (path : FsPath) : Prop :=
  (∃ contents, fs.stat path = some (.file contents)) ∨
    ∃ here c, fs.directory [] path.dropLast = some here ∧ path.getLast? = some c
      ∧ fs.enter here c = none ∧ fs.node (here ++ [c]) = none

/-- **Where there is room a file can be written.** -/
theorem HasRoom.put (h : HasRoom fs path) (contents : String) :
    ∃ fs', fs.put path contents = (fs', true) := by
  have hroom : ∃ p, fs.place path = some p ∧ takesFile (fs.node p) = true := by
    unfold Fs.place
    rcases h with ⟨old, hstat⟩ | ⟨here, c, hdir, hlast, henter, hnode⟩
    · unfold Fs.stat at hstat
      split at hstat
      · next here c hdir hlast =>
        obtain ⟨p, henter, hnode⟩ := Option.bind_eq_some_iff.mp hstat
        rw [hdir, hlast]
        dsimp only
        rw [henter]
        exact ⟨p, rfl, by rw [hnode]; rfl⟩
      · obtain ⟨_, -, hnode⟩ := Option.map_eq_some_iff.mp hstat
        cases hnode
      · cases hstat
    · rw [hdir, hlast]
      dsimp only
      rw [henter]
      refine ⟨here ++ [c], if_pos (Option.isNone_iff_eq_none.mpr hnode), ?_⟩
      rw [hnode]
      rfl
  obtain ⟨p, hplace, htakes⟩ := hroom
  exact ⟨_, by rw [Fs.put, hplace]; exact if_pos htakes⟩

end Put

/-! ### Directories that are made -/

/-- A directory that is made has one of the names of the path. -/
theorem dir_mkdirAll {q : FsPath} (h : (mkdirAll may here path fs).1.node q = some .dir) :
    fs.node q = some .dir ∨ ∃ c ∈ path, q.getLast? = some c := by
  induction path generalizing here fs with
  | nil => exact .inl h
  | cons c rest ih =>
    unfold mkdirAll at h
    split at h
    · split at h
      · exact (ih h).imp_right fun ⟨c', hc', hlast⟩ => ⟨c', List.mem_cons_of_mem c hc', hlast⟩
      · exact .inl h
    · split at h
      · rcases ih h with hdir | ⟨c', hc', hlast⟩
        · by_cases heq : q = here ++ [c]
          · exact .inr ⟨c, List.mem_cons_self, heq ▸ List.getLast?_concat⟩
          · exact .inl ((Function.update_of_ne heq ..).symm.trans hdir)
        · exact .inr ⟨c', List.mem_cons_of_mem c hc', hlast⟩
      · exact .inl h

end Fs

end Holchain.Lib
