import Holchain.Lib.Bre
import Holchain.Lib.Lines
import Holchain.Laws.Setup

/-!
# Laws.IncludeIn — a line that is put into a file once

`include_in` looks for its line as a basic regular expression in any part of a line, and appends it
as it is. So a line that only looks like it is taken for it, a line that does not match itself is
appended every time, and one behind a line without its end becomes a part of that
(`include_in_iff`). A path of ordinary characters and periods at least matches itself
(`include_in_dotted`).
-/

namespace Holchain.Rc.IncludeIn

open Lib (FsPath Node Fs Line)
open Lib.Bre (grepLine grepLine_dotted Dotted Looks)
open Lib.Line (records Ended)
open Lib.Script

variable {env : Env} {loc : Lib.Bre.Locale} {other : List Char → List Char → Bool} {o : Options}
  {dest : FsPath} {content commentChar : String} {s : State}

/-! ## The file -/

/-- The characters of a file; those of none if there is no file. -/
def text (fs : Fs) (dest : FsPath) : List Char :=
  match fs.stat dest with
  | some (.file contents) => contents.toList
  | _ => []

/-- Its lines. -/
def lines (fs : Fs) (dest : FsPath) : List (Line '\n') := records (text fs dest)

/-- What `grep` and `>>` do with a file that may be read and written: `>>` makes it where it is missing,
in a directory that is there. -/
structure Documented (env : Env) (loc : Lib.Bre.Locale) (other : List Char → List Char → Bool)
    (dest : FsPath) : Prop where
  grep : ∀ pattern fs, env.grep pattern dest fs =
    (lines fs dest).any fun l => grepLine loc other pattern.toList l.val
  append : ∀ line fs, fs.HasRoom dest → ∃ fs', env.run (.append dest line) fs = (fs', true) ∧
    fs'.stat dest = some (.file (String.ofList (text fs dest ++ line.toList ++ ['\n'])))

/-- The line. -/
def entry (content commentChar : String) : String :=
  content ++ " " ++ commentChar ++ "  Added by holchain"

/-- A line of the file matches. -/
def Matches (loc : Lib.Bre.Locale) (other : List Char → List Char → Bool) (content commentChar : String)
    (l : List Char) : Prop :=
  grepLine loc other (entry content commentChar).toList l = true

/-- The line is in the file, those that were there are in the same order, and nothing changes the
second time. -/
structure Included (env : Env) (o : Options) (dest : FsPath) (content commentChar : String)
    (s s' : State) : Prop where
  has : ∃ l ∈ lines s'.fs dest, l.val = (entry content commentChar).toList
  keeps : (lines s.fs dest).Sublist (lines s'.fs dest)
  again : text ((includeIn env o dest content commentChar).final s').fs dest = text s'.fs dest

/-! ## Both branches -/

theorem found_iff (h : Documented env loc other dest) (content commentChar : String) (fs : Fs) :
    env.grep (entry content commentChar) dest fs = true ↔
      ∃ l ∈ lines fs dest, Matches loc other content commentChar l.val := by
  rw [h.grep, List.any_eq_true]
  rfl

theorem run_includeIn (env : Env) (o : Options) (dest : FsPath) (content commentChar : String)
    (s : State) : (includeIn env o dest content commentChar).run.run s =
      (if env.grep (entry content commentChar) dest s.fs then
        echo ("  Already exists in " ++ basename dest)
      else if !o.dryRun then do
        command env (.append dest (entry content commentChar))
        echo ("  Appended config to " ++ basename dest)
      else
        echo ("  Would modify " ++ basename dest) : Lib.Script State Unit).run.run s :=
  rfl

/-- Where `grep` finds the line, nothing is written. -/
theorem run_found (o : Options) (h : env.grep (entry content commentChar) dest s.fs = true) :
    ∃ out, (includeIn env o dest content commentChar).run.run s = (.ok (), ⟨s.fs, out⟩) := by
  refine ⟨s.out ++ ["  Already exists in " ++ basename dest], ?_⟩
  rw [run_includeIn, if_pos h]
  rfl

theorem run_command {c : Command} {fs' : Fs} (h : env.run c s.fs = (fs', true)) :
    (command env c).run.run s = (.ok (), { s with fs := fs' }) := by
  have hattempt : (attempt env c).run.run s
      = (.ok (env.run c s.fs).2, { s with fs := (env.run c s.fs).1 }) := rfl
  rw [h] at hattempt
  exact run_bind_ok hattempt

/-- Otherwise the line is appended. -/
theorem run_added (hdry : o.dryRun = false)
    (h : env.grep (entry content commentChar) dest s.fs = false) {fs' : Fs}
    (happend : env.run (.append dest (entry content commentChar)) s.fs = (fs', true)) :
    ∃ out, (includeIn env o dest content commentChar).run.run s = (.ok (), ⟨fs', out⟩) := by
  refine ⟨s.out ++ ["  Appended config to " ++ basename dest], ?_⟩
  rw [run_includeIn, h, if_neg Bool.false_ne_true, hdry]
  exact run_bind_ok (run_command happend)

/-- The line is one line. -/
theorem entry_line (hcontent : '\n' ∉ content.toList) (hcomment : '\n' ∉ commentChar.toList) :
    '\n' ∉ (entry content commentChar).toList := by
  unfold entry
  simp only [String.toList_append, List.mem_append, not_or]
  exact ⟨⟨⟨hcontent, by decide⟩, hcomment⟩, by decide⟩

theorem entry_ne_nil (content commentChar : String) : (entry content commentChar).toList ≠ [] := by
  unfold entry
  rw [String.toList_append]
  exact List.append_ne_nil_of_right_ne_nil _ (by decide)

/-- It returns. -/
theorem returns (hdoc : Documented env loc other dest) (hdry : o.dryRun = false)
    (content commentChar : String) (hfile : s.fs.HasRoom dest) :
    ∃ s', (includeIn env o dest content commentChar).run.run s = (.ok (), s') := by
  cases hgrep : env.grep (entry content commentChar) dest s.fs with
  | true =>
    obtain ⟨out, hout⟩ := run_found (s := s) o hgrep
    exact ⟨_, hout⟩
  | false =>
    obtain ⟨fs', happend, -⟩ := hdoc.append (entry content commentChar) s.fs hfile
    obtain ⟨out, hout⟩ := run_added hdry hgrep happend
    exact ⟨_, hout⟩

/-! ## When it is included -/

/-- A line matches, and the line is there; or none does, the last one is ended, and the line matches
itself. -/
def Meets (loc : Lib.Bre.Locale) (other : List Char → List Char → Bool) (dest : FsPath)
    (content commentChar : String) (fs : Fs) : Prop :=
  (∃ l ∈ lines fs dest, Matches loc other content commentChar l.val) ∧
      (∃ l ∈ lines fs dest, l.val = (entry content commentChar).toList) ∨
    (∀ l ∈ lines fs dest, ¬ Matches loc other content commentChar l.val) ∧
      Ended '\n' (text fs dest) ∧
      Matches loc other content commentChar (entry content commentChar).toList

theorem included_found (hdoc : Documented env loc other dest)
    (hmatch : ∃ l ∈ lines s.fs dest, Matches loc other content commentChar l.val) {s' : State}
    (hrun : (includeIn env o dest content commentChar).run.run s = (.ok (), s')) :
    Included env o dest content commentChar s s' ↔
      ∃ l ∈ lines s.fs dest, l.val = (entry content commentChar).toList := by
  have hgrep := (found_iff hdoc content commentChar s.fs).mpr hmatch
  obtain ⟨out, hout⟩ := run_found (s := s) o hgrep
  obtain ⟨-, rfl⟩ := Prod.mk.inj (hrun.symm.trans hout)
  constructor
  · intro h
    exact h.has
  · intro h
    refine ⟨h, List.Sublist.refl _, ?_⟩
    obtain ⟨out', hout'⟩ := run_found (s := ⟨s.fs, out⟩) o hgrep
    rw [final, hout']

/-- What `>>` leaves in the file. -/
theorem text_added {fs fs' : Fs} {line : String}
    (h : fs'.stat dest = some (.file (String.ofList (text fs dest ++ line.toList ++ ['\n'])))) :
    text fs' dest = text fs dest ++ line.toList ++ ['\n'] := by
  rw [text, h]
  exact String.toList_ofList

/-- The second time, the line is looked for in its own line too. -/
theorem again_iff (hdoc : Documented env loc other dest) (hdry : o.dryRun = false)
    (content commentChar : String) (hfile : s.fs.HasRoom dest) :
    text ((includeIn env o dest content commentChar).final s).fs dest = text s.fs dest ↔
      ∃ l ∈ lines s.fs dest, Matches loc other content commentChar l.val := by
  rw [← found_iff hdoc]
  cases hgrep : env.grep (entry content commentChar) dest s.fs with
  | true =>
    obtain ⟨out, hout⟩ := run_found (s := s) o hgrep
    rw [final, hout]
    exact iff_of_true rfl rfl
  | false =>
    obtain ⟨fs', happend, hstat⟩ := hdoc.append (entry content commentChar) s.fs hfile
    obtain ⟨out, hout⟩ := run_added hdry hgrep happend
    rw [final, hout]
    refine iff_of_false (fun heq => ?_) Bool.false_ne_true
    have hlength := congrArg List.length ((text_added hstat).symm.trans heq)
    rw [List.length_append, List.length_append, List.length_singleton] at hlength
    omega

/-- The file behind a call that does not find the line. -/
theorem exists_added (hdoc : Documented env loc other dest) (hdry : o.dryRun = false)
    (hfile : s.fs.HasRoom dest)
    (hno : ∀ l ∈ lines s.fs dest, ¬ Matches loc other content commentChar l.val) {s' : State}
    (hrun : (includeIn env o dest content commentChar).run.run s = (.ok (), s')) :
    s'.fs.HasRoom dest ∧
      text s'.fs dest = text s.fs dest ++ (entry content commentChar).toList ++ ['\n'] := by
  have hgrep : env.grep (entry content commentChar) dest s.fs = false := by
    apply Bool.eq_false_iff.mpr
    intro hgrep
    obtain ⟨l, hl, hmatch⟩ := (found_iff hdoc content commentChar s.fs).mp hgrep
    exact hno l hl hmatch
  obtain ⟨fs', happend, hstat⟩ := hdoc.append (entry content commentChar) s.fs hfile
  obtain ⟨out, hout⟩ := run_added hdry hgrep happend
  obtain ⟨-, rfl⟩ := Prod.mk.inj (hrun.symm.trans hout)
  exact ⟨.inl ⟨_, hstat⟩, text_added hstat⟩

/-- A line of its own is there for good where it matches itself. -/
theorem included_ended (hdoc : Documented env loc other dest) (hdry : o.dryRun = false)
    (hfile : s.fs.HasRoom dest) (hline : '\n' ∉ (entry content commentChar).toList)
    (hno : ∀ l ∈ lines s.fs dest, ¬ Matches loc other content commentChar l.val) {s' : State}
    (hrun : (includeIn env o dest content commentChar).run.run s = (.ok (), s'))
    (hended : Ended '\n' (text s.fs dest)) :
    Included env o dest content commentChar s s' ↔
      Matches loc other content commentChar (entry content commentChar).toList := by
  obtain ⟨hfile', htext⟩ := exists_added hdoc hdry hfile hno hrun
  let own : Line '\n' := ⟨(entry content commentChar).toList, hline⟩
  have hlines : lines s'.fs dest = lines s.fs dest ++ [own] := by
    rw [lines, htext]
    exact Lib.Line.records_add hended own
  have hown : own ∈ lines s'.fs dest := by
    rw [hlines]
    exact List.mem_append_right _ (List.mem_singleton_self own)
  have hagain := again_iff hdoc hdry content commentChar hfile'
  constructor
  · intro h
    obtain ⟨l, hl, hmatch⟩ := hagain.mp h.again
    rw [hlines] at hl
    rcases List.mem_append.mp hl with hl | hl
    · exact absurd hmatch (hno l hl)
    · rw [List.mem_singleton.mp hl] at hmatch
      exact hmatch
  · intro hmatch
    refine ⟨⟨own, hown, rfl⟩, ?_, hagain.mpr ⟨own, hown, hmatch⟩⟩
    rw [hlines]
    exact List.sublist_append_left _ _

/-- Behind a line without its end, it changes that line. -/
theorem not_included (hdoc : Documented env loc other dest) (hdry : o.dryRun = false)
    (hfile : s.fs.HasRoom dest) (hline : '\n' ∉ (entry content commentChar).toList)
    (hno : ∀ l ∈ lines s.fs dest, ¬ Matches loc other content commentChar l.val) {s' : State}
    (hrun : (includeIn env o dest content commentChar).run.run s = (.ok (), s'))
    (hended : ¬ Ended '\n' (text s.fs dest)) : ¬ Included env o dest content commentChar s s' := by
  intro h
  obtain ⟨-, htext⟩ := exists_added hdoc hdry hfile hno hrun
  let own : Line '\n' := ⟨(entry content commentChar).toList, hline⟩
  obtain ⟨ls, last, hbefore, hbehind⟩ := Lib.Line.records_join hended own
  have hkeeps := h.keeps
  rw [lines, lines, htext, hbefore, hbehind] at hkeeps
  have hlength : (ls ++ [last]).length = (ls ++ [last.append own]).length := by
    rw [List.length_append, List.length_append]
    rfl
  have hsame := List.append_cancel_left (hkeeps.eq_of_length hlength)
  have hval : last.val = last.val ++ own.val := congrArg Subtype.val (List.cons.inj hsame).1
  exact entry_ne_nil content commentChar (List.append_right_eq_self.mp hval.symm)

/-- The line is put into the file for good, and nothing else changes, if and only if a line matches
it and it is there; or none does, the last line is ended, and the line matches itself. -/
theorem include_in_iff (hdoc : Documented env loc other dest) (hdry : o.dryRun = false)
    (hfile : s.fs.HasRoom dest) (hcontent : '\n' ∉ content.toList)
    (hcomment : '\n' ∉ commentChar.toList) :
    (∃ s', (includeIn env o dest content commentChar).run.run s = (.ok (), s') ∧
        Included env o dest content commentChar s s') ↔
      Meets loc other dest content commentChar s.fs := by
  have hline := entry_line hcontent hcomment
  obtain ⟨s', hrun⟩ := returns hdoc hdry content commentChar hfile
  have hincluded : (∃ s', (includeIn env o dest content commentChar).run.run s = (.ok (), s') ∧
      Included env o dest content commentChar s s') ↔ Included env o dest content commentChar s s' := by
    constructor
    · rintro ⟨s'', hrun', h⟩
      obtain ⟨-, rfl⟩ := Prod.mk.inj (hrun'.symm.trans hrun)
      exact h
    · intro h
      exact ⟨s', hrun, h⟩
  rw [hincluded]
  by_cases hmatch : ∃ l ∈ lines s.fs dest, Matches loc other content commentChar l.val
  · rw [included_found hdoc hmatch hrun]
    constructor
    · intro h
      exact .inl ⟨hmatch, h⟩
    · rintro (⟨-, h⟩ | ⟨hno, -⟩)
      · exact h
      · obtain ⟨l, hl, hl'⟩ := hmatch
        exact absurd hl' (hno l hl)
  · have hno (l : Line '\n') (hl : l ∈ lines s.fs dest) :
        ¬ Matches loc other content commentChar l.val := fun hl' => hmatch ⟨l, hl, hl'⟩
    constructor
    · intro h
      have hended : Ended '\n' (text s.fs dest) := by
        by_contra hended
        exact not_included hdoc hdry hfile hline hno hrun hended h
      exact .inr ⟨hno, hended, (included_ended hdoc hdry hfile hline hno hrun hended).mp h⟩
    · rintro (⟨h, -⟩ | ⟨-, hended, h⟩)
      · exact absurd h hmatch
      · exact (included_ended hdoc hdry hfile hline hno hrun hended).mpr h

/-! ## Paths of ordinary characters and periods -/

/-- For these: the line is there, or nothing in the file looks like it and the last line is
ended. -/
theorem meets_dotted (hdotted : Dotted (entry content commentChar).toList)
    (hoption : (entry content commentChar).toList.head? ≠ some '-') (fs : Fs) :
    Meets loc other dest content commentChar fs ↔
      (∃ l ∈ lines fs dest, l.val = (entry content commentChar).toList) ∨
        Ended '\n' (text fs dest) ∧ ∀ l ∈ lines fs dest, ∀ w,
          Looks (entry content commentChar).toList w → ¬ w <:+: l.val := by
  have hmatches (l : List Char) : Matches loc other content commentChar l ↔
      ∃ w, Looks (entry content commentChar).toList w ∧ w <:+: l :=
    grepLine_dotted other hdotted hoption l
  have hown : Matches loc other content commentChar (entry content commentChar).toList :=
    (hmatches _).mpr ⟨_, Looks.refl _, List.infix_refl _⟩
  constructor
  · rintro (⟨-, hthere⟩ | ⟨hno, hended, -⟩)
    · exact .inl hthere
    · refine .inr ⟨hended, ?_⟩
      intro l hl w hw hin
      exact hno l hl ((hmatches l.val).mpr ⟨w, hw, hin⟩)
  · rintro (⟨l, hl, hval⟩ | ⟨hended, hno⟩)
    · rw [← hval] at hown
      exact .inl ⟨⟨l, hl, hown⟩, l, hl, hval⟩
    · refine .inr ⟨?_, hended, hown⟩
      intro l hl hmatch
      obtain ⟨w, hw, hin⟩ := (hmatches l.val).mp hmatch
      exact hno l hl w hw hin

/-! ## A home -/

/-- Characters by their code points. -/
def posix : Lib.Bre.Locale where
  cls _ := none
  within a b c := a ≤ c && c ≤ b
  equivalent a c := c == a

/-- `grep` refuses what POSIX leaves undefined. -/
def refused (_ _ : List Char) : Bool := false

/-- The root on Linux, where `grep` and `>>` do what they do. -/
def root : Env :=
  { fedora with
    home := ["root"]
    grep := fun pattern dest fs =>
      (lines fs dest).any fun l => grepLine posix refused pattern.toList l.val
    run := fun c fs =>
      match c with
      | .append dest line => fs.put dest (String.ofList (text fs dest ++ line.toList ++ ['\n']))
      | _ => (fs, true) }

/-- Its rc file. -/
def bashrc : FsPath := root.home ++ [".bashrc"]

theorem documented_root : Documented root posix refused bashrc where
  grep _ _ := rfl
  append line fs hroom := by
    obtain ⟨fs', hput⟩ := hroom.put (String.ofList (text fs bashrc ++ line.toList ++ ['\n']))
    have hname : ∀ c ∈ bashrc.getLast?, Fs.IsName c := by
      rintro c ⟨⟩
      exact ⟨by decide, by decide⟩
    exact ⟨fs', hput, (Fs.put_spec hname hput).2.1⟩

/-- A new home. -/
def newHome : Fs := directories [root.home]

/-- The content for a clone in a directory. -/
def clone (dir : String) : String := "source " ++ dir ++ "/bashrc"

/-- A home with one file. -/
def holding (contents : String) : Fs :=
  ⟨Function.update newHome.node bashrc (some (.file contents))⟩

theorem stat_holding (contents : String) : (holding contents).stat bashrc = some (.file contents) := rfl

theorem text_holding (contents : String) : text (holding contents) bashrc = contents.toList := by
  rw [text, stat_holding]

theorem hasRoom_newHome : newHome.HasRoom bashrc := .inr ⟨["root"], ".bashrc", rfl, rfl, rfl, rfl⟩

/-- In a new home the line is put for good. -/
theorem include_in_iff_new :
    ∃ s', (includeIn root ⟨false, "", false⟩ bashrc (clone "/home/u/my.rc") "#").run.run
        ⟨newHome, []⟩ = (.ok (), s') ∧
      Included root ⟨false, "", false⟩ bashrc (clone "/home/u/my.rc") "#" ⟨newHome, []⟩ s' := by
  have hdotted : Dotted (entry (clone "/home/u/my.rc") "#").toList := by decide
  have hnone : lines newHome bashrc = [] := rfl
  apply (include_in_iff documented_root rfl hasRoom_newHome (by decide) (by decide)).mpr
  refine .inr ⟨?_, nofun, ?_⟩
  · rw [hnone]
    exact List.forall_mem_nil _
  · exact (grepLine_dotted refused hdotted (by decide) _).mpr
      ⟨_, Looks.refl _, List.infix_refl _⟩

/-- The line of a clone in `my-rc`. -/
def foreign : String := entry (clone "/home/u/my-rc") "#" ++ "\n"

/-- For a clone in `my.rc` it is taken for its own line, which is not put into the file. -/
theorem foreign_line_taken : Documented root posix refused bashrc ∧
    ∃ s', (includeIn root ⟨false, "", false⟩ bashrc (clone "/home/u/my.rc") "#").run.run
        ⟨holding foreign, []⟩ = (.ok (), s') ∧
      (∀ l ∈ lines s'.fs bashrc, l.val ≠ (entry (clone "/home/u/my.rc") "#").toList) ∧
      ¬ Included root ⟨false, "", false⟩ bashrc (clone "/home/u/my.rc") "#"
        ⟨holding foreign, []⟩ s' := by
  let own : Line '\n' := ⟨(entry (clone "/home/u/my-rc") "#").toList, by decide⟩
  have hlines : lines (holding foreign) bashrc = [own] := by
    have htext : foreign.toList = Lib.Line.unlines [own] := by
      unfold foreign
      rw [String.toList_append]
      rfl
    rw [lines, text_holding, htext]
    exact Lib.Line.records_unlines [own]
  have hdotted : Dotted (entry (clone "/home/u/my.rc") "#").toList := by decide
  have hlooks : Looks (entry (clone "/home/u/my.rc") "#").toList own.val := by
    unfold Looks
    decide
  have hmatch : Matches posix refused (clone "/home/u/my.rc") "#" own.val :=
    (grepLine_dotted refused hdotted (by decide) _).mpr ⟨_, hlooks, List.infix_refl _⟩
  have hgrep := (found_iff documented_root (clone "/home/u/my.rc") "#" (holding foreign)).mpr
    ⟨own, by rw [hlines]; exact List.mem_singleton_self own, hmatch⟩
  obtain ⟨out, hrun⟩ := run_found (s := ⟨holding foreign, []⟩) ⟨false, "", false⟩ hgrep
  have hother (l : Line '\n') (hl : l ∈ lines (holding foreign) bashrc) :
      l.val ≠ (entry (clone "/home/u/my.rc") "#").toList := by
    rw [hlines] at hl
    rw [List.mem_singleton.mp hl]
    decide
  refine ⟨documented_root, _, hrun, hother, ?_⟩
  intro h
  obtain ⟨l, hl, hval⟩ := h.has
  exact hother l hl hval

end Holchain.Rc.IncludeIn
