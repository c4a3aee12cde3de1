import Holchain.Laws.VimPy
import Holchain.Lib.Zipper
import Holchain.Rc.CodeReview

/-!
# Laws.CodeReview — a review is a pass through its lines

What `path_under_cursor` returns in the first column of a line depends on that line alone
(`path_first`). So a buffer whose lines have paths is a list that is gone through (`Shows`).
-/

namespace Holchain.Rc.Vim

namespace VimPy

variable {py : Python} {α β : Type}

/-- A method that neither reads nor changes the editor. -/
def Fixed (m : Method α) : Prop := ∃ result, ∀ editor, m.run.run editor = (result, editor)

theorem fixed_pure (a : α) : Fixed (pure a) := ⟨.ok a, fun _ => rfl⟩

theorem fixed_throw (error : Error) : Fixed (throw error : Method α) :=
  ⟨.error error, fun _ => rfl⟩

theorem Fixed.bind {m : Method α} {next : α → Method β} (h : Fixed m)
    (hnext : ∀ a, Fixed (next a)) : Fixed (m >>= next) := by
  obtain ⟨result, hresult⟩ := h
  cases result with
  | ok a =>
    obtain ⟨result, hlast⟩ := hnext a
    exact ⟨result, fun editor => (run_ok next (hresult editor)).trans (hlast editor)⟩
  | error error =>
    refine ⟨.error error, fun editor => ?_⟩
    rw [ExceptT.run_bind, StateT.run_bind, hresult]
    rfl

theorem fixed_group0 (regex : Lib.Regex ℕ) (text : List ℕ) : Fixed (group0 regex text) := by
  unfold group0
  split
  · exact fixed_pure _
  · exact fixed_throw _

theorem fixed_int (digits : List ℕ) : Fixed (int py digits) := by
  by_cases hfits : Fits py digits
  · rw [int_of_fits hfits]
    exact fixed_pure _
  · rw [int_of_not_fits hfits]
    exact fixed_throw _

/-- Where the word begins and ends, for a line with the cursor in its first column. -/
theorem wordpos_first (py : Python) {c : ℕ} (hblank : ¬ IsBlank c) (row : List ℕ) :
    ∃ result : Except Error (ℕ × ℕ), ∀ editor : Editor, editor.cursor.col = 0 →
      editor.buffer[editor.cursor.line - 1]? = some (c :: row) →
      (wordposUnderCursor py).run.run editor
        = (result.map fun word => some (editor.cursor.line - 1, word.1, word.2), editor) := by
  obtain ⟨left, hleft⟩ := fixed_group0 (wordRegex py) ([] : List ℕ).reverse
  obtain ⟨right, hright⟩ := fixed_group0 (wordRegex py) (c :: row)
  have hfirst (editor : Editor) (hcol : editor.cursor.col = 0)
      (hrow : editor.buffer[editor.cursor.line - 1]? = some (c :: row)) :
      (wordposUnderCursor py).run.run editor = (do
        let leftw ← group0 (wordRegex py) ([] : List ℕ).reverse
        let rightw ← group0 (wordRegex py) (c :: row)
        return some (editor.cursor.line - 1, 0 - leftw.length, 0 + rightw.length) :
          Method (Option (ℕ × ℕ × ℕ))).run.run editor := by
    have htest : ¬ (c = ' '.toNat ∨ c = '\t'.toNat) := hblank
    have hchar : (c :: row)[editor.cursor.col]? = some c := by rw [hcol]; rfl
    have hlength : ¬ (c :: row).length = 0 := Nat.succ_ne_zero _
    apply (run_get editor _).trans
    dsimp only
    rw [subscript_some hrow, pure_bind, if_neg hlength, subscript_some hchar, pure_bind,
      if_neg htest, hcol]
    rfl
  cases left with
  | error error =>
    refine ⟨.error error, fun editor hcol hrow => (hfirst editor hcol hrow).trans ?_⟩
    rw [ExceptT.run_bind, StateT.run_bind, hleft]
    rfl
  | ok leftw =>
    cases right with
    | error error =>
      refine ⟨.error error, fun editor hcol hrow => (hfirst editor hcol hrow).trans ?_⟩
      rw [run_ok _ (hleft editor), ExceptT.run_bind, StateT.run_bind, hright]
      rfl
    | ok rightw =>
      refine ⟨.ok (0 - leftw.length, 0 + rightw.length), fun editor hcol hrow =>
        (hfirst editor hcol hrow).trans ?_⟩
      rw [run_ok _ (hleft editor), run_ok _ (hright editor)]
      rfl

/-- What is returned for a line on its own, with the cursor in its first column. -/
def pathOf (py : Python) (row : List ℕ) : Except Error (Option (List ℕ × ℕ × ℕ)) :=
  ((pathUnderCursor py).run.run ⟨[row], ⟨1, 0⟩⟩).1

/-- A line that does not begin with a blank has the same path wherever it is. -/
theorem exists_path (py : Python) {c : ℕ} (hblank : ¬ IsBlank c) (row : List ℕ) :
    ∃ result, ∀ editor : Editor, editor.cursor.col = 0 →
      editor.buffer[editor.cursor.line - 1]? = some (c :: row) →
      (pathUnderCursor py).run.run editor = (result, editor) := by
  obtain ⟨word, hword⟩ := wordpos_first py hblank row
  cases word with
  | error error =>
    refine ⟨.error error, fun editor hcol hrow => ?_⟩
    have hwordpos := hword editor hcol hrow
    rw [pathUnderCursor, ExceptT.run_bind, StateT.run_bind, hwordpos]
    rfl
  | ok word =>
    -- behind `wordpos_under_cursor` only the line is looked at
    have hrest : ∃ rest : Method (Option (List ℕ × ℕ × ℕ)), Fixed rest ∧ ∀ editor : Editor,
        editor.cursor.col = 0 → editor.buffer[editor.cursor.line - 1]? = some (c :: row) →
        (pathUnderCursor py).run.run editor = rest.run.run editor := by
      refine ⟨?rest, ?fixed, fun editor hcol hrow => ?run⟩
      case run =>
        apply (run_ok _ (hword editor hcol hrow)).trans
        dsimp only
        apply (run_get editor _).trans
        rw [subscript_some hrow, pure_bind]
      case fixed =>
        split
        · exact fixed_pure _
        · refine (fixed_int _).bind fun line => ?_
          split
          · exact fixed_pure _
          · exact (fixed_int _).bind fun col => fixed_pure _
    obtain ⟨rest, ⟨result, hresult⟩, hrun⟩ := hrest
    exact ⟨result, fun editor hcol hrow => (hrun editor hcol hrow).trans (hresult editor)⟩

/-- **The path in the first column** is that of the line. -/
theorem path_first {row : List ℕ} {target : List ℕ × ℕ × ℕ}
    (h : pathOf py row = .ok (some target)) {editor : Editor} (hcol : editor.cursor.col = 0)
    (hrow : editor.buffer[editor.cursor.line - 1]? = some row) :
    (pathUnderCursor py).run.run editor = (.ok (some target), editor) := by
  cases row with
  | nil => cases h
  | cons c row =>
    by_cases hblank : IsBlank c
    · rcases hblank with rfl | rfl
      · cases h
      · cases h
    · obtain ⟨result, hresult⟩ := exists_path py hblank row
      have halone := hresult ⟨[c :: row], ⟨1, 0⟩⟩ rfl rfl
      have hsame : result = .ok (some target) := (congrArg Prod.fst halone).symm.trans h
      rw [hresult editor hcol hrow, hsame]

end VimPy

namespace CodeReview

open Lib (Zipper)
open VimPy (pathOf)

variable {py : Python} {s : CodeReview} {z z' : Zipper (List ℕ)} {target : List ℕ × ℕ × ℕ}

/-- The buffer is the list, with the cursor in the line in focus. -/
structure Shows (s : CodeReview) (z : Zipper (List ℕ)) : Prop where
  buffer : s.review.buffer = z.toList
  line : s.review.cursor.line = z.before.length + 1

/-- The line's path is a file to open. -/
def Names (py : Python) (row : List ℕ) (target : List ℕ × ℕ × ℕ) : Prop :=
  pathOf py row = .ok (some target)

theorem length_toList (z : Zipper (List ℕ)) :
    z.toList.length = z.before.length + (z.behind.length + 1) := by
  simp [Zipper.toList]

theorem run_bind {α β : Type} {m : Method α} {next : α → Method β} {t : CodeReview} {a : α}
    (h : m.run.run s = (.ok a, t)) : (m >>= next).run.run s = (next a).run.run t := by
  rw [ExceptT.run_bind, StateT.run_bind, h]
  rfl

theorem run_inReview {α : Type} {method : VimPy.Method α} {value : α} {review : Editor}
    (h : method.run.run s.review = (.ok value, review)) :
    (inReview method).run.run s = (.ok value, { s with review }) := by
  have hget : (get : Method CodeReview).run.run s = (.ok s, s) := rfl
  rw [inReview, run_bind hget]
  rw [h]
  rfl

/-- The file of the line in focus is opened. -/
theorem run_openFile (h : Shows s z) (hcol : s.review.cursor.col = 0)
    (hnames : Names py z.focus target) :
    (openFile py).run.run s = (.ok (), { s with opened := s.opened ++ [target] }) := by
  have hrow : s.review.buffer[s.review.cursor.line - 1]? = some z.focus := by
    rw [h.buffer, h.line]
    simp [Zipper.toList]
  rw [openFile, run_bind (run_inReview (VimPy.path_first hnames hcol hrow))]
  rfl

/-- The buffer that is the list, with the cursor in front of the line in focus. -/
def shown (z : Zipper (List ℕ)) (opened : List (List ℕ × ℕ × ℕ)) : CodeReview :=
  { review := ⟨z.toList, ⟨z.before.length + 1, 0⟩⟩, opened }

theorem shows_shown (z : Zipper (List ℕ)) (opened : List (List ℕ × ℕ × ℕ)) :
    Shows (shown z opened) z := ⟨rfl, rfl⟩

theorem run_buffer (h : Shows s z) : buffer.run.run s = (.ok (), shown z s.opened) := by
  obtain ⟨⟨lines, line, col⟩, opened⟩ := s
  obtain ⟨rfl, rfl⟩ := h
  rfl

theorem run_get (s : CodeReview) : (get : Method CodeReview).run.run s = (.ok s, s) := rfl

theorem openFile_shown (opened : List (List ℕ × ℕ × ℕ)) (hnames : Names py z.focus target) :
    (openFile py).run.run (shown z opened) = (.ok (), shown z (opened ++ [target])) :=
  run_openFile (shows_shown z opened) rfl hnames

theorem run_again (h : Shows s z) (hnames : Names py z.focus target) :
    (again py).run.run s = (.ok (), shown z (s.opened ++ [target])) := by
  rw [again, run_bind (run_buffer h), openFile_shown _ hnames]

theorem run_keep (h : Shows s z) (hnames : Names py z.keep.focus target) :
    (keep py).run.run s = (.ok (), shown z.keep (s.opened ++ [target])) := by
  have hline : min (z.before.length + 1 + 1) z.toList.length = z.keep.before.length + 1 := by
    rw [length_toList]
    rcases z with ⟨before, row, _ | ⟨next, behind⟩⟩
    · simp [Zipper.keep]
    · simp only [Zipper.keep, List.length_append, List.length_cons, List.length_nil]
      omega
  have hcursor : (cursor (z.before.length + 1 + 1)).run.run (shown z s.opened)
      = (.ok (), shown z.keep s.opened) := by
    show (Except.ok (), { shown z s.opened with
      review := ⟨z.toList, ⟨min (z.before.length + 1 + 1) z.toList.length, 0⟩⟩ }) = _
    rw [hline, shown, shown, Zipper.toList_keep]
  rw [keep, run_bind (run_buffer h), run_bind (run_get _)]
  exact (run_bind hcursor).trans (openFile_shown _ hnames)

/-- The line in focus is deleted. -/
theorem run_del (z : Zipper (List ℕ)) (opened : List (List ℕ × ℕ × ℕ)) :
    (del (z.before.length + 1 - 1)).run.run (shown z opened) = (.ok (), {
      review := ⟨if z.before ++ z.behind = [] then [[]] else z.before ++ z.behind,
        ⟨z.before.length + 1, 0⟩⟩
      opened }) := by
  have herase : z.toList.eraseIdx z.before.length = z.before ++ z.behind := by
    simp [Zipper.toList, List.eraseIdx_append_of_length_le]
  show (Except.ok (), { shown z opened with review := ⟨if z.toList.eraseIdx z.before.length = [] then
    [[]] else z.toList.eraseIdx z.before.length, ⟨z.before.length + 1, 0⟩⟩ }) = _
  rw [herase]
  rfl

/-- The lines without the one in focus. -/
def without (z : Zipper (List ℕ)) : List (List ℕ) :=
  if z.before ++ z.behind = [] then [[]] else z.before ++ z.behind

theorem discard_eq (py : Python) (h : Shows s z) : (discard py).run.run s = (do
    cursor (z.before.length + 1)
    openFile py : Method Unit).run.run
      { review := ⟨without z, ⟨z.before.length + 1, 0⟩⟩, opened := s.opened } := by
  have hlength : ¬ (without z).length = 0 := by
    unfold without
    split
    · exact Nat.one_ne_zero
    · next hsome => simpa using hsome
  rw [discard, run_bind (run_buffer h), run_bind (run_get _)]
  apply (run_bind (run_del z s.opened)).trans
  rw [run_bind (run_get _)]
  exact congrArg (fun m : Method Unit => m.run.run _) (if_pos hlength)

theorem run_discard (h : Shows s z) (hdrop : z.drop = some z') (hnames : Names py z'.focus target) :
    (discard py).run.run s = (.ok (), shown z' (s.opened ++ [target])) := by
  have hlist := Zipper.toList_drop hdrop
  have hsome : z.before ++ z.behind ≠ [] := by
    rw [← hlist]
    simp [Zipper.toList]
  have hline : min (z.before.length + 1) (z.before ++ z.behind).length = z'.before.length + 1 := by
    rcases z with ⟨before, row, _ | ⟨next, behind⟩⟩
    · obtain ⟨last, hlast, rfl⟩ := Option.map_eq_some_iff.mp hdrop
      have hpos : before ≠ [] := by simpa using hsome
      have hpos := List.length_pos_of_ne_nil hpos
      simp only [List.append_nil, List.length_dropLast]
      omega
    · cases hdrop
      simp
  have hcursor : (cursor (z.before.length + 1)).run.run
      { review := ⟨without z, ⟨z.before.length + 1, 0⟩⟩, opened := s.opened }
      = (.ok (), shown z' s.opened) := by
    rw [without, if_neg hsome]
    show (Except.ok (), ({ review := ⟨z.before ++ z.behind,
      ⟨min (z.before.length + 1) (z.before ++ z.behind).length, 0⟩⟩, opened := s.opened } :
        CodeReview)) = _
    rw [hline, shown, hlist]
  rw [discard_eq py h, run_bind hcursor, openFile_shown _ hnames]

/-- **The only line is deleted**: an empty one is left, and it has no path. -/
theorem run_discard_only (py : Python) (h : Shows s z) (hdrop : z.drop = none) :
    (discard py).run.run s = (.error .type, { s with review := ⟨[[]], ⟨1, 0⟩⟩ }) := by
  obtain ⟨hbefore, hbehind⟩ := Zipper.drop_eq_none_iff.mp hdrop
  rw [discard_eq py h, without, hbefore, hbehind]
  rfl

/-! ## Runs -/

/-- What is done with the line in focus. -/
def Operation.mark : Operation → Option Bool
  | .again => none
  | .keep => some true
  | .discard => some false

/-- What is done with the lines, one after the other. -/
def marks (ops : List Operation) : List Bool := ops.filterMap Operation.mark

/-- The lines whose files are opened: the line in focus again, or the next one. -/
def visits : List (List ℕ) → List Operation → List (List ℕ)
  | _, [] => []
  | rows, .again :: ops => rows.take 1 ++ visits rows ops
  | rows, .keep :: ops => rows.tail.take 1 ++ visits rows.tail ops
  | rows, .discard :: ops => rows.tail.take 1 ++ visits rows.tail ops

theorem performs_cons (op : Operation) (ops : List Operation) {t : CodeReview}
    (h : (perform py op).run.run s = (.ok (), t)) :
    (performs py (op :: ops)).run.run s = (performs py ops).run.run t :=
  run_bind h

/-- **A review is a pass**, as long as there is another line. -/
theorem run_performs {target : List ℕ → List ℕ × ℕ × ℕ} (h : Shows s z)
    (hnames : ∀ row ∈ z.focus :: z.behind, Names py row (target row)) {ops : List Operation}
    (hlength : (marks ops).length ≤ z.behind.length) : ∃ z' s', z.pass (marks ops) = some z'
      ∧ (performs py ops).run.run s = (.ok (), s') ∧ Shows s' z'
      ∧ s'.opened = s.opened ++ (visits (z.focus :: z.behind) ops).map target := by
  induction ops generalizing s z with
  | nil => exact ⟨z, s, rfl, rfl, h, by simp [visits]⟩
  | cons op ops ih =>
    have hfocus := hnames z.focus List.mem_cons_self
    cases op with
    | again =>
      obtain ⟨z', s', hpass, hrun, hshows, hopened⟩ :=
        ih (shows_shown z (s.opened ++ [target z.focus])) hnames hlength
      refine ⟨z', s', hpass, (performs_cons .again ops (run_again h hfocus)).trans hrun, hshows, ?_⟩
      simp [hopened, shown, visits]
    | keep =>
      rcases z with ⟨before, row, _ | ⟨next, behind⟩⟩
      · simp [marks, Operation.mark] at hlength
      · have hnext := hnames next (List.mem_cons_of_mem row List.mem_cons_self)
        obtain ⟨z', s', hpass, hrun, hshows, hopened⟩ :=
          ih (shows_shown ⟨before ++ [row], next, behind⟩ (s.opened ++ [target next]))
            (fun row' hrow' => hnames row' (List.mem_cons_of_mem row hrow'))
            (Nat.le_of_succ_le_succ hlength)
        refine ⟨z', s', hpass, (performs_cons .keep ops (run_keep h hnext)).trans hrun, hshows, ?_⟩
        simp [hopened, shown, visits]
    | discard =>
      rcases z with ⟨before, row, _ | ⟨next, behind⟩⟩
      · simp [marks, Operation.mark] at hlength
      · have hnext := hnames next (List.mem_cons_of_mem row List.mem_cons_self)
        obtain ⟨z', s', hpass, hrun, hshows, hopened⟩ :=
          ih (shows_shown ⟨before, next, behind⟩ (s.opened ++ [target next]))
            (fun row' hrow' => hnames row' (List.mem_cons_of_mem row hrow'))
            (Nat.le_of_succ_le_succ hlength)
        refine ⟨z', s', hpass, (performs_cons .discard ops (run_discard h rfl hnext)).trans hrun, hshows, ?_⟩
        simp [hopened, shown, visits]

/-- **A review opens the files of its lines in their order and leaves the lines that are kept.** It
begins at any line, and goes on as long as there is another one. To discard the last line goes back to
the one before it; where none is left, an empty line is, and the error is that of `*None`. -/
theorem review_pass {target : List ℕ → List ℕ × ℕ × ℕ} {before rows : List (List ℕ)}
    (hnames : ∀ row ∈ before ++ rows, Names py row (target row))
    (hbuffer : s.review.buffer = before ++ rows)
    (hline : s.review.cursor.line = before.length + 1) {ops : List Operation}
    (hlength : (marks ops).length < rows.length) :
    let left := before ++ Zipper.kept rows (marks ops)
    ∃ s', (performs py ops).run.run s = (.ok (), s')
      ∧ s'.review.buffer = left ++ rows.drop (marks ops).length
      ∧ s'.review.cursor.line = left.length + 1
      ∧ s'.opened = s.opened ++ (visits rows ops).map target
      ∧ ((marks ops).length + 1 = rows.length → ((discard py).run.run s').1
          = (if left = [] then .error .type else .ok ())
        ∧ ((discard py).run.run s').2.review.buffer = if left = [] then [[]] else left) := by
  intro left
  have mem_left {row : List ℕ} (h : row ∈ left) : row ∈ before ++ rows :=
    List.mem_append.mpr ((List.mem_append.mp h).imp_right Zipper.mem_of_mem_kept)
  cases rows with
  | nil => cases hlength
  | cons row rows =>
    have hz : Shows s ⟨before, row, rows⟩ := ⟨hbuffer, hline⟩
    obtain ⟨z', s', hpass, hrun, hshows, hopened⟩ := run_performs hz
      (fun row' hrow' => hnames row' (List.mem_append_right before hrow'))
      (Nat.le_of_lt_succ hlength)
    obtain ⟨next, rest, hdrop⟩ : ∃ next rest, (row :: rows).drop (marks ops).length = next :: rest :=
      List.exists_cons_of_ne_nil fun hnil => Nat.not_le.mpr hlength (List.drop_eq_nil_iff.mp hnil)
    have hz' : z' = ⟨left, next, rest⟩ :=
      Option.some.inj (hpass.symm.trans (Zipper.pass_eq before hdrop))
    subst hz'
    refine ⟨s', hrun, ?_, hshows.line, hopened, fun hlast => ?_⟩
    · rw [hshows.buffer, hdrop]
      rfl
    · have hone : ((row :: rows).drop (marks ops).length).length = 1 := by
        rw [List.length_drop]
        omega
      rw [hdrop] at hone
      obtain rfl : rest = [] := List.length_eq_zero_iff.mp (Nat.succ.inj hone)
      by_cases hleft : left = []
      · have hnone : (⟨left, next, []⟩ : Zipper (List ℕ)).drop = none :=
          Zipper.drop_eq_none_iff.mpr ⟨hleft, rfl⟩
        rw [if_pos hleft, if_pos hleft, run_discard_only py hshows hnone]
        exact ⟨rfl, rfl⟩
      · have hlastName := hnames (left.getLast hleft) (mem_left (List.getLast_mem hleft))
        have hback : (⟨left, next, []⟩ : Zipper (List ℕ)).drop
            = some ⟨left.dropLast, left.getLast hleft, []⟩ := by
          simp [Zipper.drop, List.getLast?_eq_some_getLast hleft]
        rw [if_neg hleft, if_neg hleft, run_discard hshows hback hlastName]
        exact ⟨rfl, List.dropLast_append_getLast hleft⟩

/-- A review of three files. -/
def threeFiles : CodeReview :=
  { review := ⟨[points "a.c:3", points "b.c:7:2", points "c.c"], ⟨1, 0⟩⟩, opened := [] }

/-- What is opened for a line. -/
def opens (row : List ℕ) : List ℕ × ℕ × ℕ :=
  match pathOf VimPy.latin row with
  | .ok (some target) => target
  | _ => ([], 0, 0)

/-- The first one is kept and the second one is not. -/
theorem review_pass_three : ∃ s',
    (performs VimPy.latin [.keep, .again, .discard]).run.run threeFiles = (.ok (), s')
      ∧ s'.review.buffer = [points "a.c:3", points "c.c"]
      ∧ s'.opened = [(points "b.c", 7, 2), (points "b.c", 7, 2), (points "c.c", 0, 0)] := by
  have hnames : ∀ row ∈ [] ++ threeFiles.review.buffer, Names VimPy.latin row (opens row) := by
    intro row hrow
    simp only [threeFiles, List.nil_append, List.mem_cons, List.not_mem_nil, or_false] at hrow
    rcases hrow with rfl | rfl | rfl <;> rfl
  have hlength : (marks [.keep, .again, .discard]).length < threeFiles.review.buffer.length := by
    decide
  obtain ⟨s', hrun, hbuffer, -, hopened, -⟩ := review_pass hnames rfl rfl hlength
  exact ⟨s', hrun, hbuffer, hopened⟩

end CodeReview

end Holchain.Rc.Vim
