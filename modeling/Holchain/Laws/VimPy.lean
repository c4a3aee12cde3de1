import Holchain.Lib.Runs
import Holchain.Rc.VimPy

/-!
# Laws.VimPy — what is under the cursor

`wordpos_under_cursor` takes the column of the cursor, which counts bytes, for an index of the line,
which counts characters. What it looks at stands behind the cursor by what the bytes before the
cursor are more than characters. `path_under_cursor_iff` says when that is the same run.
-/

namespace Holchain.Rc.Vim.VimPy

open Lib (Regex Run)

variable {py : Python} {editor : Editor} {row before run behind : List ℕ} {i ch : ℕ}

/-! ## The two expressions -/

/-- A line has no line feed; vim shows one where a NUL stands. -/
def Plain (text : List ℕ) : Prop := '\n'.toNat ∉ text

instance (text : List ℕ) : Decidable (Plain text) := inferInstanceAs (Decidable (¬ _))

theorem takeWhile_anyChar {text : List ℕ} (h : Plain text) : text.takeWhile anyChar = text := by
  apply List.takeWhile_eq_self_iff.mpr
  intro c hc
  have hne : c ≠ '\n'.toNat := fun heq => h (heq ▸ hc)
  exact decide_eq_true hne

/-- The first group is all that there is of a word. -/
theorem group0_wordRegex (py : Python) {text : List ℕ} (h : Plain text) :
    group0 (wordRegex py) text = pure (text.takeWhile (inWord py)) := by
  let s : Regex.Place ℕ := .first text
  let word := text.takeWhile (inWord py)
  have hlength : word.length ≤ text.length := (List.takeWhile_prefix _).length_le
  have hword : (Regex.group 1 (.star (.one (inWord py)))).first s
      = some ((s.advance word.length).capture 1 word) := by
    have hstar := Regex.first_group 1 (Regex.first_star (inWord py) s)
    have hbetween : s.between (s.advance word.length) = word :=
      (s.between_advance hlength).trans (List.prefix_iff_eq_take.mp (List.takeWhile_prefix _)).symm
    exact hstar.trans (congrArg (fun text => some (Regex.Place.capture _ 1 text)) hbetween)
  let t := (s.advance word.length).capture 1 word
  have hrest : t.rest.takeWhile anyChar = t.rest :=
    takeWhile_anyChar fun hmem => h (List.mem_of_mem_drop hmem)
  have hany := Regex.first_star anyChar t
  rw [hrest] at hany
  have hend : (t.advance t.rest.length).rest = [] := List.drop_length
  have hdollar : dollar.first (t.advance t.rest.length) = some (t.advance t.rest.length) := by
    apply Regex.first_ahead
    rw [hend]
    rfl
  have hmatch : (wordRegex py).first s = some (t.advance t.rest.length) :=
    Regex.first_seq (Regex.first_start rfl) (Regex.first_seq hword (Regex.first_seq hany hdollar))
  unfold group0
  rw [hmatch]
  rfl

/-- The numbers that a text begins with: `:L`, or `:L:C`. -/
inductive Written (py : Python) : List ℕ → List ℕ → Option (List ℕ) → Prop
  | line {digits rest : List ℕ} : digits ≠ [] → (∀ d ∈ digits, isDigit py d = true) →
      (∀ d ∈ rest.head?, isDigit py d = false) →
      (∀ rest', rest = ':'.toNat :: rest' → ∀ d ∈ rest'.head?, isDigit py d = false) →
      Written py (':'.toNat :: (digits ++ rest)) digits none
  | column {digits digits' rest : List ℕ} : digits ≠ [] → (∀ d ∈ digits, isDigit py d = true) →
      digits' ≠ [] → (∀ d ∈ digits', isDigit py d = true) →
      (∀ d ∈ rest.head?, isDigit py d = false) →
      Written py (':'.toNat :: (digits ++ ':'.toNat :: (digits' ++ rest))) digits (some digits')

theorem outcomes_char {s : Regex.Place ℕ} {c : Char} {rest : List ℕ} (h : s.rest = c.toNat :: rest) :
    (char c).outcomes s = [s.advance 1] := by
  rw [char, Regex.outcomes_one h, if_pos (decide_eq_true rfl)]

theorem first_char {s : Regex.Place ℕ} {c : Char} {rest : List ℕ} (h : s.rest = c.toNat :: rest) :
    (char c).first s = some (s.advance 1) := by
  rw [Regex.first, outcomes_char h]
  rfl

theorem outcomes_char_nil {s : Regex.Place ℕ} {c : Char} (h : ∀ d ∈ s.rest.head?, d ≠ c.toNat) :
    (char c).outcomes s = [] := by
  cases hrest : s.rest with
  | nil => exact Regex.outcomes_one_nil hrest
  | cons d rest =>
    rw [hrest] at h
    have hd : ¬ decide (d = c.toNat) = true := fun heq => h d rfl (of_decide_eq_true heq)
    rw [char, Regex.outcomes_one hrest, if_neg hd]

/-- A group of digits takes all that there are. -/
theorem first_digits (py : Python) (n : ℕ) {s : Regex.Place ℕ} {digits rest : List ℕ}
    (hrest : s.rest = digits ++ rest) (hne : digits ≠ [])
    (hdigits : ∀ d ∈ digits, isDigit py d = true) (hstop : ∀ d ∈ rest.head?, isDigit py d = false) :
    (Regex.group n (.plus (isDigit py))).first s
      = some ((s.advance digits.length).capture n digits) := by
  have htake : s.rest.takeWhile (isDigit py) = digits := by
    rw [hrest]
    exact Run.takeWhile_append hdigits hstop
  have hlength : digits.length ≤ s.rest.length := by
    rw [hrest, List.length_append]
    exact Nat.le_add_right _ _
  have hplus : (Regex.plus (isDigit py)).first s = some (s.advance digits.length) := by
    rw [← htake] at hne ⊢
    exact Regex.first_plus hne
  have hgroup := Regex.first_group n hplus
  rw [s.between_advance hlength, hrest, List.take_left] at hgroup
  exact hgroup

/-- Behind a number and no second one. -/
theorem outcomes_column_nil (py : Python) {s : Regex.Place ℕ}
    (h : ∀ rest, s.rest = ':'.toNat :: rest → ∀ d ∈ rest.head?, isDigit py d = false) :
    (Regex.group 2 (.seq (char ':') (.group 3 (.plus (isDigit py))))).outcomes s = [] := by
  apply Regex.group_nil
  by_cases hcolon : ∃ rest, s.rest = ':'.toNat :: rest
  · obtain ⟨rest, hrest⟩ := hcolon
    apply Regex.seq_nil_of_single (outcomes_char hrest)
    apply Regex.group_nil
    apply Regex.plus_nil
    have hnext : (s.advance 1).rest = rest := by
      rw [Regex.Place.rest_advance, hrest]
      rfl
    rw [hnext]
    exact Run.takeWhile_append (List.forall_mem_nil _) (h rest hrest)
  · apply Regex.seq_nil
    apply outcomes_char_nil
    intro d hd heq
    obtain ⟨rest, hrest⟩ := List.head?_eq_some_iff.mp hd
    exact hcolon ⟨rest, heq ▸ hrest⟩

theorem first_pathRegex (py : Python) {text digits : List ℕ} {digits' : Option (List ℕ)}
    (h : Written py text digits digits') : ∃ place, (pathRegex py).first (.first text) = some place ∧
      place.groups 1 = some digits ∧ place.groups 3 = digits' := by
  have hstart := Regex.first_start (s := Regex.Place.first text) rfl
  cases h with
  | @line _ rest hne hdigits hstop hcolon =>
    let s : Regex.Place ℕ := (Regex.Place.first (':'.toNat :: (digits ++ rest))).advance 1
    let t := (s.advance digits.length).capture 1 digits
    have hline := first_digits py 1 (s := s) rfl hne hdigits hstop
    have hrest : t.rest = rest := List.drop_left
    have hnone := Regex.first_opt_nil (outcomes_column_nil py (s := t)
      fun rest' hrest' => hcolon rest' (hrest.symm.trans hrest'))
    exact ⟨t, Regex.first_seq hstart (Regex.first_seq (first_char rfl)
      (Regex.first_seq hline hnone)), rfl, rfl⟩
  | @column _ digits' rest hne hdigits hne' hdigits' hstop =>
    let s : Regex.Place ℕ := (Regex.Place.first
      (':'.toNat :: (digits ++ ':'.toNat :: (digits' ++ rest)))).advance 1
    let t := (s.advance digits.length).capture 1 digits
    have hcolon : ∀ d ∈ (':'.toNat :: (digits' ++ rest)).head?, isDigit py d = false := by
      rintro d ⟨⟩
      unfold isDigit
      rw [py.colon]
      rfl
    have hline := first_digits py 1 (s := s) rfl hne hdigits hcolon
    have hrest : t.rest = ':'.toNat :: (digits' ++ rest) := List.drop_left
    have hnext : (t.advance 1).rest = digits' ++ rest := by
      rw [Regex.Place.rest_advance, hrest]
      rfl
    have hcolumn := first_digits py 3 hnext hne' hdigits' hstop
    have hsome := Regex.first_opt (Regex.first_group 2
      (Regex.first_seq (first_char hrest) hcolumn))
    exact ⟨_, Regex.first_seq hstart (Regex.first_seq (first_char rfl)
      (Regex.first_seq hline hsome)), rfl, rfl⟩

/-! ## The methods -/

theorem subscript_some {α : Type} {xs : List α} {n : ℕ} {x : α} (h : xs[n]? = some x) :
    (subscript xs n : Method α) = pure x := by
  unfold subscript
  rw [h]

theorem subscript_none {α : Type} {xs : List α} {n : ℕ} (h : xs[n]? = none) :
    (subscript xs n : Method α) = throw .index := by
  unfold subscript
  rw [h]

theorem run_get {α : Type} (editor : Editor) (next : Editor → Method α) :
    (get >>= next : Method α).run.run editor = (next editor).run.run editor := rfl

/-- What `wordpos_under_cursor` takes for a blank. -/
def IsBlank (c : ℕ) : Prop := c = ' '.toNat ∨ c = '\t'.toNat

instance (c : ℕ) : Decidable (IsBlank c) := inferInstanceAs (Decidable (_ ∨ _))

/-- The bytes of a text. -/
def bytes : List ℕ → ℕ
  | [] => 0
  | c :: text => width c + bytes text

/-- The cursor is on a character of a line that is no blank. -/
structure At (editor : Editor) (row : List ℕ) (i : ℕ) : Prop where
  shown : editor.buffer[editor.cursor.line - 1]? = some row
  col : editor.cursor.col = bytes (row.take i)
  char : ∃ c, row[i]? = some c ∧ ¬ IsBlank c
  plain : Plain row

theorem At.lt (h : At editor row i) : i < row.length := by
  obtain ⟨c, hc, -⟩ := h.char
  exact (List.getElem?_eq_some_iff.mp hc).1

theorem At.ne_zero (h : At editor row i) : ¬ row.length = 0 := Nat.ne_of_gt (Nat.zero_lt_of_lt h.lt)

/-- A character is at least a byte. -/
theorem length_le_bytes (text : List ℕ) : text.length ≤ bytes text := by
  have hwidth (c : ℕ) : 1 ≤ width c := by
    unfold width
    split_ifs <;> decide
  induction text with
  | nil => exact Nat.le_refl 0
  | cons c text ih =>
    have hc := hwidth c
    have hbytes : bytes (c :: text) = width c + bytes text := rfl
    rw [List.length_cons, hbytes]
    omega

theorem At.le_col (h : At editor row i) : i ≤ editor.cursor.col := by
  have hbytes := length_le_bytes (row.take i)
  rw [← h.col, List.length_take_of_le h.lt.le] at hbytes
  exact hbytes

/-- Behind the line's characters there is an error. -/
theorem wordpos_out (py : Python) (h : At editor row i) (hout : row[editor.cursor.col]? = none) :
    (wordposUnderCursor py).run.run editor = (.error .index, editor) := by
  apply (run_get editor _).trans
  dsimp only
  rw [subscript_some h.shown, pure_bind, if_neg h.ne_zero, subscript_none hout]
  rfl

theorem wordpos_blank (py : Python) (h : At editor row i) (hch : row[editor.cursor.col]? = some ch)
    (hblank : IsBlank ch) : ((wordposUnderCursor py).run.run editor).1 = .ok none := by
  have htest : ch = ' '.toNat ∨ ch = '\t'.toNat := hblank
  apply (congrArg Prod.fst (run_get editor _)).trans
  dsimp only
  rw [subscript_some h.shown, pure_bind, if_neg h.ne_zero, subscript_some hch, pure_bind,
    if_pos htest]
  rfl

/-- It finds the run at the character whose index is the cursor's column. -/
theorem wordpos_run (h : At editor row i) (hch : row[editor.cursor.col]? = some ch)
    (hblank : ¬ IsBlank ch)
    (hrun : Run (inWord py) row editor.cursor.col before run behind) :
    (wordposUnderCursor py).run.run editor = (.ok (some (editor.cursor.line - 1, before.length,
      before.length + run.length)), editor) := by
  have hcol : editor.cursor.col < row.length := (List.getElem?_eq_some_iff.mp hch).1
  have hleft : Plain (row.take editor.cursor.col).reverse := fun hmem =>
    h.plain (List.mem_of_mem_take (List.mem_reverse.mp hmem))
  have hright : Plain (row.drop editor.cursor.col) := fun hmem =>
    h.plain (List.mem_of_mem_drop hmem)
  have htest : ¬ (ch = ' '.toNat ∨ ch = '\t'.toNat) := hblank
  have hlow := hrun.low
  have hhigh := hrun.high
  have hstart : editor.cursor.col - (editor.cursor.col - before.length) = before.length := by omega
  have hstop : editor.cursor.col + (before.length + run.length - editor.cursor.col)
      = before.length + run.length := by omega
  apply (run_get editor _).trans
  dsimp only
  rw [subscript_some h.shown, pure_bind, if_neg h.ne_zero, subscript_some hch, pure_bind,
    if_neg htest, group0_wordRegex py hleft, pure_bind, group0_wordRegex py hright, pure_bind,
    hrun.length_take, hrun.length_drop, List.length_take_of_le hcol.le, hstart, hstop]
  rfl

/-- `int` reads the digits. -/
def Fits (py : Python) (digits : List ℕ) : Prop := ∀ most ∈ py.maxDigits, digits.length ≤ most

theorem int_of_fits {digits : List ℕ} (h : Fits py digits) :
    int py digits = pure (number py digits) := by
  unfold int
  cases hmax : py.maxDigits with
  | none => rfl
  | some most => exact if_neg (Nat.not_lt.mpr (h most hmax))

theorem int_of_not_fits {digits : List ℕ} (h : ¬ Fits py digits) :
    int py digits = throw .value := by
  unfold int
  cases hmax : py.maxDigits with
  | none =>
    refine absurd (fun most hmost => ?_) h
    rw [hmax] at hmost
    exact absurd hmost nofun
  | some most =>
    refine if_pos (Nat.lt_of_not_le fun hle => h fun most' hmost => ?_)
    rw [hmax] at hmost
    obtain ⟨⟩ := hmost
    exact hle

theorem run_ok {α β : Type} {m : Method α} {editor editor' : Editor} {x : α} (next : α → Method β)
    (h : m.run.run editor = (.ok x, editor')) :
    (m >>= next).run.run editor = (next x).run.run editor' := by
  rw [ExceptT.run_bind, StateT.run_bind, h]
  rfl

/-- What is left to do behind a run with numbers. -/
theorem run_path {digits : List ℕ} {digits' : Option (List ℕ)} {l : ℕ}
    (hline : editor.buffer[l]? = some row)
    (hword : (wordposUnderCursor py).run.run editor
      = (.ok (some (l, before.length, before.length + run.length)), editor))
    (hsplit : row = before ++ (run ++ behind)) (h : Written py behind digits digits') :
    (pathUnderCursor py).run.run editor = (do
      let first ← int py digits
      let second ← digits'.elim (pure 0) (int py)
      return some (run, first, second) : Method (Option (List ℕ × ℕ × ℕ))).run.run editor := by
  obtain ⟨place, hplace, hfirst, hsecond⟩ := first_pathRegex py h
  have hdrop : row.drop (before.length + run.length) = behind := by
    rw [hsplit, ← List.append_assoc, ← List.length_append, List.drop_left]
  have hpath : (row.take (before.length + run.length)).drop before.length = run := by
    rw [hsplit, ← List.append_assoc, ← List.length_append, List.take_left, List.drop_left]
  apply (run_ok _ hword).trans
  dsimp only
  apply (run_get editor _).trans
  rw [subscript_some hline, pure_bind, hdrop, hpath, hplace]
  dsimp only
  rw [hfirst, hsecond, Option.getD_some]
  cases digits' with
  | none => rfl
  | some digits' => rfl

/-! ## The run under the cursor -/

/-- The word and the path under the cursor are the run that contains the character there or ends
right before it, and the numbers behind it. -/
structure Finds (py : Python) (editor : Editor) (row : List ℕ) (i : ℕ) : Prop where
  word : ∀ before run behind, Run (inWord py) row i before run behind →
    ((wordposUnderCursor py).run.run editor).1
      = .ok (some (editor.cursor.line - 1, before.length, before.length + run.length))
  path : ∀ before run behind digits digits', Run (inWord py) row i before run behind →
    Written py behind digits digits' →
    ((pathUnderCursor py).run.run editor).1
      = .ok (some (run, number py digits, digits'.elim 0 (number py)))

/-- From the cursor to the character whose index is its column there are only characters of a word;
that one is in the line and no blank; and `int` reads the numbers. -/
structure Meets (py : Python) (row : List ℕ) (i col : ℕ) : Prop where
  char : ∃ c, row[col]? = some c ∧ ¬ IsBlank c
  between : ∀ c ∈ (row.drop i).take (col - i), inWord py c = true
  fits : ∀ before run behind digits digits', Run (inWord py) row i before run behind →
    Written py behind digits digits' → Fits py digits ∧ ∀ second ∈ digits', Fits py second

theorem finds_of_meets (h : At editor row i) (hmeets : Meets py row i editor.cursor.col) :
    Finds py editor row i := by
  obtain ⟨c, hc, hblank⟩ := hmeets.char
  have hcol : editor.cursor.col ≤ row.length := (List.getElem?_eq_some_iff.mp hc).1.le
  refine ⟨?_, ?_⟩
  · intro before run behind hrun
    exact congrArg Prod.fst (wordpos_run h hc hblank (hrun.shift h.le_col hcol hmeets.between))
  · intro before run behind digits digits' hrun hwritten
    have hword := wordpos_run h hc hblank (hrun.shift h.le_col hcol hmeets.between)
    obtain ⟨hfits, hfits'⟩ := hmeets.fits before run behind digits digits' hrun hwritten
    rw [run_path h.shown hword hrun.split hwritten, int_of_fits hfits]
    cases digits' with
    | none => rfl
    | some second =>
      have hsecond : int py second = pure (number py second) := int_of_fits (hfits' second rfl)
      rw [pure_bind, Option.elim_some, hsecond]
      rfl

/-- Where the word is found, the code has looked at a character of the same run. -/
theorem meets_of_word (h : At editor row i)
    (hword : ∀ before run behind, Run (inWord py) row i before run behind →
      ((wordposUnderCursor py).run.run editor).1
        = .ok (some (editor.cursor.line - 1, before.length, before.length + run.length))) :
    (∃ c, row[editor.cursor.col]? = some c ∧ ¬ IsBlank c) ∧
      ∀ c ∈ (row.drop i).take (editor.cursor.col - i), inWord py c = true := by
  obtain ⟨before, run, behind, hrun⟩ := Run.exists_run (inWord py) row h.lt.le
  have hfound := hword before run behind hrun
  cases hc : row[editor.cursor.col]? with
  | none =>
    rw [wordpos_out py h hc] at hfound
    exact absurd hfound nofun
  | some c =>
    by_cases hblank : IsBlank c
    · rw [wordpos_blank py h hc hblank] at hfound
      exact absurd hfound nofun
    · have hcol : editor.cursor.col ≤ row.length := (List.getElem?_eq_some_iff.mp hc).1.le
      obtain ⟨before', run', behind', hrun'⟩ := Run.exists_run (inWord py) row hcol
      rw [wordpos_run h hc hblank hrun'] at hfound
      obtain ⟨-, hbefore⟩ := Prod.mk.inj (Option.some.inj (Except.ok.inj hfound))
      obtain ⟨hbefore, -⟩ := Prod.mk.inj hbefore
      have hlow : before'.length ≤ i := hbefore.trans_le hrun.low
      exact ⟨⟨c, rfl, hblank⟩, hrun'.inside_of_low hlow⟩

/-- Where the path is found, `int` has read the numbers. -/
theorem fits_of_finds (h : At editor row i) (hfinds : Finds py editor row i)
    {digits : List ℕ} {digits' : Option (List ℕ)}
    (hrun : Run (inWord py) row i before run behind) (hwritten : Written py behind digits digits') :
    Fits py digits ∧ ∀ second ∈ digits', Fits py second := by
  obtain ⟨⟨c, hc, hblank⟩, hbetween⟩ := meets_of_word h hfinds.word
  have hcol : editor.cursor.col ≤ row.length := (List.getElem?_eq_some_iff.mp hc).1.le
  have hword := wordpos_run h hc hblank (hrun.shift h.le_col hcol hbetween)
  have hfound := hfinds.path before run behind digits digits' hrun hwritten
  rw [run_path h.shown hword hrun.split hwritten] at hfound
  by_cases hfits : Fits py digits
  · refine ⟨hfits, ?_⟩
    rintro second ⟨⟩
    by_contra hno
    rw [int_of_fits hfits, pure_bind, Option.elim_some, int_of_not_fits hno] at hfound
    exact absurd hfound nofun
  · rw [int_of_not_fits hfits] at hfound
    exact absurd hfound nofun

/-- The word and the path under the cursor are found if and only if from the cursor to the character
whose index is the cursor's column, in bytes, there are only characters of a word, that one is in
the line and no blank, and `int` reads the numbers. -/
theorem path_under_cursor_iff (h : At editor row i) :
    Finds py editor row i ↔ Meets py row i editor.cursor.col := by
  constructor
  · intro hfinds
    obtain ⟨hchar, hbetween⟩ := meets_of_word h hfinds.word
    exact ⟨hchar, hbetween, fun _ _ _ _ _ => fits_of_finds h hfinds⟩
  · exact finds_of_meets h

/-- Latin letters. -/
def latin : Python where
  word c := c = '_'.toNat || (48 ≤ c && c ≤ 57) || (65 ≤ c && c ≤ 90) || (97 ≤ c && c ≤ 122)
    || (192 ≤ c && c ≤ 255 && c ≠ 215 && c ≠ 247)
  decimal c := if 48 ≤ c ∧ c ≤ 57 then some (c - 48) else none
  colon := rfl
  maxDigits := some 4300

/-- On the slash of a path behind an accent, the byte column is a character of the same run. -/
theorem path_under_cursor_iff_accent :
    Finds latin ⟨[points "é a/b.c:12:7"], ⟨1, 4⟩⟩ (points "é a/b.c:12:7") 3 ↔
      Meets latin (points "é a/b.c:12:7") 3 4 :=
  path_under_cursor_iff ⟨rfl, rfl, ⟨'/'.toNat, rfl, by decide⟩, by decide⟩

/-- A cursor on a one-letter word behind an accent. -/
def accent : Editor := ⟨[points "é x y"], ⟨1, 3⟩⟩

/-- Its byte column is that of the blank behind it: no word is found, and the buffer has a new
line. -/
theorem accent_moves_cursor :
    At accent (points "é x y") 2 ∧
      (wordposUnderCursor latin).run.run accent
        = (.ok none, { accent with buffer := [points "é x y", points "wtf"] }) ∧
      ¬ Finds latin accent (points "é x y") 2 := by
  have hat : At accent (points "é x y") 2 := ⟨rfl, rfl, ⟨'x'.toNat, rfl, by decide⟩, by decide⟩
  refine ⟨hat, rfl, ?_⟩
  intro hfinds
  obtain ⟨⟨c, hc, hblank⟩, -⟩ := meets_of_word hat hfinds.word
  have hspace : c = ' '.toNat := (Option.some.inj hc).symm
  exact hblank (.inl hspace)

end Holchain.Rc.Vim.VimPy
