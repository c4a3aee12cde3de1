import Holchain.Bin.Bashscriptgen
import Holchain.Laws.Fromto

/-!
# Laws.Bashscriptgen — what an update keeps of a file

The new header and the lines behind the old one come out of two command substitutions, which take
the newlines at their ends away, and nothing is put between them. So the first line behind the
header ends up on the marker line, and is dropped with it by the next update. Only where there is
no line behind the header is there nothing to lose.
-/

namespace Holchain.Bin.Bashscriptgen

open Holper (Bytes lit)
open Lib (Fence OnlyLast)
open Lib.Line (records unlines)
open Fromto (fromto)

/-! ## Command substitution -/

theorem substitute_sublist (text : Bytes) : (substitute text).Sublist text :=
  (List.rdropWhile_prefix _ _).sublist.trans List.filter_sublist

theorem zero_notMem_substitute (text : Bytes) : 0 ∉ substitute text := by
  intro hmem
  have hfilter := (List.rdropWhile_prefix _ _).subset hmem
  exact absurd (List.mem_filter.mp hfilter).2 (by decide)

theorem substitute_eq_nil {text : Bytes} :
    substitute text = [] ↔ ∀ c ∈ text, c = 0 ∨ c = 10 := by
  unfold substitute
  rw [List.rdropWhile_eq_nil_iff]
  constructor
  · intro h c hc
    by_cases h0 : c = 0
    · exact .inl h0
    · exact .inr (eq_of_beq (h c (List.mem_filter.mpr ⟨hc, bne_iff_ne.mpr h0⟩)))
  · intro h c hc
    obtain ⟨hmem, h0⟩ := List.mem_filter.mp hc
    exact beq_iff_eq.mpr ((h c hmem).resolve_left (bne_iff_ne.mp h0))

/-- A text that does not end with a newline stays. -/
theorem substitute_unended {ls : List Line} {l : Line} (h0 : 0 ∉ unlines ls ++ l.val)
    (hl : l.val ≠ []) : substitute (unlines ls ++ l.val) = unlines ls ++ l.val := by
  have hfilter : (unlines ls ++ l.val).filter (· != 0) = unlines ls ++ l.val :=
    List.filter_eq_self.mpr fun c hc => bne_iff_ne.mpr fun heq => h0 (heq ▸ hc)
  unfold substitute
  rw [hfilter, List.rdropWhile_eq_self_iff]
  intro hne hlast
  rw [List.getLast_append_of_ne_nil _ hl] at hlast
  have hmem := List.getLast_mem hl
  rw [eq_of_beq hlast] at hmem
  exact l.property hmem

/-- Of a text whose last line is not empty, a substitution leaves all but the end of that line. -/
theorem substitute_records {text : Bytes} {init : List Line} {last : Line} (h0 : 0 ∉ text)
    (hlast : last.val ≠ []) (h : records text = init ++ [last]) :
    substitute text = unlines init ++ last.val := by
  obtain ⟨ls, l, rfl⟩ := Lib.Line.exists_unlines 10 text
  by_cases hl : l.val = []
  · rw [hl, List.append_nil] at h h0 ⊢
    rw [Lib.Line.records_unlines] at h
    subst h
    rw [Lib.Line.unlines_concat] at h0 ⊢
    rw [substitute_newline]
    exact substitute_unended (fun hmem => h0 (List.mem_append_left _ hmem)) hlast
  · rw [Lib.Line.records_unended ls hl] at h
    obtain ⟨rfl, hsame⟩ := List.append_inj' h rfl
    obtain ⟨rfl, -⟩ := List.cons.inj hsame
    exact substitute_unended h0 hl

/-- It has the same lines. -/
theorem records_substitute {text : Bytes} {init : List Line} {last : Line} (h0 : 0 ∉ text)
    (hlast : last.val ≠ []) (h : records text = init ++ [last]) :
    records (substitute text) = init ++ [last] := by
  rw [substitute_records h0 hlast h, Lib.Line.records_unended _ hlast]

/-- A substitution has fewer newlines than its text has lines. -/
theorem count_substitute {text : Bytes} (hne : text ≠ []) :
    (substitute text).count 10 + 1 ≤ (records text : List Line).length := by
  obtain ⟨ls, l, rfl⟩ := Lib.Line.exists_unlines 10 text
  by_cases hl : l.val = []
  · rw [hl, List.append_nil] at hne ⊢
    rw [Lib.Line.records_unlines]
    rcases List.eq_nil_or_concat ls with rfl | ⟨init, last, rfl⟩
    · exact absurd rfl hne
    · have hle := (substitute_sublist (unlines init ++ last.val)).count_le 10
      rw [List.count_append, Lib.Line.count_unlines, List.count_eq_zero.mpr last.property] at hle
      rw [List.concat_eq_append, Lib.Line.unlines_concat, substitute_newline, List.length_append,
        List.length_singleton]
      exact Nat.succ_le_succ hle
  · have hle := (substitute_sublist (unlines ls ++ l.val)).count_le 10
    rw [List.count_append, Lib.Line.count_unlines, List.count_eq_zero.mpr l.property] at hle
    rw [Lib.Line.records_unended ls hl, List.length_append, List.length_singleton]
    exact Nat.succ_le_succ hle

/-! ## The marker -/

/-- The line has the marker in it. -/
def Marked (l : Line) : Prop := marker <:+: l.val

instance : DecidablePred Marked := fun l => inferInstanceAs (Decidable (marker <:+: l.val))

/-- The first line of a header. -/
def shebangLine : Line := ⟨shebang, by decide⟩

theorem shebang_unmarked : ¬ Marked shebangLine := by decide +kernel

theorem Marked.mem {l : Line} (h : Marked l) : 98 ∈ l.val := h.subset (by decide)

/-- A header: its first line is the shebang, and only the last one has the marker in it. -/
structure Header where
  middle : List Line
  last : Line
  unmarked : ∀ l ∈ middle, ¬ Marked l
  marked : Marked last

theorem Header.last_ne_nil (h : Header) : h.last.val ≠ [] := List.ne_nil_of_mem h.marked.mem

/-- Its lines. -/
def Header.lines (h : Header) : List Line := shebangLine :: (h.middle ++ [h.last])

/-- The lines behind the first one with the marker. -/
def behindMarker (ls : List Line) : List Line := (ls.dropWhile fun l => !decide (Marked l)).tail

theorem behindMarker_marked {l : Line} (h : Marked l) (ls : List Line) :
    behindMarker (l :: ls) = ls := by
  unfold behindMarker
  rw [List.dropWhile_cons_of_neg]
  · rfl
  · rw [decide_eq_true h]
    exact Bool.false_ne_true

theorem behindMarker_unmarked {l : Line} (h : ¬ Marked l) (ls : List Line) :
    behindMarker (l :: ls) = behindMarker ls := by
  unfold behindMarker
  rw [List.dropWhile_cons_of_pos]
  rw [decide_eq_false h]
  rfl

theorem behindMarker_append {before : List Line} (h : ∀ l ∈ before, ¬ Marked l)
    (ls : List Line) : behindMarker (before ++ ls) = behindMarker ls := by
  induction before with
  | nil => rfl
  | cons l before ih =>
    rw [List.cons_append, behindMarker_unmarked (h l List.mem_cons_self),
      ih fun l' hl' => h l' (List.mem_cons_of_mem l hl')]

/-! ## What fromto leaves -/

/-- The options of the call. -/
def oftv : Fromto.Flags where
  inverse := true
  printFrom := true
  printTo := true
  matchOnce := true

/-- FROM. -/
def shebangLiteral : Fromto.Literal := ⟨shebang, by decide, by decide⟩

/-- TO. -/
def markerLiteral : Fromto.Literal := ⟨marker, by decide, by decide⟩

theorem fromto_eq (content : Bytes) :
    fromto [lit "-oftv", shebang, marker] content =
      some (unlines (Fromto.lines oftv shebangLiteral markerLiteral (records content))) := by
  have hopts : getopts (lit "ovhft?") [lit "-oftv", shebang, marker] =
      ([{ opt := 111 }, { opt := 102 }, { opt := 116 }, { opt := 118 }], [shebang, marker]) := by
    decide +kernel
  have hflags : Fromto.options {} [{ opt := 111 }, { opt := 102 }, { opt := 116 }, { opt := 118 }] =
      some oftv := by decide
  have hfrom : Fromto.Literal.of shebang = some shebangLiteral := dif_pos (by decide)
  have hto : Fromto.Literal.of marker = some markerLiteral := dif_pos (by decide)
  simp only [fromto, hopts, hflags, hfrom, hto]

/-- Between the shebang and the marker nothing is printed, and behind it everything. -/
theorem run_open (ls : List Line) :
    (Fromto.awk oftv shebangLiteral markerLiteral).run { ctr := true } ls = behindMarker ls := by
  induction ls with
  | nil => rfl
  | cons l ls ih =>
    have hprints : (oftv.inverse ^^ ((true || decide (shebangLiteral.In l))
        && (oftv.printFrom || !decide (shebangLiteral.In l))
        && (oftv.printTo || !decide (markerLiteral.In l)))) = false := rfl
    rw [Lib.Filter.run, Fromto.step_unmatched, hprints, if_neg Bool.false_ne_true, Bool.true_or,
      Bool.true_and]
    by_cases hl : Marked l
    · have hin : decide (markerLiteral.In l) = true := decide_eq_true hl
      rw [behindMarker_marked hl, hin]
      exact Fromto.run_matched _
    · have hin : decide (markerLiteral.In l) = false := decide_eq_false hl
      rw [behindMarker_unmarked hl, ← ih, hin]
      rfl

theorem lines_shebang (ls : List Line) :
    Fromto.lines oftv shebangLiteral markerLiteral (shebangLine :: ls) = behindMarker ls := by
  have hfrom : decide (shebangLiteral.In shebangLine) = true := by decide
  have hto : decide (markerLiteral.In shebangLine) = false := decide_eq_false shebang_unmarked
  unfold Fromto.lines
  rw [Lib.Filter.run, Fromto.step_unmatched, hfrom, hto]
  exact run_open ls

/-- **All of the tail comes out**, and nothing of the header. -/
theorem fromto_header (old : Header) (tail : List Line) :
    fromto [lit "-oftv", shebang, marker] (unlines (old.lines ++ tail)) = some (unlines tail) := by
  have hlines : old.lines ++ tail = shebangLine :: (old.middle ++ old.last :: tail) := by
    unfold Header.lines
    rw [List.cons_append, List.append_assoc]
    rfl
  rw [fromto_eq, Lib.Line.records_unlines, hlines, lines_shebang,
    behindMarker_append old.unmarked, behindMarker_marked old.marked]

/-! ## The text of the header -/

variable {args : List Bytes} {p : Parsed}

/-- The texts that the definitions contribute, as they are printed. -/
def Parsed.texts (p : Parsed) (args : List Bytes) : List Printed :=
  [{ text := joined 32 args, stopped := false }, percentB 0 p.descriptionStr,
    percentB 0 p.collected.usageStr, percentB 0 p.collected.vardefs,
    { text := p.collected.getoptsarg, stopped := false }, percentB 0 p.collected.optsactions,
    percentB 0 p.collected.varchecks]

/-- The fixed texts, each of which stands before one of them. -/
def fixed : List Bytes := (format.filterMap fun | .text t => some t | _ => none).dropLast

/-- The texts, each behind its fixed text. -/
def Parsed.parts (p : Parsed) (args : List Bytes) : List (Bytes × Printed) :=
  fixed.zip (p.texts args)

theorem parts_snd : (p.parts args).map Prod.snd = p.texts args :=
  List.map_snd_zip (Nat.le_refl 7)

/-- What is written of texts behind fixed texts: one that a `\c` ends is the last one. -/
def written : List (Bytes × Printed) → Bytes → Printed
  | [], ending => { text := ending, stopped := false }
  | (text, t) :: parts, ending =>
    (if t.stopped then t else (written parts ending).after t.text).after text

theorem written_append {before : List (Bytes × Printed)}
    (h : ∀ part ∈ before, part.2.stopped = false) (parts : List (Bytes × Printed))
    (ending : Bytes) :
    (written (before ++ parts) ending).text =
      before.flatMap (fun part => part.1 ++ part.2.text) ++ (written parts ending).text := by
  induction before with
  | nil => rfl
  | cons part before ih =>
    have hpart : ¬ part.2.stopped = true := by
      rw [h part List.mem_cons_self]
      exact Bool.false_ne_true
    have hrest := ih fun part' hmem => h part' (List.mem_cons_of_mem part hmem)
    rw [List.cons_append, written, if_neg hpart, Printed.after_text, Printed.after_text, hrest,
      List.flatMap_cons]
    simp only [List.append_assoc]

/-- The last line. -/
def markerLine : Line := ⟨lit "# " ++ marker ++ lit " (do not remove this)", by decide⟩

theorem markerLine_marked : Marked markerLine := by decide

/-- The last line from the marker on. -/
def markerEnd : Bytes := marker ++ lit " (do not remove this)\n"

theorem generate_eq (args : List Bytes) (p : Parsed) :
    generate args p = written (p.parts args) (lit "\n# " ++ markerEnd) := by
  simp only [generate, format, printf_text, printf_s, printf_b_eq, Parsed.parts, fixed,
    Parsed.texts, List.filterMap_cons, List.filterMap_nil, List.dropLast_cons_cons,
    List.dropLast_singleton, List.zip_cons_cons, List.zip_nil_left, written, Bool.false_eq_true,
    if_false]
  rfl

theorem generate_begins (args : List Bytes) (p : Parsed) :
    ∃ rest, (generate args p).text = shebangLine.val ++ 10 :: rest := by
  have htext : ∃ text tail, format = .text text :: tail ∧ text = shebang ++ 10 :: text.drop 20 := by
    exact ⟨_, _, rfl, by decide⟩
  obtain ⟨text, tail, hformat, hbegin⟩ := htext
  unfold generate
  rw [hformat, printf_text, Printed.after_text, hbegin, List.append_assoc]
  exact ⟨_, rfl⟩

theorem records_generate (args : List Bytes) (p : Parsed) :
    ∃ ls, records (generate args p).text = shebangLine :: ls := by
  obtain ⟨rest, hrest⟩ := generate_begins args p
  exact ⟨records rest, by rw [hrest, Lib.Line.records_line]⟩

/-! ## Good headers -/

/-- Lines that are a header: the first one is the shebang, and the last one alone is marked. -/
theorem header_iff {ls : List Line} :
    (∃ header : Header, header.lines = shebangLine :: ls) ↔
      OnlyLast Marked (shebangLine :: ls) := by
  constructor
  · rintro ⟨header, hlines⟩
    refine ⟨shebangLine :: header.middle, header.last, hlines.symm, fun l hl => ?_, header.marked⟩
    rcases List.mem_cons.mp hl with rfl | hl
    · exact shebang_unmarked
    · exact header.unmarked l hl
  · rintro ⟨before, last, hlines, hbefore, hlast⟩
    cases before with
    | nil =>
      obtain ⟨rfl, -⟩ := List.cons.inj hlines
      exact absurd hlast shebang_unmarked
    | cons first middle =>
      obtain ⟨rfl, rfl⟩ := List.cons.inj hlines
      exact ⟨⟨middle, last, fun l hl => hbefore l (List.mem_cons_of_mem _ hl), hlast⟩, rfl⟩

/-- A fixed text that the marker does not stand across, with more than one line. -/
structure Guard (text : Bytes) : Prop where
  noNul : 0 ∉ text
  fence : Fence marker text
  more : ∃ line rest, text = line ++ 10 :: rest ∧ rest ≠ []

theorem Guard.of {text : Bytes} (hzero : 0 ∉ text) (hfence : Fence marker text)
    (h : (text.dropWhile (· != 10)).tail ≠ []) : Guard text where
  noNul := hzero
  fence := hfence
  more := by
    have hne : text.dropWhile (· != 10) ≠ [] := by
      intro hnil
      rw [hnil] at h
      exact h rfl
    obtain ⟨c, rest, hrest⟩ := List.exists_cons_of_ne_nil hne
    have hc := List.head_dropWhile_not (· != (10 : UInt8)) hne
    simp only [hrest, List.head_cons, bne_eq_false_iff_eq] at hc
    subst hc
    rw [hrest] at h
    refine ⟨text.takeWhile (· != 10), rest, ?_, h⟩
    rw [← hrest, List.takeWhile_append_dropWhile]

theorem fixed_guard {text : Bytes} (h : text ∈ fixed) : Guard text := by
  have hall : ∀ text ∈ fixed, 0 ∉ text ∧ Fence marker text
      ∧ (text.dropWhile (· != 10)).tail ≠ [] := by decide +kernel
  obtain ⟨hzero, hfence, hmore⟩ := hall text h
  exact Guard.of hzero hfence hmore

theorem ending_guard : Guard (lit "\n# ") :=
  Guard.of (by decide) (by decide) (by decide)

/-- Texts behind guards are good if and only if each one is, and only the last one is marked, at
its end. -/
theorem good_text {before : List (Bytes × Printed)} {text : Bytes}
    (h : ∀ part ∈ before, Guard part.1) (htext : Guard text) (last : Bytes) :
    (0 ∉ before.flatMap (fun part => part.1 ++ part.2.text) ++ (text ++ last)
        ∧ OnlyLast Marked
          (records (before.flatMap (fun part => part.1 ++ part.2.text) ++ (text ++ last)))) ↔
      (∀ part ∈ before, 0 ∉ part.2.text ∧ ¬ marker <:+: part.2.text)
        ∧ 0 ∉ last ∧ OnlyLast Marked (records last) := by
  have hne : marker ≠ [] := by decide
  have hno : 10 ∉ marker := by decide
  obtain ⟨line, rest, rfl, hrest⟩ := htext.more
  have hzero : 0 ∈ before.flatMap (fun part => part.1 ++ part.2.text) ↔
      ∃ part ∈ before, 0 ∈ part.2.text := by
    rw [List.mem_flatMap]
    refine exists_congr fun part => and_congr_right fun hpart => ?_
    rw [List.mem_append, or_iff_right (h part hpart).noNul]
  have hmarked : marker <:+: [] ++ before.flatMap (fun part => part.1 ++ part.2.text) ↔ _ :=
    Lib.infix_fences fun part hpart => (h part hpart).fence
  rw [List.nil_append, List.infix_nil, or_iff_right hne] at hmarked
  have honly : OnlyLast Marked (records (before.flatMap (fun part => part.1 ++ part.2.text)
      ++ (line ++ 10 :: rest ++ last))) ↔ _ ∧ OnlyLast Marked (records last) :=
    Lib.Line.onlyLast_records_fence hne hno hrest htext.fence last
  rw [honly, hmarked, List.mem_append, List.mem_append, or_iff_right htext.noNul, hzero]
  constructor
  · rintro ⟨hnul, hmarker, hlast⟩
    exact ⟨fun part hpart => ⟨fun hmem => hnul (.inl ⟨part, hpart, hmem⟩),
      fun hin => hmarker ⟨part, hpart, hin⟩⟩, fun hmem => hnul (.inr hmem), hlast⟩
  · rintro ⟨hall, hnul, hlast⟩
    refine ⟨?_, fun ⟨part, hpart, hin⟩ => (hall part hpart).2 hin, hlast⟩
    rintro (⟨part, hpart, hmem⟩ | hmem)
    · exact (hall part hpart).1 hmem
    · exact hnul hmem

/-- **A header that `printf` writes to its end is good** if and only if no text of a definition
brings in a NUL or the marker. -/
theorem good_whole (h : ∀ t ∈ p.texts args, t.stopped = false) :
    (0 ∉ (generate args p).text ∧ OnlyLast Marked (records (generate args p).text)) ↔
      ∀ t ∈ p.texts args, 0 ∉ t.text ∧ ¬ marker <:+: t.text := by
  have hend : 0 ∉ markerEnd ∧ OnlyLast Marked (records markerEnd) :=
    ⟨by decide, [], ⟨markerEnd.dropLast, by decide⟩, by decide,
      fun _ hl => absurd hl List.not_mem_nil, by decide⟩
  rw [← parts_snd, List.forall_mem_map] at h ⊢
  have hwritten := written_append h [] (lit "\n# " ++ markerEnd)
  rw [List.append_nil] at hwritten
  rw [generate_eq, hwritten]
  refine (good_text (fun part hpart => fixed_guard (List.of_mem_zip hpart).1) ending_guard
    markerEnd).trans ?_
  exact and_iff_left hend

/-- A header that a `\c` ends is good if and only if the text it is in ends with a marked line, the
first one there is. -/
theorem good_stopped {before behind : List Printed} {t : Printed}
    (htexts : p.texts args = before ++ t :: behind) (h : ∀ s ∈ before, s.stopped = false)
    (ht : t.stopped = true) :
    (0 ∉ (generate args p).text ∧ OnlyLast Marked (records (generate args p).text)) ↔
      (∀ s ∈ before, 0 ∉ s.text ∧ ¬ marker <:+: s.text)
        ∧ 0 ∉ t.text ∧ OnlyLast Marked (records t.text) := by
  have hsplit := htexts
  rw [← parts_snd] at hsplit
  obtain ⟨parts, parts', hparts, rfl, hrest⟩ := List.map_eq_append_iff.mp hsplit
  obtain ⟨⟨text, t⟩, parts', rfl, rfl, -⟩ := List.map_eq_cons_iff.mp hrest
  have hguard : ∀ part ∈ p.parts args, Guard part.1 :=
    fun part hpart => fixed_guard (List.of_mem_zip hpart).1
  rw [hparts] at hguard
  rw [List.forall_mem_map] at h ⊢
  rw [generate_eq, hparts, written_append h, written, if_pos ht]
  exact good_text (fun part hpart => hguard part (List.mem_append_left _ hpart))
    (hguard _ (List.mem_append_right _ List.mem_cons_self)) t.text

/-! ## An update -/

/-- What an update makes of the content of a file. -/
def updated (args : List Bytes) (p : Parsed) (content : Bytes) : Bytes :=
  substitute (generate args p).text
    ++ substitute ((fromto [lit "-oftv", shebang, marker] content).getD [])

/-- The arguments are read the same way as long as the file is there. -/
theorem parse_congr {e e' : Bytes → Bool} (h : parse e args = .ok p)
    (he : e' p.updatefile = true) : parse e' args = .ok p := by
  unfold parse at h ⊢
  dsimp only at h ⊢
  cases hc : command {} (getopts (lit "d:u:h?") args).1 with
  | error refusal =>
    rw [hc] at h
    cases h
  | ok c =>
    simp only [hc, Except.bind] at h ⊢
    split at h
    · cases h
    · cases hg : definitions {} (getopts (lit "d:u:h?") args).2 with
      | error refusal => simp only [hg, reduceCtorEq] at h
      | ok g =>
        simp only [hg, Except.ok.injEq] at h ⊢
        subst h
        rw [if_neg fun hno => hno.2 he]

theorem bashscriptgen_eq {files : Files} {content : Bytes}
    (hparse : parse (fun name => (files name).isSome) args = .ok p)
    (hupdate : p.updatefile ≠ []) (hname : p.updatefile.head? ≠ some 45)
    (hfile : files p.updatefile = some content) :
    ∃ result, bashscriptgen files args = .ok result
      ∧ result.files p.updatefile = some (updated args p content) := by
  have hbak : p.updatefile ≠ p.updatefile ++ lit ".bak" := by
    intro heq
    exact absurd (List.self_eq_append_right.mp heq) (by decide)
  have hsame : Function.update files (p.updatefile ++ lit ".bak") (some content) p.updatefile =
      some content := by
    rw [Function.update_of_ne hbak, hfile]
  unfold bashscriptgen
  simp only [hparse, Except.bind, if_neg hupdate, if_neg hname, hfile, hsame, Option.getD_some]
  exact ⟨_, rfl, Function.update_self _ _ _⟩

/-- Two updates of a file keep its tail: behind the first, the header, which ends with a line with the
marker, stands before the tail, and the second changes nothing. -/
def Keeps (files : Files) (args : List Bytes) (p : Parsed) (tail : List Line) : Prop :=
  ∃ first second content, bashscriptgen files args = .ok first
    ∧ first.files p.updatefile = some content
    ∧ records content = records (generate args p).text ++ tail
    ∧ (∃ l, (records (generate args p).text).getLast? = some l ∧ Marked l)
    ∧ bashscriptgen first.files args = .ok second
    ∧ second.files p.updatefile = some content

/-- The two updates, by their contents. -/
theorem keeps_iff_updated {files : Files} {tail : List Line} {content : Bytes}
    (hparse : parse (fun name => (files name).isSome) args = .ok p)
    (hupdate : p.updatefile ≠ []) (hname : p.updatefile.head? ≠ some 45)
    (hfile : files p.updatefile = some content) :
    Keeps files args p tail ↔
      records (updated args p content) = records (generate args p).text ++ tail
        ∧ (∃ l, (records (generate args p).text).getLast? = some l ∧ Marked l)
        ∧ updated args p (updated args p content) = updated args p content := by
  obtain ⟨first, hfirst, hcontent⟩ := bashscriptgen_eq hparse hupdate hname hfile
  have hagain : parse (fun name => (first.files name).isSome) args = .ok p :=
    parse_congr hparse (by rw [hcontent]; rfl)
  obtain ⟨second, hsecond, hcontent'⟩ := bashscriptgen_eq hagain hupdate hname hcontent
  constructor
  · rintro ⟨first', second', content', h₁, h₂, hlines, hlast, h₃, h₄⟩
    obtain rfl := Except.ok.inj (hfirst.symm.trans h₁)
    obtain rfl := Except.ok.inj (hsecond.symm.trans h₃)
    obtain rfl := Option.some.inj (hcontent.symm.trans h₂)
    exact ⟨hlines, hlast, Option.some.inj (hcontent'.symm.trans h₄)⟩
  · rintro ⟨hlines, hlast, hsame⟩
    exact ⟨first, second, _, hfirst, hcontent, hlines, hlast, hsecond, by rw [hcontent', hsame]⟩

/-! ## What stays -/

variable {old : Header} {tail : List Line}

theorem updated_header (old : Header) (tail : List Line) :
    updated args p (unlines (old.lines ++ tail)) =
      substitute (generate args p).text ++ substitute (unlines tail) := by
  rw [updated, fromto_header, Option.getD_some]

theorem generate_ne_nil (args : List Bytes) (p : Parsed) : (generate args p).text ≠ [] := by
  obtain ⟨rest, hrest⟩ := generate_begins args p
  rw [hrest]
  exact List.append_ne_nil_of_right_ne_nil _ (List.cons_ne_nil _ _)

/-- **A tail is never kept whole**: there are too few newlines for its lines. -/
theorem tail_nil_of_records
    (h : records (updated args p (unlines (old.lines ++ tail))) =
      records (generate args p).text ++ tail) : tail = [] := by
  rw [updated_header] at h
  by_contra hne
  have htext : unlines tail ≠ [] := by
    intro hnil
    have hcount := Lib.Line.count_unlines tail
    rw [hnil] at hcount
    exact hne (List.eq_nil_of_length_eq_zero hcount.symm)
  have hheader := count_substitute (generate_ne_nil args p)
  have htail := count_substitute htext
  have hlines : (records (substitute (generate args p).text ++ substitute (unlines tail))
      : List Line).length ≤ _ := Lib.Line.length_records_le _
  rw [h, List.length_append, List.count_append] at hlines
  rw [Lib.Line.records_unlines] at htail
  omega

/-- An update of lines that begin with the shebang keeps what is behind the first marked line. -/
theorem updated_lines {content : Bytes} {ls : List Line}
    (h : records content = shebangLine :: ls) :
    updated args p content =
      substitute (generate args p).text ++ substitute (unlines (behindMarker ls)) := by
  rw [updated, fromto_eq, h, lines_shebang, Option.getD_some]

/-- Lines behind a marked one whose last one is marked are not lost in a substitution. -/
theorem substitute_behind {before : List Line} {last : Line} (hmarked : ∃ l ∈ before, Marked l)
    (hlast : Marked last) : substitute (unlines (behindMarker (before ++ [last]))) ≠ [] := by
  induction before with
  | nil =>
    obtain ⟨l, hl, -⟩ := hmarked
    exact absurd hl List.not_mem_nil
  | cons l before ih =>
    by_cases hl : Marked l
    · rw [List.cons_append, behindMarker_marked hl]
      intro hnil
      have hmem : 98 ∈ unlines (before ++ [last]) :=
        (Lib.Line.mem_unlines (by decide)).mpr
          ⟨last, List.mem_append_right _ (List.mem_singleton_self last), hlast.mem⟩
      rcases substitute_eq_nil.mp hnil 98 hmem with h | h
      · exact absurd h (by decide)
      · exact absurd h (by decide)
    · rw [List.cons_append, behindMarker_unmarked hl]
      apply ih
      obtain ⟨l', hl', hm⟩ := hmarked
      rcases List.mem_cons.mp hl' with rfl | hl'
      · exact absurd hm hl
      · exact ⟨l', hl', hm⟩

/-- Two updates keep a file if and only if it has no tail, and the new header comes out of its
substitution as a header. -/
theorem updated_iff (old : Header) (tail : List Line) :
    (records (updated args p (unlines (old.lines ++ tail))) =
        records (generate args p).text ++ tail
      ∧ (∃ l, (records (generate args p).text).getLast? = some l ∧ Marked l)
      ∧ updated args p (updated args p (unlines (old.lines ++ tail))) =
        updated args p (unlines (old.lines ++ tail))) ↔
      tail = [] ∧ 0 ∉ (generate args p).text
        ∧ ∃ header : Header, header.lines = records (generate args p).text := by
  have hnil : updated args p (unlines (old.lines ++ [])) = substitute (generate args p).text := by
    rw [updated_header]
    exact List.append_nil _
  obtain ⟨ls, hls⟩ := records_generate args p
  constructor
  · rintro ⟨hlines, ⟨last, hlast, hmarked⟩, hsame⟩
    obtain rfl := tail_nil_of_records hlines
    rw [hnil, List.append_nil] at hlines
    rw [hnil, updated_lines (hlines.trans hls)] at hsame
    refine ⟨rfl, fun hzero => ?_, ?_⟩
    · have hnl : (0 : UInt8) ≠ 10 := by decide
      have hline := (Lib.Line.mem_records hnl).mp hzero
      rw [← hlines, ← Lib.Line.mem_records hnl] at hline
      exact zero_notMem_substitute _ hline
    · obtain ⟨before, hbefore⟩ := List.getLast?_eq_some_iff.mp hlast
      rw [hls, header_iff, ← hls]
      refine ⟨before, last, hbefore, fun l hl hm => ?_, hmarked⟩
      have hrest : substitute (unlines (behindMarker ls)) = [] := List.append_right_eq_self.mp hsame
      cases before with
      | nil => exact List.not_mem_nil hl
      | cons first before =>
        obtain ⟨rfl, rfl⟩ := List.cons.inj (hls.symm.trans hbefore)
        rcases List.mem_cons.mp hl with rfl | hl
        · exact shebang_unmarked hm
        · exact substitute_behind ⟨l, hl, hm⟩ hmarked hrest
  · rintro ⟨rfl, hzero, header, hheader⟩
    have hbefore : records (generate args p).text =
        (shebangLine :: header.middle) ++ [header.last] := hheader.symm
    have hlines : records (substitute (generate args p).text) = header.lines :=
      records_substitute hzero header.last_ne_nil hbefore
    rw [hnil, List.append_nil]
    refine ⟨hlines.trans hheader, ⟨header.last, ?_, header.marked⟩, ?_⟩
    · rw [hbefore, List.getLast?_concat]
    · rw [updated_lines hlines, behindMarker_append header.unmarked,
        behindMarker_marked header.marked]
      exact List.append_nil _

/-- A line of code behind the old header is put on the new marker line, and the next update drops
it. -/
theorem line_lost (hzero : 0 ∉ (generate args p).text)
    (hheader : ∃ header : Header, header.lines = records (generate args p).text) (old : Header)
    {l : Line} (hl : l.val ≠ []) (hlzero : 0 ∉ l.val) :
    updated args p (updated args p (unlines (old.lines ++ [l]))) =
      substitute (generate args p).text := by
  obtain ⟨header, hheader⟩ := hheader
  have hbefore : records (generate args p).text =
      (shebangLine :: header.middle) ++ [header.last] := hheader.symm
  have hcode : substitute (unlines [l]) = l.val := by
    rw [← List.nil_append [l], Lib.Line.unlines_concat, substitute_newline]
    exact substitute_unended hlzero hl
  have hglued : updated args p (unlines (old.lines ++ [l])) =
      unlines (shebangLine :: header.middle) ++ (header.last.append l).val := by
    rw [updated_header, hcode, substitute_records hzero header.last_ne_nil hbefore,
      List.append_assoc]
    rfl
  have hlines : records (updated args p (unlines (old.lines ++ [l]))) =
      shebangLine :: (header.middle ++ [header.last.append l]) := by
    rw [hglued]
    exact Lib.Line.records_unended _ (List.append_ne_nil_of_left_ne_nil header.last_ne_nil _)
  have hmarked : Marked (header.last.append l) :=
    header.marked.trans (List.prefix_append _ _).isInfix
  rw [updated_lines hlines, behindMarker_append header.unmarked, behindMarker_marked hmarked]
  exact List.append_nil _

/-- A text that leaves the header alone: no `\c` ends it, and as it is printed it has neither a NUL
nor the marker in it. -/
def Harmless (t : Printed) : Prop := t.stopped = false ∧ 0 ∉ t.text ∧ ¬ marker <:+: t.text

instance : DecidablePred Harmless := fun _ => inferInstanceAs (Decidable (_ ∧ _))

/-- The definitions leave the header alone. -/
def Parsed.Plain (p : Parsed) (args : List Bytes) : Prop := ∀ t ∈ p.texts args, Harmless t

/-- A `\c` ends one of the texts, and with it the header, just where that text, with nothing wrong
before, has made up a last line with the marker. -/
def Parsed.Imitates (p : Parsed) (args : List Bytes) : Prop :=
  ∃ before t behind, p.texts args = before ++ t :: behind ∧ (∀ s ∈ before, Harmless s)
    ∧ t.stopped = true ∧ 0 ∉ t.text ∧ OnlyLast Marked (records t.text)

/-- A header is good where the definitions leave it alone, or where they imitate its end. -/
theorem good_iff :
    (0 ∉ (generate args p).text
        ∧ ∃ header : Header, header.lines = records (generate args p).text) ↔
      p.Plain args ∨ p.Imitates args := by
  obtain ⟨ls, hls⟩ := records_generate args p
  rw [hls, header_iff, ← hls]
  constructor
  · intro hgood
    cases hfirst : (p.texts args).find? (·.stopped) with
    | none =>
      have hwhole : ∀ t ∈ p.texts args, t.stopped = false :=
        fun t ht => Bool.eq_false_iff.mpr (List.find?_eq_none.mp hfirst t ht)
      exact .inl fun t ht => ⟨hwhole t ht, (good_whole hwhole).mp hgood t ht⟩
    | some t =>
      obtain ⟨ht, before, behind, htexts, hbefore⟩ := List.find?_eq_some_iff_append.mp hfirst
      have hwhole : ∀ s ∈ before, s.stopped = false :=
        fun s hs => Bool.not_eq_eq_eq_not.mp (hbefore s hs)
      obtain ⟨hall, hlast⟩ := (good_stopped htexts hwhole ht).mp hgood
      exact .inr ⟨before, t, behind, htexts, fun s hs => ⟨hwhole s hs, hall s hs⟩, ht, hlast⟩
  · rintro (hplain | ⟨before, t, behind, htexts, hbefore, ht, hlast⟩)
    · exact (good_whole fun t ht => (hplain t ht).1).mpr fun t ht => (hplain t ht).2
    · exact (good_stopped htexts (fun s hs => (hbefore s hs).1) ht).mpr
        ⟨fun s hs => (hbefore s hs).2, hlast⟩

/-! ## One update -/

/-- One round of the loop over the definitions. -/
theorem definitions_add {g g' : Collected} {args : List Bytes} (hne : args.headD [] ≠ [])
    (hadd : (definition {} (getopts (lit "o:h:a:f:d:rv:") args).1).bind g.add = .ok g') :
    definitions g args = definitions g' (getopts (lit "o:h:a:f:d:rv:") args).2 := by
  rw [definitions, if_neg hne]
  split
  next refusal hrefused =>
    rw [hadd] at hrefused
    cases hrefused
  next g'' hg =>
    obtain rfl := Except.ok.inj (hadd.symm.trans hg)
    rfl

theorem definitions_nil (g : Collected) : definitions g [] = .ok g := by
  rw [definitions]
  exact if_pos rfl

/-- An update with one option. -/
def someArgs : List Bytes :=
  [lit "-u", lit "tool", lit "--", lit "-o", lit "a", lit "-h", lit "help", lit "-a", lit "A"]

/-- What it is read as. -/
def someParsed : Parsed where
  updatefile := lit "tool"
  descriptionStr := []
  collected := {
    options := [lit "a"]
    addresses := [lit "A"]
    usageStr := lit "  printf '  -a: help\\\\n'\\n"
    getoptsarg := lit "ah?"
    optsactions := lit "    a) A=1;;\\n"
    vardefs := lit "A=\\n"
    varchecks := [] }

theorem parse_some {e : Bytes → Bool} (h : e (lit "tool") = true) :
    parse e someArgs = .ok someParsed := by
  have houter : getopts (lit "d:u:h?") someArgs =
      ([{ opt := 117, optarg := lit "tool" }], someArgs.drop 3) := by decide
  have hinner : getopts (lit "o:h:a:f:d:rv:") (someArgs.drop 3) =
      ([{ opt := 111, optarg := lit "a" }, { opt := 104, optarg := lit "help" },
        { opt := 97, optarg := lit "A" }], []) := by decide +kernel
  have hcommand : command {} [{ opt := 117, optarg := lit "tool" }] =
      .ok { updatefile := lit "tool" } := by decide
  have hadd : (definition {} (getopts (lit "o:h:a:f:d:rv:") (someArgs.drop 3)).1).bind
      (Collected.add {}) = .ok { someParsed.collected with getoptsarg := lit "a" } := by
    decide +kernel
  have hdefinitions : definitions {} (someArgs.drop 3) =
      .ok { someParsed.collected with getoptsarg := lit "a" } := by
    rw [definitions_add (by decide) hadd, hinner, definitions_nil]
  unfold parse
  rw [houter]
  simp only [hcommand, Except.bind, h, not_true, and_false, if_false, hdefinitions]
  rfl

theorem someParsed_plain : someParsed.Plain someArgs := by
  unfold Parsed.Plain
  decide +kernel

/-- A file with a short header. -/
def someFiles (tail : List Line) : Files := fun name =>
  if name = lit "tool" then
    some (unlines (Header.lines
      { middle := [], last := markerLine, unmarked := fun _ h => absurd h List.not_mem_nil,
        marked := markerLine_marked } ++ tail))
  else none

theorem parse_someFiles (tail : List Line) :
    parse (fun name => (someFiles tail name).isSome) someArgs = .ok someParsed :=
  parse_some rfl

/-- **What an update keeps**: the file consists of the new header and the tail, also after a second
update, if and only if there is no tail and the definitions leave the header alone. The first line
of a tail is put on the marker line, and the second update takes it for a part of the header. -/
theorem keeps_iff {files : Files} {args : List Bytes} {p : Parsed} {old : Header}
    {tail : List Line} (hparse : parse (fun name => (files name).isSome) args = .ok p)
    (hupdate : p.updatefile ≠ []) (hname : p.updatefile.head? ≠ some 45)
    (hfile : files p.updatefile = some (unlines (old.lines ++ tail))) :
    Keeps files args p tail ↔ tail = [] ∧ (p.Plain args ∨ p.Imitates args) := by
  rw [keeps_iff_updated hparse hupdate hname hfile, updated_iff, good_iff]

/-- Where there is nothing behind the header, nothing is lost. -/
theorem keeps_iff_some : Keeps (someFiles []) someArgs someParsed [] :=
  (keeps_iff (parse_someFiles []) (by decide) (by decide) (if_pos rfl)).mpr
    ⟨rfl, .inl someParsed_plain⟩

/-- A line of code. -/
def codeLine : Line := ⟨lit "echo hi", by decide⟩

/-- After two updates of a file with one line of code only the header is left. -/
theorem code_line_lost :
    ¬ Keeps (someFiles [codeLine]) someArgs someParsed [codeLine]
      ∧ ∃ first second, bashscriptgen (someFiles [codeLine]) someArgs = .ok first
        ∧ bashscriptgen first.files someArgs = .ok second
        ∧ second.files (lit "tool") = some (substitute (generate someArgs someParsed).text) := by
  have hupdate : someParsed.updatefile ≠ [] := by decide
  have hname : someParsed.updatefile.head? ≠ some 45 := by decide
  have hfile : someFiles [codeLine] someParsed.updatefile = some _ := if_pos rfl
  obtain ⟨first, hfirst, hcontent⟩ := bashscriptgen_eq (parse_someFiles _) hupdate hname hfile
  have hagain : parse (fun name => (first.files name).isSome) someArgs = .ok someParsed :=
    parse_congr (parse_someFiles [codeLine]) (by rw [hcontent]; rfl)
  obtain ⟨second, hsecond, hcontent'⟩ := bashscriptgen_eq hagain hupdate hname hcontent
  obtain ⟨hzero, hheader⟩ := good_iff.mpr (.inl someParsed_plain)
  refine ⟨?_, first, second, hfirst, hsecond, hcontent'.trans (congrArg some ?_)⟩
  · rw [keeps_iff_updated (parse_someFiles _) hupdate hname hfile]
    rintro ⟨hlines, -⟩
    exact absurd (tail_nil_of_records hlines) (List.cons_ne_nil _ _)
  · exact line_lost hzero hheader _ (by decide) (by decide)

end Holchain.Bin.Bashscriptgen
