import Mathlib.Algebra.Order.Group.Nat
import Holchain.Bin.Fromto

/-!
# Laws.Fromto — what is selected, and what the inverted run does with it

As long as nothing has set `matched`, `ctr` is the bit that says whether a range is open, and the
inverted run prints what the plain one does not. `-o` sets it at the first line with TO, wherever
that stands, and from the next line on both runs print everything.
-/

namespace Holchain.Bin.Fromto

open Holper (lit)
open Lib (InRange InFirstRange openAfter select)
open Lib.Filter (mask_getElem? mask_not)

variable {flags : Flags} {from_ to_ : Literal} {input : List Line}

/-! ## The parts of the program -/

theorem index_ne_zero {s t : Holper.Bytes} (ht : t ≠ []) : index s t ≠ 0 ↔ t <:+: s := by
  induction s with
  | nil =>
    rw [List.infix_nil]
    exact ⟨fun h => absurd rfl h, fun h => absurd h ht⟩
  | cons c s ih =>
    rw [List.infix_cons_iff, index, ← ih]
    split
    next hp => exact ⟨fun _ => .inl hp, fun _ => Nat.one_ne_zero⟩
    next hp =>
      cases index s t with
      | zero => exact ⟨fun h => absurd rfl h, fun h => h.resolve_left hp⟩
      | succ n => exact ⟨fun _ => .inr (Nat.succ_ne_zero n), fun _ => Nat.succ_ne_zero _⟩

/-- The line has the text in it. -/
def Literal.In (t : Literal) (line : Line) : Prop := t.text <:+: line.val

instance (t : Literal) : DecidablePred t.In := fun line =>
  inferInstanceAs (Decidable (t.text <:+: line.val))

theorem index_eq_decide (t : Literal) (line : Line) :
    (index line.val t.text != 0) = decide (t.In line) := by
  rw [Bool.eq_iff_iff, bne_iff_ne, decide_eq_true_iff]
  exact index_ne_zero t.nonempty

/-- A line of an open range is printed unless it has one of the texts and its flag is missing. -/
theorem eval_cond (ctr isFrom isTo : Bool) :
    (cond flags).eval ctr isFrom isTo =
      (flags.inverse ^^ (ctr && (flags.printFrom || !isFrom) && (flags.printTo || !isTo))) := by
  obtain ⟨inverse, printFrom, printTo, matchOnce⟩ := flags
  cases inverse <;> cases printFrom <;> cases printTo
    <;> simp only [cond, Cond.eval, Bool.false_eq_true, if_true, if_false, Bool.true_or,
      Bool.false_or, Bool.and_true, Bool.true_xor, Bool.false_xor]

/-- What the program does while nothing has matched. -/
theorem step_unmatched (ctr : Bool) (line : Line) :
    (awk flags from_ to_).step { ctr } line =
      ({ ctr := (ctr || decide (from_.In line)) && !decide (to_.In line),
         matched := decide (to_.In line) && flags.matchOnce },
        flags.inverse ^^ ((ctr || decide (from_.In line))
          && (flags.printFrom || !decide (from_.In line))
          && (flags.printTo || !decide (to_.In line)))) := by
  have hor : (if decide (from_.In line) = true then true else ctr) =
      (ctr || decide (from_.In line)) := by
    cases decide (from_.In line) with
    | true => exact (Bool.or_true ctr).symm
    | false => exact (Bool.or_false ctr).symm
  simp only [awk, Bool.false_eq_true, if_false, index_eq_decide, eval_cond, hor]
  cases decide (to_.In line) with
  | true => simp only [if_true, Bool.not_true, Bool.and_false, Bool.true_and]
  | false => simp only [Bool.false_eq_true, if_false, Bool.not_false, Bool.and_true, Bool.false_and]

/-- The flag `-v` does nothing to the variables. -/
theorem step_inverse (inverse : Bool) (vars : Vars) (line : Line) :
    ((awk { flags with inverse } from_ to_).step vars line).1 =
      ((awk { flags with inverse := false } from_ to_).step vars line).1 := by
  dsimp only [awk]
  split
  · rfl
  · rfl

/-! ## While nothing has matched -/

/-- Nothing that `-o` looks for has gone by. -/
def Unmatched (flags : Flags) (to_ : Literal) (input : List Line) : Prop :=
  flags.matchOnce = false ∨ ∀ line ∈ input, ¬ to_.In line

theorem Unmatched.of_concat {line : Line} (h : Unmatched flags to_ (input ++ [line])) :
    Unmatched flags to_ input ∧ (decide (to_.In line) && flags.matchOnce) = false := by
  rcases h with h | h
  · exact ⟨.inl h, by rw [h, Bool.and_false]⟩
  · have hline : ¬ to_.In line := h line (List.mem_append_right _ (List.mem_singleton_self line))
    refine ⟨.inr fun l hl => h l (List.mem_append_left _ hl), ?_⟩
    rw [decide_eq_false hline, Bool.false_and]

/-- **`ctr` says whether a range is open.** -/
theorem Unmatched.after (h : Unmatched flags to_ input) :
    (awk flags from_ to_).after {} input = { ctr := openAfter from_.In to_.In input } := by
  induction input using List.reverseRecOn with
  | nil => rfl
  | append_singleton input line ih =>
    obtain ⟨hinput, hmatch⟩ := h.of_concat
    rw [Lib.Filter.after_concat, ih hinput, step_unmatched, hmatch, Lib.openAfter_concat]

/-- The condition under which `-o` does what it is for: no line follows the first one with TO. -/
def MatchesLast (flags : Flags) (to_ : Literal) (input : List Line) : Prop :=
  flags.matchOnce = false ∨ ∀ line ∈ input.dropLast, ¬ to_.In line

theorem MatchesLast.take (h : MatchesLast flags to_ input) {i : ℕ} (hi : i < input.length) :
    Unmatched flags to_ (input.take i) := by
  refine h.imp id fun hlast line hline => hlast line ?_
  rw [List.dropLast_eq_take]
  exact List.take_subset_take_left input (by omega) hline

/-! ## The law -/

/-- The line is selected: it is in a range, with `-o` in the first one, and where it has FROM or TO
in it, `-f` or `-t` is given. -/
def Selected (flags : Flags) (from_ to_ : Literal) (input : List Line) (i : ℕ) (line : Line) :
    Prop :=
  (if flags.matchOnce then InFirstRange from_.In to_.In input i
    else InRange from_.In to_.In input i)
  ∧ (flags.printFrom = true ∨ ¬ from_.In line) ∧ (flags.printTo = true ∨ ¬ to_.In line)

/-- The plain run and the inverted one share out the input: each line is printed by one of them,
both keep the order, and the plain one prints the selected lines. -/
def Selects (flags : Flags) (from_ to_ : Literal) (input : List Line) : Prop :=
  ∃ mask : List Bool, mask.length = input.length
    ∧ lines { flags with inverse := false } from_ to_ input = select mask input
    ∧ lines { flags with inverse := true } from_ to_ input = select (mask.map not) input
    ∧ ∀ i line, input[i]? = some line →
      (mask[i]? = some true ↔ Selected flags from_ to_ input i line)

theorem selected_iff (h : MatchesLast flags to_ input) {i : ℕ} {line : Line}
    (hline : input[i]? = some line) :
    Selected flags from_ to_ input i line ↔
      ((openAfter from_.In to_.In (input.take i) || decide (from_.In line))
        && (flags.printFrom || !decide (from_.In line))
        && (flags.printTo || !decide (to_.In line))) = true := by
  have hrange : (if flags.matchOnce then InFirstRange from_.In to_.In input i
      else InRange from_.In to_.In input i) ↔ InRange from_.In to_.In input i := by
    obtain ⟨hlt, -⟩ := List.getElem?_eq_some_iff.mp hline
    rcases h.take hlt with honce | hnone
    · rw [honce, if_neg Bool.false_ne_true]
    · split
      · exact Lib.inFirstRange_iff hnone
      · exact Iff.rfl
  unfold Selected
  rw [hrange, Lib.inRange_iff hline, Bool.and_eq_true, Bool.and_eq_true, Bool.or_eq_true,
    Bool.or_eq_true, Bool.or_eq_true, Bool.not_eq_true', Bool.not_eq_true', decide_eq_true_iff,
    decide_eq_false_iff_not, decide_eq_false_iff_not, or_comm (a := from_.In line), and_assoc]

theorem MatchesLast.selects (h : MatchesLast flags to_ input) :
    Selects flags from_ to_ input := by
  have hafter (i : ℕ) (line : Line) (hline : input[i]? = some line) :
      (awk { flags with inverse := false } from_ to_).after {} (input.take i) =
        { ctr := openAfter from_.In to_.In (input.take i) } := by
    obtain ⟨hlt, -⟩ := List.getElem?_eq_some_iff.mp hline
    have hun : Unmatched { flags with inverse := false } to_ (input.take i) := h.take hlt
    exact hun.after
  have hnot : (awk { flags with inverse := true } from_ to_).mask {} input =
      ((awk { flags with inverse := false } from_ to_).mask {} input).map not := by
    refine mask_not _ (step_inverse true) fun i line hline => ?_
    rw [hafter i line hline, step_unmatched, step_unmatched]
    exact (Bool.true_xor _).trans (congrArg not (Bool.false_xor _).symm)
  refine ⟨(awk { flags with inverse := false } from_ to_).mask {} input,
    Lib.Filter.length_mask _ _ _, Lib.Filter.run_eq_select _ _ _, ?_, fun i line hline => ?_⟩
  · rw [← hnot]
    exact Lib.Filter.run_eq_select _ _ _
  · rw [mask_getElem? _ _ hline, hafter i line hline, step_unmatched, selected_iff h hline,
      Bool.false_xor, Option.some.injEq]

/-! ## Behind the first match -/

/-- Once `matched` is set, everything is printed. -/
theorem run_matched (ctr : Bool) :
    (awk flags from_ to_).run { ctr, matched := true } input = input := by
  induction input with
  | nil => rfl
  | cons line input ih =>
    show line :: (awk flags from_ to_).run { ctr, matched := true } input = line :: input
    rw [ih]

/-- How many lines the plain run and the inverted one print together. -/
def printed (flags : Flags) (from_ to_ : Literal) (vars : Vars) (input : List Line) : ℕ :=
  ((awk { flags with inverse := false } from_ to_).run vars input).length
    + ((awk { flags with inverse := true } from_ to_).run vars input).length

theorem printed_matched (ctr : Bool) :
    printed flags from_ to_ { ctr, matched := true } input = input.length + input.length := by
  unfold printed
  rw [run_matched, run_matched]

/-- Until then a line is printed once. -/
theorem printed_cons (ctr : Bool) (line : Line) :
    printed flags from_ to_ { ctr } (line :: input) =
      printed flags from_ to_
        { ctr := (ctr || decide (from_.In line)) && !decide (to_.In line),
          matched := decide (to_.In line) && flags.matchOnce } input + 1 := by
  unfold printed
  rw [Lib.Filter.run, Lib.Filter.run, step_unmatched, step_unmatched, Bool.false_xor,
    Bool.true_xor]
  dsimp only
  cases (ctr || decide (from_.In line)) && (flags.printFrom || !decide (from_.In line))
      && (flags.printTo || !decide (to_.In line)) with
  | true =>
    simp only [Bool.not_true, Bool.false_eq_true, if_true, if_false, List.length_cons]
    omega
  | false =>
    simp only [Bool.not_false, Bool.false_eq_true, if_true, if_false, List.length_cons]
    omega

/-- With `-o`, the two runs print a line twice if it follows one with TO. -/
theorem not_in_of_printed (honce : flags.matchOnce = true) {ctr : Bool}
    (h : printed flags from_ to_ { ctr } input = input.length) :
    ∀ line ∈ input.dropLast, ¬ to_.In line := by
  induction input generalizing ctr with
  | nil => exact fun line hline => absurd hline List.not_mem_nil
  | cons line input ih =>
    rw [printed_cons, honce, Bool.and_true, List.length_cons] at h
    by_cases hto : to_.In line
    · rw [decide_eq_true hto, printed_matched] at h
      have hnil : input = [] := List.eq_nil_of_length_eq_zero (by omega)
      rw [hnil]
      exact fun l hl => absurd hl List.not_mem_nil
    · rw [decide_eq_false hto] at h
      have hrest := ih (Nat.succ.inj h)
      cases input with
      | nil => exact fun l hl => absurd hl List.not_mem_nil
      | cons line' input =>
        rw [List.dropLast_cons_cons]
        intro l hl
        rcases List.mem_cons.mp hl with rfl | hl
        · exact hto
        · exact hrest l hl

/-- **What `fromto` selects**: the plain run prints the ranges, and the inverted one everything
else, if and only if `-o` is not given or no line follows the first one with TO. Behind that line
`-o` prints everything, inverted or not, even where no range has been opened yet. -/
theorem selects_iff (flags : Flags) (from_ to_ : Literal) (input : List Line) :
    Selects flags from_ to_ input ↔
      flags.matchOnce = false ∨ ∀ line ∈ input.dropLast, ¬ to_.text <:+: line.val := by
  constructor
  · rintro ⟨mask, hlength, hplain, hinverse, -⟩
    cases honce : flags.matchOnce with
    | false => exact .inl rfl
    | true =>
      have hsum := Lib.length_select_add hlength
      rw [← hplain, ← hinverse] at hsum
      have hprinted : printed flags from_ to_ { ctr := false } input = input.length := hsum
      exact .inr (not_in_of_printed honce hprinted)
  · intro h
    exact MatchesLast.selects h

/-- A last line after the first with TO. -/
def afterTo : List Line := [⟨lit "end", by decide⟩, ⟨lit "rest", by decide⟩]

/-- It is printed by both runs, though no range has been opened. -/
theorem printed_twice :
    ¬ Selects { matchOnce := true } ⟨lit "begin", by decide, by decide⟩
      ⟨lit "end", by decide, by decide⟩ afterTo := by
  rintro ⟨mask, hlength, hplain, hinverse, -⟩
  have hsum := Lib.length_select_add hlength
  rw [← hplain, ← hinverse] at hsum
  have htwice : printed { matchOnce := true } ⟨lit "begin", by decide, by decide⟩
      ⟨lit "end", by decide, by decide⟩ {} afterTo = 3 := by decide
  have hlen : afterTo.length = 2 := rfl
  have hthree := htwice.symm.trans (hsum.trans hlen)
  exact absurd hthree (by decide)

end Holchain.Bin.Fromto
