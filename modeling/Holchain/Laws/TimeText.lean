import Holchain.Laws.Time

/-!
# Laws.TimeText — what the texts of times denote

A text of an elapsed time has counts of units and a number with its unit (`Denotes`), and it can be
read in one way (`read_spelled`). The counts that are printed are those of the seconds
(`strUnits_eq`); but a number below a millisecond is printed in microseconds and labelled as
nanoseconds, so the texts denote what they are printed for where there is no such number
(`str_denotes_iff`).
-/

namespace Holchain.Holper

open Lib (truncate)
open TimePoint (elapsed sub_eq_elapsed)

/-! ## Texts that are read -/

/-- Counts of the units, each below the next larger one. -/
structure Counts where
  weeks : ℕ
  days : Fin 7
  hours : Fin 24
  minutes : Fin 60
  seconds : Fin 60

/-- The units of the number at the end. -/
inductive Label where
  | s
  | ms
  | ns

/-- A count with its unit: none if it is zero, and with a plural from two on. -/
def spellCount (name : Bytes) (n : ℕ) : List Token :=
  if n = 0 then []
  else .int n :: chars (lit " " ++ name ++ (if 2 ≤ n then lit "s" else []) ++ lit " ")

namespace Counts

/-- The text of the counts. -/
def spell (c : Counts) : List Token :=
  spellCount (lit "week") c.weeks ++ spellCount (lit "day") c.days
    ++ spellCount (lit "hour") c.hours ++ spellCount (lit "minute") c.minutes
    ++ spellCount (lit "second") c.seconds

/-- The counts together, in seconds. -/
def total (c : Counts) : ℕ :=
  c.weeks * 604800 + c.days * 86400 + c.hours * 3600 + c.minutes * 60 + c.seconds

end Counts

namespace Label

/-- How a unit is written. -/
def spell : Label → Bytes
  | s => lit "s"
  | ms => lit "ms"
  | ns => lit "ns"

/-- How many seconds it is. -/
def scale : Label → ℚ
  | s => 1
  | ms => 1 / 1000
  | ns => 1 / 1000000000

end Label

/-- A text of counts and a number with its unit. -/
def spelled (c : Counts) (x : ℚ) (label : Label) : List Token :=
  c.spell ++ .double x :: chars label.spell

/-- **What a text denotes**: all together. -/
def Denotes (text : List Token) (d : ℚ) : Prop :=
  ∃ c x label, text = spelled c x label ∧ (c.total : ℚ) + x * label.scale = d

/-! ## Reading -/

/-- The characters up to the next number. -/
def word : List Token → Bytes
  | .byte c :: rest => c :: word rest
  | _ => []

/-- The seconds of a unit that is written behind a count. -/
def unitOf (w : Bytes) : ℤ :=
  ((kTimeUnits.find? fun timeUnit => decide (w = lit " " ++ timeUnit.2 ++ lit " "
    ∨ w = lit " " ++ timeUnit.2 ++ lit "s" ++ lit " ")).map Prod.fst).getD 0

/-- The seconds of the unit at the end. -/
def scaleOf (w : Bytes) : ℚ :=
  if w = lit "s" then 1 else if w = lit "ms" then 1 / 1000
  else if w = lit "ns" then 1 / 1000000000 else 0

/-- All numbers with their units, in seconds. -/
def read : List Token → ℚ
  | [] => 0
  | .byte _ :: rest => read rest
  | .int n :: rest => n * unitOf (word rest) + read rest
  | .double x :: rest => x * scaleOf (word rest) + read rest

theorem word_chars (s : Bytes) (rest : List Token) : word (chars s ++ rest) = s ++ word rest := by
  induction s with
  | nil => rfl
  | cons c s ih => exact congrArg (c :: ·) ih

theorem read_chars (s : Bytes) (rest : List Token) : read (chars s ++ rest) = read rest := by
  induction s with
  | nil => rfl
  | cons c s ih => exact ih

theorem word_spellCount (name : Bytes) (n : ℕ) {rest : List Token} (h : word rest = []) :
    word (spellCount name n ++ rest) = [] := by
  unfold spellCount
  split
  · exact h
  · rfl

theorem unitOf_eq : ∀ timeUnit ∈ kTimeUnits,
    unitOf (lit " " ++ timeUnit.2 ++ [] ++ lit " ") = timeUnit.1
      ∧ unitOf (lit " " ++ timeUnit.2 ++ lit "s" ++ lit " ") = timeUnit.1 := by
  decide

theorem read_spellCount {unit : ℤ} {name : Bytes} (hunit : (unit, name) ∈ kTimeUnits) (n : ℕ)
    {rest : List Token} (h : word rest = []) :
    read (spellCount name n ++ rest) = n * unit + read rest := by
  obtain ⟨hone, hmany⟩ := unitOf_eq (unit, name) hunit
  unfold spellCount
  split
  · next hzero =>
    rw [hzero, Nat.cast_zero, zero_mul, zero_add]
    rfl
  · rw [List.cons_append, read, read_chars, word_chars, h, List.append_nil, Int.cast_natCast]
    split
    · rw [hmany]
    · rw [hone]

/-- **A spelled text is read as what it denotes.** -/
theorem read_spelled (c : Counts) (x : ℚ) (label : Label) :
    read (spelled c x label) = c.total + x * label.scale := by
  have hnumber : read (.double x :: chars label.spell) = x * label.scale := by
    have hread := read_chars label.spell []
    have hword := word_chars label.spell []
    rw [List.append_nil] at hread hword
    rw [read, hread, hword]
    cases label with
    | s => exact add_zero _
    | ms => exact add_zero _
    | ns => exact add_zero _
  have hseconds : word (spellCount (lit "second") c.seconds ++ .double x :: chars label.spell) = [] :=
    word_spellCount _ _ rfl
  have hminutes := word_spellCount (lit "minute") c.minutes hseconds
  have hhours := word_spellCount (lit "hour") c.hours hminutes
  have hdays := word_spellCount (lit "day") c.days hhours
  rw [spelled, Counts.spell, List.append_assoc, List.append_assoc, List.append_assoc,
    List.append_assoc]
  have hweek : (604800, lit "week") ∈ kTimeUnits := .head _
  have hday : (86400, lit "day") ∈ kTimeUnits := .tail _ (.head _)
  have hhour : (3600, lit "hour") ∈ kTimeUnits := .tail _ (.tail _ (.head _))
  have hminute : (60, lit "minute") ∈ kTimeUnits := .tail _ (.tail _ (.tail _ (.head _)))
  have hsecond : (1, lit "second") ∈ kTimeUnits :=
    .tail _ (.tail _ (.tail _ (.tail _ (.head _))))
  rw [read_spellCount hweek _ hdays, read_spellCount hday _ hhours, read_spellCount hhour _ hminutes,
    read_spellCount hminute _ hseconds, read_spellCount hsecond _ rfl, hnumber, Counts.total]
  push_cast
  ring

theorem Denotes.read {text : List Token} {d : ℚ} (h : Denotes text d) : read text = d := by
  obtain ⟨c, x, label, rfl, hsum⟩ := h
  exact (read_spelled c x label).trans hsum

/-! ## The counts that are printed -/

/-- One round of the loop prints the count of its unit. -/
theorem strUnits_cons {timeUnit : ℤ × Bytes} (hpos : 0 < timeUnit.1) (rest : List (ℤ × Bytes))
    {secs : ℤ} (hsecs : 0 ≤ secs) : TimePoint.strUnits (timeUnit :: rest) secs =
      spellCount timeUnit.2 (secs / timeUnit.1).toNat
        ++ TimePoint.strUnits rest (secs % timeUnit.1) := by
  have hdiv : secs.tdiv timeUnit.1 = secs / timeUnit.1 := Int.tdiv_eq_ediv_of_nonneg hsecs
  have hmod : secs.tmod timeUnit.1 = secs % timeUnit.1 := Int.tmod_eq_emod_of_nonneg hsecs
  have hplural : secs ≥ 2 * timeUnit.1 ↔ 2 ≤ (secs / timeUnit.1).toNat := by
    have := Int.le_ediv_iff_mul_le (a := 2) (b := secs) hpos
    omega
  rw [TimePoint.strUnits]
  by_cases hge : secs ≥ timeUnit.1
  · have hone : 1 ≤ secs / timeUnit.1 := by
      have := Int.le_ediv_iff_mul_le (a := 1) (b := secs) hpos
      omega
    have hne : (secs / timeUnit.1).toNat ≠ 0 := by omega
    have hcast : (((secs / timeUnit.1).toNat : ℕ) : ℤ) = secs / timeUnit.1 :=
      Int.toNat_of_nonneg (by omega)
    have hs : (if secs ≥ 2 * timeUnit.1 then chars (lit "s") else []) =
        chars (if 2 ≤ (secs / timeUnit.1).toNat then lit "s" else []) := by
      simp only [hplural]
      split
      · rfl
      · rfl
    rw [if_pos hge, spellCount, if_neg hne, hdiv, hmod, hcast, hs]
    simp only [chars, List.map_append, List.cons_append, List.append_assoc]
  · have hlt := not_le.mp hge
    rw [if_neg hge, Int.ediv_eq_zero_of_lt hsecs hlt, Int.emod_eq_of_lt hsecs hlt]
    rfl

/-- The counts of a number of seconds. -/
def countsOf (secs : ℤ) : Counts where
  weeks := (secs / 604800).toNat
  days := ⟨(secs % 604800 / 86400).toNat, by omega⟩
  hours := ⟨(secs % 604800 % 86400 / 3600).toNat, by omega⟩
  minutes := ⟨(secs % 604800 % 86400 % 3600 / 60).toNat, by omega⟩
  seconds := ⟨(secs % 604800 % 86400 % 3600 % 60 / 1).toNat, by omega⟩

/-- **The loop prints the counts of the seconds.** -/
theorem strUnits_eq {secs : ℤ} (h : 0 ≤ secs) :
    TimePoint.strUnits kTimeUnits secs = (countsOf secs).spell := by
  have hunits : kTimeUnits = [(604800, lit "week"), (86400, lit "day"), (3600, lit "hour"),
    (60, lit "minute"), (1, lit "second")] := rfl
  rw [hunits, strUnits_cons (by decide) _ h, strUnits_cons (by decide) _ (by dsimp only; omega),
    strUnits_cons (by decide) _ (by dsimp only; omega),
    strUnits_cons (by decide) _ (by dsimp only; omega),
    strUnits_cons (by decide) _ (by dsimp only; omega), TimePoint.strUnits, List.append_nil]
  simp only [Counts.spell, countsOf, List.append_assoc]

theorem total_countsOf {secs : ℤ} (h : 0 ≤ secs) : ((countsOf secs).total : ℤ) = secs := by
  simp only [Counts.total, countsOf]
  omega

/-- **A number is printed with its unit**, except below a millisecond. -/
theorem secondsToString_eq (val : ℚ) : ∃ (x : ℚ) (label : Label),
    secondsToString val = .double x :: chars label.spell
      ∧ x * label.scale = if val < 1 / 1000 then val / 1000 else val := by
  have hmilli : (0.001 : ℚ) = 1 / 1000 := by norm_num
  unfold secondsToString
  rw [hmilli]
  by_cases hsmall : val < 1 / 1000
  · rw [if_pos hsmall, if_pos hsmall]
    refine ⟨_, .ns, rfl, ?_⟩
    rw [Label.scale]
    ring
  · rw [if_neg hsmall, if_neg hsmall]
    by_cases hless : val < 1
    · rw [if_pos hless]
      refine ⟨_, .ms, rfl, ?_⟩
      rw [Label.scale]
      ring
    · rw [if_neg hless]
      exact ⟨_, .s, rfl, mul_one val⟩

/-! ## When the texts denote the times -/

/-- A text of whole seconds and a number denotes both where the number is not below a millisecond,
or zero. -/
theorem denotes_iff {text : List Token} {secs : ℤ} {val : ℚ} {c : Counts}
    (htext : text = c.spell ++ secondsToString val) (htotal : (c.total : ℤ) = secs)
    (hval : 0 ≤ val) : Denotes text (secs + val) ↔ val = 0 ∨ 1 / 1000 ≤ val := by
  obtain ⟨x, label, hprinted, hscale⟩ := secondsToString_eq val
  rw [hprinted] at htext
  have hcast : (c.total : ℚ) = secs := by rw [← htotal, Int.cast_natCast]
  have hspelled : text = spelled c x label := htext
  constructor
  · intro hdenotes
    have hread := hdenotes.read
    rw [hspelled, read_spelled, hscale, hcast] at hread
    split at hread
    · left
      linarith
    · next hnot => exact .inr (not_lt.mp hnot)
  · intro h
    refine ⟨c, x, label, hspelled, ?_⟩
    rw [hscale, hcast]
    split
    · next hsmall =>
      rcases h with hzero | hlarge
      · rw [hzero, zero_div]
      · exact absurd hsmall (not_lt.mpr hlarge)
    · rfl

/-- **When the texts denote the times**: where what is left of the seconds is zero or at least a
millisecond. -/
theorem str_denotes_iff (now t : TimePoint) (delta : ℚ) (hpos : 0 ≤ elapsed t now)
    (hlt : elapsed t now < 2 ^ 31) (hdelta : 0 ≤ delta) :
    (∃ text, t.str now = some text ∧ (Denotes text (elapsed t now) ↔
        Int.fract (elapsed t now) = 0 ∨ 1 / 1000 ≤ Int.fract (elapsed t now)))
      ∧ (Denotes (TimeDelta.str delta) delta ↔ delta = 0 ∨ 1 / 1000 ≤ delta) := by
  constructor
  · have hd := sub_eq_elapsed t now
    generalize elapsed t now = d at hd hpos hlt ⊢
    have htruncate : truncate d = ⌊d⌋ := Lib.truncate_of_nonneg hpos
    have hfloor : 0 ≤ ⌊d⌋ := Int.floor_nonneg.mpr hpos
    have hrange : -2 ^ 31 ≤ ⌊d⌋ ∧ ⌊d⌋ < 2 ^ 31 := by
      refine ⟨by omega, Int.floor_lt.mpr ?_⟩
      push_cast
      exact hlt
    have hint : TimePoint.toInt d = some ⌊d⌋ := by
      rw [TimePoint.toInt, htruncate]
      exact if_pos hrange
    have hsplit : (⌊d⌋ : ℚ) + Int.fract d = d := Int.floor_add_fract d
    refine ⟨(countsOf ⌊d⌋).spell ++ secondsToString (Int.fract d), ?_, ?_⟩
    · rw [TimePoint.str, hd, hint, ← strUnits_eq hfloor]
      rfl
    · have hiff := denotes_iff rfl (total_countsOf hfloor) (Int.fract_nonneg d)
      rwa [hsplit] at hiff
  · have htext : TimeDelta.str delta = (countsOf 0).spell ++ secondsToString delta := rfl
    have hiff := denotes_iff htext (total_countsOf (le_refl 0)) hdelta
    rwa [Int.cast_zero, zero_add] at hiff

/-- A hundred seconds and a half. -/
theorem str_denotes_iff_hundred : ∃ text, TimePoint.str ⟨0, 0⟩ ⟨100, 500000000⟩ = some text
    ∧ Denotes text (100 + 1 / 2) := by
  have helapsed : elapsed ⟨0, 0⟩ ⟨100, 500000000⟩ = 100 + 1 / 2 := by
    rw [elapsed, TimePoint.total, TimePoint.total]
    norm_num
  obtain ⟨⟨text, hstr, hiff⟩, -⟩ := str_denotes_iff ⟨100, 500000000⟩ ⟨0, 0⟩ 0
    (by rw [helapsed]; norm_num) (by rw [helapsed]; norm_num) (le_refl 0)
  rw [helapsed] at hiff
  refine ⟨text, hstr, hiff.mpr (.inr ?_)⟩
  norm_num

/-- Half a millisecond is printed as 500 nanoseconds. -/
theorem halfMilli_str : TimePoint.str ⟨0, 0⟩ ⟨0, 500000⟩ = some (.double 500 :: chars (lit "ns"))
    ∧ elapsed ⟨0, 0⟩ ⟨0, 500000⟩ = 1 / 2000
    ∧ ¬ Denotes (.double 500 :: chars (lit "ns")) (1 / 2000) := by
  refine ⟨by decide +kernel, by decide +kernel, fun h => ?_⟩
  have hspelled := read_spelled (countsOf 0) 500 .ns
  have hread : read (spelled (countsOf 0) 500 .ns) = 1 / 2000 := h.read
  rw [hread, Label.scale, show (countsOf 0).total = 0 from rfl] at hspelled
  norm_num at hspelled

end Holchain.Holper
