import Mathlib.Data.List.Chain

/-!
# Lib.Codepoints — strings with surrogates

A string is a list of code points, and a surrogate may stand in it alone: so a text that is not
UTF-8 is kept. What no decoder makes is a high surrogate before a low one, since the two together
are another character (`Str.unpaired`). Over 16-bit units the characters above the first 65536 are
such pairs, and `merge` puts them together again.
-/

namespace Holchain.Lib

/-- A first half of a pair. -/
def isHigh (c : ℕ) : Bool := 0xD800 ≤ c && c ≤ 0xDBFF

/-- A second half of a pair. -/
def isLow (c : ℕ) : Bool := 0xDC00 ≤ c && c ≤ 0xDFFF

/-- Two code points that are not the halves of one. -/
def Unpaired (a b : ℕ) : Prop := ¬ (isHigh a = true ∧ isLow b = true)

/-- A string. -/
@[ext]
structure Str where
  points : List ℕ
  bounded : ∀ c ∈ points, c < 0x110000
  unpaired : points.IsChain Unpaired
  deriving DecidableEq

/-! ## Pairs -/

/-- The character of two halves. -/
def combine (high low : ℕ) : ℕ := 0x10000 + (high - 0xD800) * 0x400 + (low - 0xDC00)

/-- The units of a character. -/
def units (c : ℕ) : List ℕ :=
  if c < 0x10000 then [c]
  else [0xD800 + (c - 0x10000) / 0x400, 0xDC00 + (c - 0x10000) % 0x400]

/-- Pairs to characters. -/
def merge : List ℕ → List ℕ
  | [] => []
  | [u] => [u]
  | u :: v :: rest =>
    if isHigh u && isLow v then combine u v :: merge rest else u :: merge (v :: rest)

variable {c u v : ℕ} {us : List ℕ}

theorem isHigh_iff : isHigh c = true ↔ 0xD800 ≤ c ∧ c ≤ 0xDBFF := by
  rw [isHigh, Bool.and_eq_true, decide_eq_true_eq, decide_eq_true_eq]

theorem isLow_iff : isLow c = true ↔ 0xDC00 ≤ c ∧ c ≤ 0xDFFF := by
  rw [isLow, Bool.and_eq_true, decide_eq_true_eq, decide_eq_true_eq]

theorem merge_pair (hu : isHigh u = true) (hv : isLow v = true) :
    merge (u :: v :: us) = combine u v :: merge us := by
  rw [merge, hu, hv, Bool.and_self, if_pos rfl]

/-- A unit that is no half of a pair with the next one. -/
theorem merge_cons (h : ∀ v ∈ us.head?, Unpaired u v) : merge (u :: us) = u :: merge us := by
  cases us with
  | nil => rfl
  | cons v us =>
    have hv : ¬ (isHigh u && isLow v) = true := by
      rw [Bool.and_eq_true]
      exact h v rfl
    rw [merge, if_neg hv]

theorem units_low (h : c < 0x10000) : units c = [c] := if_pos h

theorem units_high (h : ¬ c < 0x10000) :
    units c = [0xD800 + (c - 0x10000) / 0x400, 0xDC00 + (c - 0x10000) % 0x400] := if_neg h

/-- The first unit of a character is a second half only if the character is. -/
theorem head_units {points : List ℕ} (hbounded : ∀ d ∈ points, d < 0x110000)
    (h : ∀ d ∈ points.head?, Unpaired c d) :
    ∀ v ∈ (points.flatMap units).head?, Unpaired c v := by
  cases points with
  | nil => exact fun v hv => nomatch hv
  | cons d points =>
    intro v hv
    rw [List.flatMap_cons] at hv
    by_cases hd : d < 0x10000
    · rw [units_low hd] at hv
      cases hv
      exact h d rfl
    · rw [units_high hd] at hv
      cases hv
      rintro ⟨-, hlow⟩
      have hhigh : d < 0x110000 := hbounded d List.mem_cons_self
      have := (isLow_iff.mp hlow).1
      omega

theorem combine_eq (u v : ℕ) : combine u v = 0x10000 + (u - 0xD800) * 0x400 + (v - 0xDC00) := rfl

theorem combine_halves (h : ¬ c < 0x10000) :
    combine (0xD800 + (c - 0x10000) / 0x400) (0xDC00 + (c - 0x10000) % 0x400) = c := by
  have := combine_eq (0xD800 + (c - 0x10000) / 0x400) (0xDC00 + (c - 0x10000) % 0x400)
  omega

/-- **The units of a string are its characters again.** -/
theorem merge_units {points : List ℕ} (hbounded : ∀ c ∈ points, c < 0x110000)
    (hunpaired : points.IsChain Unpaired) : merge (points.flatMap units) = points := by
  induction points with
  | nil => rfl
  | cons c points ih =>
    obtain ⟨hhead, hrest⟩ := List.isChain_cons.mp hunpaired
    have hpoints : ∀ d ∈ points, d < 0x110000 := fun d hd => hbounded d (List.mem_cons_of_mem c hd)
    have hmerge := ih hpoints hrest
    rw [List.flatMap_cons]
    by_cases hc : c < 0x10000
    · rw [units_low hc, List.singleton_append, merge_cons (head_units hpoints hhead), hmerge]
    · have hlt : c < 0x110000 := hbounded c List.mem_cons_self
      have hhigh : isHigh (0xD800 + (c - 0x10000) / 0x400) = true := isHigh_iff.mpr (by omega)
      have hlow : isLow (0xDC00 + (c - 0x10000) % 0x400) = true := isLow_iff.mpr (by omega)
      rw [units_high hc, List.cons_append, List.singleton_append, merge_pair hhigh hlow, hmerge,
        combine_halves hc]

/-- A unit is at most 16 bits long. -/
theorem units_bounded {c u : ℕ} (hc : c < 0x110000) (hu : u ∈ units c) : u < 0x10000 := by
  by_cases h : c < 0x10000
  · rw [units_low h, List.mem_singleton] at hu
    omega
  · rw [units_high h] at hu
    rcases List.mem_pair.mp hu with heq | heq
    · omega
    · omega

/-! ## Strings of units -/

theorem combine_bounds (hu : isHigh u = true) (hv : isLow v = true) :
    0x10000 ≤ combine u v ∧ combine u v < 0x110000 := by
  have hhigh := isHigh_iff.mp hu
  have hlow := isLow_iff.mp hv
  have := combine_eq u v
  omega

theorem merge_bounded (h : ∀ u ∈ us, u < 0x110000) : ∀ c ∈ merge us, c < 0x110000 := by
  induction us using merge.induct with
  | case1 => exact fun c hc => nomatch hc
  | case2 u => exact h
  | case3 u v rest hpair ih =>
    obtain ⟨hu, hv⟩ := Bool.and_eq_true_iff.mp hpair
    rw [merge_pair hu hv]
    intro c hc
    rcases List.mem_cons.mp hc with heq | hc
    · rw [heq]
      exact (combine_bounds hu hv).2
    · exact ih (fun w hw => h w (List.mem_cons_of_mem u (List.mem_cons_of_mem v hw))) c hc
  | case4 u v rest hpair ih =>
    rw [merge, if_neg hpair]
    intro c hc
    rcases List.mem_cons.mp hc with rfl | hc
    · exact h c List.mem_cons_self
    · exact ih (fun w hw => h w (List.mem_cons_of_mem u hw)) c hc

/-- The first character of merged units is a second half only if the first unit is. -/
theorem head_merge (h : ∀ v ∈ us.head?, Unpaired c v) : ∀ d ∈ (merge us).head?, Unpaired c d := by
  induction us using merge.induct with
  | case1 => exact h
  | case2 u => exact h
  | case3 u v rest hpair ih =>
    obtain ⟨hu, hv⟩ := Bool.and_eq_true_iff.mp hpair
    rw [merge_pair hu hv]
    intro d hd ⟨_, hlow⟩
    have heq : combine u v = d := Option.some.inj hd
    have hlarge := (combine_bounds hu hv).1
    have := (isLow_iff.mp hlow).2
    omega
  | case4 u v rest hpair ih =>
    rw [merge, if_neg hpair]
    exact h

theorem merge_unpaired : (merge us).IsChain Unpaired := by
  induction us using merge.induct with
  | case1 => exact .nil
  | case2 u => exact .singleton u
  | case3 u v rest hpair ih =>
    obtain ⟨hu, hv⟩ := Bool.and_eq_true_iff.mp hpair
    rw [merge_pair hu hv, List.isChain_cons]
    refine ⟨?_, ih⟩
    intro d _ ⟨hhigh, _⟩
    have hlarge := (combine_bounds hu hv).1
    have := (isHigh_iff.mp hhigh).2
    omega
  | case4 u v rest hpair ih =>
    rw [merge, if_neg hpair, List.isChain_cons]
    refine ⟨head_merge ?_, ih⟩
    rintro w hw
    cases hw
    rwa [Bool.and_eq_true] at hpair

/-- Nothing is merged in a string. -/
theorem merge_eq_self (h : us.IsChain Unpaired) : merge us = us := by
  induction us with
  | nil => rfl
  | cons u us ih =>
    obtain ⟨hhead, hrest⟩ := List.isChain_cons.mp h
    rw [merge_cons hhead, ih hrest]

namespace Str

/-- The string of units. -/
def ofUnits (us : List ℕ) (h : ∀ u ∈ us, u < 0x110000) : Str where
  points := merge us
  bounded := merge_bounded h
  unpaired := merge_unpaired

/-- The units of a string. -/
def toUnits (s : Str) : List ℕ := s.points.flatMap units

theorem toUnits_bounded (s : Str) : ∀ u ∈ s.toUnits, u < 0x10000 := by
  intro u hu
  obtain ⟨c, hc, hu⟩ := List.mem_flatMap.mp hu
  exact units_bounded (s.bounded c hc) hu

theorem ofUnits_toUnits (s : Str) (h : ∀ u ∈ s.toUnits, u < 0x110000) : ofUnits s.toUnits h = s :=
  Str.ext (merge_units s.bounded s.unpaired)

/-- The string of a text without surrogates. -/
def ofText (text : List Char) : Str where
  points := text.map Char.toNat
  bounded c hc := by
    obtain ⟨a, -, rfl⟩ := List.mem_map.mp hc
    have hvalid : a.toNat.isValidChar := a.valid
    rcases hvalid with h | h
    · omega
    · exact h.2
  unpaired := by
    rw [List.isChain_map]
    apply List.Pairwise.isChain
    apply List.pairwise_of_forall
    intro a _ ⟨hhigh, _⟩
    have hbounds := isHigh_iff.mp hhigh
    have hvalid : a.toNat.isValidChar := a.valid
    rcases hvalid with h | h
    · omega
    · omega

/-- The characters of a string, each a string of its own. -/
def chars (s : Str) : List Str :=
  s.points.attach.map fun c =>
    { points := [c.1]
      bounded := fun _ hd => List.mem_singleton.mp hd ▸ s.bounded c.1 c.2
      unpaired := .singleton c.1 }

/-- A string behind another one; two halves that meet are one character. -/
def append (s t : Str) : Str :=
  ofUnits (s.points ++ t.points) fun c hc =>
    (List.mem_append.mp hc).elim (s.bounded c) (t.bounded c)

theorem ofText_nil_append (s : Str) : (ofText []).append s = s :=
  Str.ext (merge_eq_self s.unpaired)

end Str

/-- A literal. -/
def text (s : String) : Str := .ofText s.toList

end Holchain.Lib
