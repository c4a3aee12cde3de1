import Mathlib.Tactic.Linarith
import Mathlib.Tactic.Ring
import Mathlib.Tactic.NormNum
import Mathlib.Tactic.FieldSimp
import Holchain.Holper.Time

/-!
# Laws.Time — the order and the arithmetic of points in time

A sum has the seconds of both, and the nanoseconds of both cut toward zero, with what is carried or
borrowed (`add_total`). So it is normalised and less than one nanosecond away; and it is monotone,
since what is cut at a whole number of nanoseconds does not pass another one.
-/

namespace Holchain.Holper.TimePoint

theorem lt_def (a b : TimePoint) : a < b ↔ a.sec < b.sec ∨ a.sec = b.sec ∧ a.nsec < b.nsec := by
  show (if a.sec = b.sec then a.nsec < b.nsec else a.sec < b.sec) ↔ _
  split
  · omega
  · omega

/-- **`operator<` is a linear order**: by the seconds, and then by the nanoseconds. -/
instance : LinearOrder TimePoint where
  le a b := ¬ b < a
  lt a b := a < b
  le_refl := lt_irrefl
  le_trans a b c hab hbc := by
    simp only [lt_def] at hab hbc ⊢
    omega
  lt_iff_le_not_ge a b := by
    simp only [lt_def]
    omega
  le_antisymm a b hab hba := by
    simp only [lt_def] at hab hba
    obtain ⟨sec, nsec⟩ := a
    obtain ⟨sec', nsec'⟩ := b
    simp only [TimePoint.mk.injEq]
    simp only at hab hba
    omega
  le_total a b := by
    simp only [lt_def]
    omega
  toDecidableLE _ _ := inferInstanceAs (Decidable (¬ _))

/-! ## Normalised points -/

open Lib (truncate)

/-- A point whose nanoseconds are less than a second. -/
structure Normalised (t : TimePoint) : Prop where
  seconds : -2 ^ 63 ≤ t.sec ∧ t.sec < 2 ^ 63
  nanoseconds : 0 ≤ t.nsec ∧ t.nsec < 1000000000

/-- The nanoseconds altogether. -/
def total (t : TimePoint) : ℤ := t.sec * 1000000000 + t.nsec

variable {t p : TimePoint} {d : ℚ}

theorem value_eq (t : TimePoint) : (t.value : ℚ) = (total t : ℚ) / 1000000000 := by
  rw [value, total]
  push_cast
  ring

/-- The seconds from one point to another. -/
def elapsed (t now : TimePoint) : ℚ := ((total now - total t : ℤ) : ℚ) / 1000000000

/-- **A difference of points** is the time between them. -/
theorem sub_eq_elapsed (t now : TimePoint) : (now.sub t : ℚ) = elapsed t now := by
  rw [sub, value_eq, value_eq, elapsed]
  push_cast
  ring

theorem lt_iff_total {a b : TimePoint} (ha : Normalised a) (hb : Normalised b) :
    a < b ↔ total a < total b := by
  have hnsec := ha.nanoseconds
  have hnsec' := hb.nanoseconds
  rw [lt_def, total, total]
  omega

/-- **The order is that of the values.** -/
theorem lt_iff_value {a b : TimePoint} (ha : Normalised a) (hb : Normalised b) :
    a < b ↔ (a.value : ℚ) < b.value := by
  rw [lt_iff_total ha hb, value_eq, value_eq, div_lt_div_iff_of_pos_right (by norm_num),
    Int.cast_lt]

/-! ## Sums -/

/-- The nanoseconds of both, before they are cut. -/
def nanos (t : TimePoint) (d : ℚ) : ℚ := t.nsec + (d - truncate d) * 1000000000

theorem long_eq_some {n m : ℤ} : long n = some m ↔ n = m ∧ -2 ^ 63 ≤ n ∧ n < 2 ^ 63 := by
  unfold long
  split
  · next hrange =>
    rw [and_iff_left hrange, Option.some_inj]
  · next hrange =>
    exact ⟨fun h => (nomatch h), fun h => absurd h.2 hrange⟩

theorem nanos_bounds (ht : Normalised t) (d : ℚ) :
    -1000000000 < nanos t d ∧ nanos t d < 2000000000 := by
  obtain ⟨hlow, hhigh⟩ := abs_lt.mp (Lib.abs_truncate_sub_lt d)
  have hnonneg : (0 : ℚ) ≤ t.nsec := Int.cast_nonneg ht.nanoseconds.1
  have hless : (t.nsec : ℚ) ≤ 1000000000 := by exact_mod_cast ht.nanoseconds.2.le
  unfold nanos
  constructor
  · linarith
  · linarith

theorem truncate_nanos (ht : Normalised t) (d : ℚ) :
    -1000000000 ≤ truncate (nanos t d) ∧ truncate (nanos t d) < 2000000000 := by
  obtain ⟨hlow, hhigh⟩ := nanos_bounds ht d
  constructor
  · apply Lib.le_truncate
    push_cast
    exact hlow.le
  · rcases lt_or_ge (nanos t d) 0 with hneg | hpos
    · have := (Lib.truncate_neg hneg).1
      omega
    · have hle := (Lib.truncate_nonneg hpos).2
      exact_mod_cast hle.trans_lt hhigh

/-- **What a sum is**: the seconds and the nanoseconds of both, normalised. -/
theorem add_total (ht : Normalised t) (h : t.add d = some p) :
    Normalised p
      ∧ total p = (t.sec + truncate d) * 1000000000 + truncate (nanos t d) := by
  unfold add at h
  simp only [Option.bind_eq_bind, Option.bind_eq_some_iff, Option.pure_def] at h
  obtain ⟨seconds, hseconds, sec, hsec, nsec, hnsec, h⟩ := h
  obtain ⟨rfl, -⟩ := long_eq_some.mp hseconds
  obtain ⟨rfl, hrange⟩ := long_eq_some.mp hsec
  change long (truncate (nanos t d)) = some nsec at hnsec
  obtain ⟨rfl, -⟩ := long_eq_some.mp hnsec
  have hbounds := truncate_nanos ht d
  generalize truncate (nanos t d) = n at h hbounds ⊢
  split at h
  · simp only [Option.bind_eq_some_iff] at h
    obtain ⟨nsec, hnsec, sec, hsec, hp⟩ := h
    obtain ⟨rfl, -⟩ := long_eq_some.mp hnsec
    obtain ⟨rfl, hrange⟩ := long_eq_some.mp hsec
    cases hp
    refine ⟨⟨hrange, ?_⟩, ?_⟩
    · dsimp only
      omega
    · dsimp only [total]
      omega
  · split at h
    · simp only [Option.bind_eq_some_iff] at h
      obtain ⟨nsec, hnsec, sec, hsec, hp⟩ := h
      obtain ⟨rfl, -⟩ := long_eq_some.mp hnsec
      obtain ⟨rfl, hrange⟩ := long_eq_some.mp hsec
      cases hp
      refine ⟨⟨hrange, ?_⟩, ?_⟩
      · dsimp only
        omega
      · dsimp only [total]
        omega
    · cases h
      refine ⟨⟨hrange, ?_⟩, rfl⟩
      dsimp only
      omega

/-- **A sum is less than one nanosecond away.** -/
theorem add_near (ht : Normalised t) (h : t.add d = some p) :
    |(p.value : ℚ) - (t.value + d)| < 1 / 1000000000 := by
  have htotal := (add_total ht h).2
  have hcut := Lib.abs_truncate_sub_lt (nanos t d)
  have hdiff : (p.value : ℚ) - (t.value + d) =
      ((truncate (nanos t d) : ℚ) - nanos t d) / 1000000000 := by
    rw [value_eq, value_eq, htotal, total, nanos]
    push_cast
    ring
  rw [hdiff, abs_div, abs_of_pos (show (0 : ℚ) < 1000000000 by norm_num)]
  exact div_lt_div_of_pos_right hcut (by norm_num)

/-- What is added in whole seconds, and the rest. -/
theorem truncate_nanos_mono {d' : ℚ} (h : d ≤ d') (t : TimePoint) :
    truncate d * 1000000000 + truncate (nanos t d)
      ≤ truncate d' * 1000000000 + truncate (nanos t d') := by
  have hmono := Lib.truncate_mono h
  obtain ⟨hlow, hhigh⟩ := abs_lt.mp (Lib.abs_truncate_sub_lt d)
  obtain ⟨hlow', hhigh'⟩ := abs_lt.mp (Lib.abs_truncate_sub_lt d')
  rcases hmono.lt_or_eq with hlt | heq
  · rcases lt_or_ge 0 (truncate d') with hpos | hnonpos
    · -- the seconds of the greater one are whole in it
      have hd' : 0 ≤ d' := by
        by_contra hneg
        have := (Lib.truncate_neg (not_le.mp hneg)).1
        omega
      have hwhole := (Lib.truncate_nonneg hd').2
      have hge : t.nsec ≤ truncate (nanos t d') := by
        apply Lib.le_truncate
        unfold nanos
        linarith
      rcases lt_or_ge (truncate d) 0 with hneg | hnonneg
      · have hdneg : d < 0 := by
          by_contra hd
          have := (Lib.truncate_nonneg (not_lt.mp hd)).1
          omega
        have hle : truncate (nanos t d) ≤ t.nsec := by
          apply Lib.truncate_le
          have := (Lib.truncate_neg hdneg).2
          unfold nanos
          linarith
        omega
      · have hle : truncate (nanos t d) ≤ t.nsec + 1000000000 := by
          apply Lib.truncate_le
          unfold nanos
          push_cast
          linarith
        omega
    · -- the seconds of the lesser one are whole in it
      have hdneg : d < 0 := by
        by_contra hd
        have := (Lib.truncate_nonneg (not_lt.mp hd)).1
        omega
      have hle : truncate (nanos t d) ≤ t.nsec := by
        apply Lib.truncate_le
        have := (Lib.truncate_neg hdneg).2
        unfold nanos
        linarith
      have hge : t.nsec - 1000000000 ≤ truncate (nanos t d') := by
        apply Lib.le_truncate
        unfold nanos
        push_cast
        linarith
      omega
  · have hnanos : nanos t d ≤ nanos t d' := by
      unfold nanos
      rw [heq]
      linarith
    have := Lib.truncate_mono hnanos
    omega

/-- **A sum with more is not less.** -/
theorem add_mono {d' : ℚ} {p' : TimePoint} (ht : Normalised t) (hle : d ≤ d')
    (h : t.add d = some p) (h' : t.add d' = some p') : ¬ p' < p := by
  obtain ⟨hp, htotal⟩ := add_total ht h
  obtain ⟨hp', htotal'⟩ := add_total ht h'
  have hmono := truncate_nanos_mono hle t
  rw [lt_iff_total hp' hp, htotal, htotal']
  omega

/-- The seconds of the delta are a `long`, and so are those of the sum. -/
structure Fits (t : TimePoint) (d : ℚ) : Prop where
  delta : -2 ^ 63 ≤ truncate d ∧ truncate d < 2 ^ 63
  sum : -2 ^ 63 ≤ (t.value : ℚ) + d ∧ (t.value : ℚ) + d < 2 ^ 63

theorem long_of_range {n : ℤ} (h : -2 ^ 63 ≤ n ∧ n < 2 ^ 63) : long n = some n := if_pos h

/-- The value and the delta, in seconds and nanoseconds. -/
theorem value_add (t : TimePoint) (d : ℚ) :
    (t.value : ℚ) + d = (t.sec + truncate d : ℤ) + nanos t d / 1000000000 := by
  rw [value_eq, total, nanos]
  push_cast
  ring

/-- The seconds of a sum that fits, before and after what is carried or borrowed. -/
theorem seconds_of_fits (ht : Normalised t) (hfits : Fits t d) :
    (-2 ^ 63 ≤ t.sec + truncate d ∧ t.sec + truncate d < 2 ^ 63)
      ∧ (1000000000 ≤ truncate (nanos t d) → t.sec + truncate d + 1 < 2 ^ 63)
      ∧ (truncate (nanos t d) < 0 → -2 ^ 63 ≤ t.sec + truncate d - 1) := by
  obtain ⟨hsumLow, hsumHigh⟩ := hfits.sum
  rw [value_add] at hsumLow hsumHigh
  have hseconds := ht.seconds
  have hnonneg : (0 : ℚ) ≤ t.nsec := Int.cast_nonneg ht.nanoseconds.1
  have hless : (t.nsec : ℚ) < 1000000000 := by exact_mod_cast ht.nanoseconds.2
  refine ⟨?_, fun hcarry => ?_, fun hborrow => ?_⟩
  · rcases lt_or_ge d 0 with hneg | hpos
    · obtain ⟨hnonpos, hle⟩ := Lib.truncate_neg hneg
      have hnanos : nanos t d < 1000000000 := by
        unfold nanos
        linarith
      have hlow : (-2 ^ 63 - 1 : ℚ) < (t.sec + truncate d : ℤ) := by linarith
      have hint : (-2 ^ 63 - 1 : ℤ) < t.sec + truncate d := by exact_mod_cast hlow
      omega
    · obtain ⟨hpositive, hle⟩ := Lib.truncate_nonneg hpos
      have hnanos : 0 ≤ nanos t d := by
        unfold nanos
        linarith
      have hhigh : ((t.sec + truncate d : ℤ) : ℚ) < 2 ^ 63 := by linarith
      have hint : t.sec + truncate d < 2 ^ 63 := by exact_mod_cast hhigh
      omega
  · have hpos : 0 ≤ nanos t d := by
      by_contra hneg
      have := (Lib.truncate_neg (not_le.mp hneg)).1
      omega
    have hnanos : (1000000000 : ℚ) ≤ nanos t d :=
      le_trans (by exact_mod_cast hcarry) (Lib.truncate_nonneg hpos).2
    have hhigh : ((t.sec + truncate d : ℤ) : ℚ) + 1 < 2 ^ 63 := by linarith
    exact_mod_cast hhigh
  · have hneg : nanos t d < 0 := by
      by_contra hpos
      have := (Lib.truncate_nonneg (not_lt.mp hpos)).1
      omega
    have hlow : (-2 ^ 63 : ℚ) < (t.sec + truncate d : ℤ) := by linarith
    have hint : (-2 ^ 63 : ℤ) < t.sec + truncate d := by exact_mod_cast hlow
    omega

/-- **A sum that fits is defined.** -/
theorem exists_add (ht : Normalised t) (hfits : Fits t d) : ∃ p, t.add d = some p := by
  obtain ⟨hrange, hcarry, hborrow⟩ := seconds_of_fits ht hfits
  have hbounds := truncate_nanos ht d
  have hseconds : toLong d = some (truncate d) := long_of_range hfits.delta
  have hnsec : toLong (t.nsec + (d - truncate d) * 1000000000) = some (truncate (nanos t d)) :=
    long_of_range (n := truncate (nanos t d)) (by omega)
  unfold add
  rw [hseconds]
  simp only [Option.bind_eq_bind, Option.bind_some, long_of_range hrange, hnsec]
  split
  · next hge =>
    rw [long_of_range (by omega), long_of_range (by omega)]
    exact ⟨_, rfl⟩
  · split
    · next hneg =>
      rw [long_of_range (by omega), long_of_range (by omega)]
      exact ⟨_, rfl⟩
    · exact ⟨_, rfl⟩

/-! ## Several steps -/

/-- Every step of a sequence fits where it is reached. -/
def FitAll : TimePoint → List ℚ → Prop
  | _, [] => True
  | t, d :: ds => Fits t d ∧ ∀ p, t.add d = some p → FitAll p ds

/-- **Each step adds less than one nanosecond to the error.** -/
theorem advance_near (ht : Normalised t) {ds : List ℚ} (h : FitAll t ds) :
    ∃ p, t.advance ds = some p ∧ Normalised p
      ∧ |(p.value : ℚ) - (t.value + ds.sum)| ≤ ds.length * (1 / 1000000000) := by
  induction ds generalizing t with
  | nil =>
    refine ⟨t, rfl, ht, le_of_eq ?_⟩
    rw [List.sum_nil, add_zero, sub_self, abs_zero, List.length_nil, Nat.cast_zero, zero_mul]
  | cons d ds ih =>
    obtain ⟨hfits, hrest⟩ := h
    obtain ⟨q, hq⟩ := exists_add ht hfits
    obtain ⟨p, hp, hnormalised, hnear⟩ := ih (add_total ht hq).1 (hrest q hq)
    refine ⟨p, ?_, hnormalised, ?_⟩
    · rw [advance, List.foldlM_cons, hq]
      exact hp
    · have hfirst := add_near ht hq
      have hsplit : (p.value : ℚ) - (t.value + (d :: ds).sum) =
          (p.value - (q.value + ds.sum)) + (q.value - (t.value + d)) := by
        rw [List.sum_cons]
        ring
      rw [hsplit, List.length_cons, Nat.cast_succ, add_mul, one_mul]
      exact (abs_add_le _ _).trans (add_le_add hnear hfirst.le)

/-- What holds of a sum: it is normalised, and less than a nanosecond away from the exact one. -/
structure Sum (t : TimePoint) (d : ℚ) (p : TimePoint) : Prop where
  normalised : Normalised p
  near : |(p.value : ℚ) - (t.value + d)| < 1 / 1000000000

/-- **The arithmetic of points in time**, where the seconds do not overflow. -/
theorem arithmetic_exact (t : TimePoint) (ht : Normalised t) :
    (∀ d, Fits t d → ∃ p, t.add d = some p ∧ Sum t d p)
      ∧ (∀ d, Fits t (-d) → ∃ p, t.minus d = some p ∧ Sum t (-d) p)
      ∧ (∀ d d' p p', d ≤ d' → t.add d = some p → t.add d' = some p' → ¬ p' < p)
      ∧ (∀ d d' p p', d ≤ d' → t.minus d = some p → t.minus d' = some p' → ¬ p < p')
      ∧ (∀ s, Normalised s → (t < s ↔ (t.value : ℚ) < s.value))
      ∧ ∀ ds, FitAll t ds → ∃ p, t.advance ds = some p ∧ Normalised p
        ∧ |(p.value : ℚ) - (t.value + ds.sum)| ≤ ds.length * (1 / 1000000000) := by
  have hsum (d : ℚ) (hfits : Fits t d) : ∃ p, t.add d = some p ∧ Sum t d p := by
    obtain ⟨p, hp⟩ := exists_add ht hfits
    exact ⟨p, hp, (add_total ht hp).1, add_near ht hp⟩
  refine ⟨hsum, fun d hfits => hsum (-d) hfits, ?_, ?_, ?_, ?_⟩
  · exact fun d d' p p' hle h h' => add_mono ht hle h h'
  · exact fun d d' p p' hle h h' => add_mono ht (neg_le_neg hle) h' h
  · exact fun s hs => lt_iff_value ht hs
  · exact fun ds h => advance_near ht h

/-- Half a second is taken from a tenth, and a second is borrowed. -/
theorem arithmetic_exact_borrow : ∃ p, TimePoint.add ⟨1, 100000000⟩ (-(1 / 2)) = some p
    ∧ Sum ⟨1, 100000000⟩ (-(1 / 2)) p := by
  have ht : Normalised ⟨1, 100000000⟩ := ⟨by decide, by decide⟩
  have hfits : Fits ⟨1, 100000000⟩ (-(1 / 2)) := by
    refine ⟨by decide +kernel, ?_⟩
    rw [value_eq, total]
    norm_num
  exact (arithmetic_exact _ ht).1 _ hfits

/-- The last second of a `long` has no next one. -/
theorem add_overflows : Normalised ⟨2 ^ 63 - 1, 0⟩
    ∧ (-2 ^ 63 ≤ truncate (1 : ℚ) ∧ truncate (1 : ℚ) < 2 ^ 63)
    ∧ TimePoint.add ⟨2 ^ 63 - 1, 0⟩ 1 = none :=
  ⟨⟨by decide, by decide⟩, by decide +kernel, by decide +kernel⟩

end Holchain.Holper.TimePoint
