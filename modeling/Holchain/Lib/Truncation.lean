import Mathlib.Algebra.Order.Floor.Ring
import Mathlib.Algebra.Order.Archimedean.Basic

/-!
# Lib.Truncation — rounding toward zero
-/

namespace Holchain.Lib

variable {R : Type} [Ring R] [LinearOrder R] [FloorRing R]

/-- The integer next to a number, toward zero. -/
def truncate (x : R) : ℤ := if 0 ≤ x then ⌊x⌋ else ⌈x⌉

variable {x y : R}

theorem truncate_of_nonneg (h : 0 ≤ x) : truncate x = ⌊x⌋ := if_pos h

theorem truncate_of_neg (h : x < 0) : truncate x = ⌈x⌉ := if_neg (not_le.mpr h)

theorem truncate_nonneg (h : 0 ≤ x) : 0 ≤ truncate x ∧ (truncate x : R) ≤ x := by
  rw [truncate_of_nonneg h]
  exact ⟨Int.floor_nonneg.mpr h, Int.floor_le x⟩

theorem truncate_neg (h : x < 0) : truncate x ≤ 0 ∧ x ≤ (truncate x : R) := by
  rw [truncate_of_neg h]
  exact ⟨Int.ceil_nonpos.mpr h.le, Int.le_ceil x⟩

variable [IsStrictOrderedRing R]

/-- It is less than one away. -/
theorem abs_truncate_sub_lt (x : R) : |(truncate x : R) - x| < 1 := by
  rw [abs_lt]
  rcases lt_or_ge x 0 with h | h
  · have hceil := Int.ceil_lt_add_one x
    have hle := (truncate_neg h).2
    rw [truncate_of_neg h] at hle ⊢
    exact ⟨(by simp : (-1 : R) < 0).trans_le (sub_nonneg.mpr hle), sub_lt_iff_lt_add'.mpr hceil⟩
  · have hfloor := Int.sub_one_lt_floor x
    have hle := (truncate_nonneg h).2
    rw [truncate_of_nonneg h] at hle ⊢
    refine ⟨?_, (sub_nonpos.mpr hle).trans_lt one_pos⟩
    rw [lt_sub_iff_add_lt', ← sub_eq_add_neg]
    exact hfloor

/-- An integer below stays below. -/
theorem le_truncate {n : ℤ} (h : (n : R) ≤ x) : n ≤ truncate x := by
  rcases lt_or_ge x 0 with hneg | hpos
  · exact Int.cast_le.mp (h.trans (truncate_neg hneg).2)
  · rw [truncate_of_nonneg hpos]
    exact Int.le_floor.mpr h

/-- An integer above stays above. -/
theorem truncate_le {n : ℤ} (h : x ≤ n) : truncate x ≤ n := by
  rcases lt_or_ge x 0 with hneg | hpos
  · rw [truncate_of_neg hneg]
    exact Int.ceil_le.mpr h
  · exact Int.cast_le.mp ((truncate_nonneg hpos).2.trans h)

theorem truncate_mono (h : x ≤ y) : truncate x ≤ truncate y := by
  rcases lt_or_ge y 0 with hneg | hpos
  · exact truncate_le (h.trans (truncate_neg hneg).2)
  · rcases lt_or_ge x 0 with hx | hx
    · exact (truncate_neg hx).1.trans (truncate_nonneg hpos).1
    · exact le_truncate ((truncate_nonneg hx).2.trans h)

end Holchain.Lib
