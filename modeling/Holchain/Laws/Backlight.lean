import Mathlib.Algebra.Order.Ring.Int
import Holchain.Laws.Action
import Holchain.Laws.Text

/-!
# Laws.Backlight — the brightness that is set

The sum of the old brightness and an increment is an `int` before it is clamped. Where it is too
large for one it wraps below zero, and the light goes off instead of to its maximum
(`backlight_exact_iff`).
-/

namespace Holchain.Holper.KeyboardBacklightAction

open ParamSpec (suppliedWithKey)

variable {P : Platform} {supplied : Parameters} {old max : ℤ}

/-- The brightness that is asked for, on integers without bound. -/
def Operation.result (old max : ℤ) : Operation → ℤ
  | .on => max
  | .off => 0
  | .toggle => if old ≠ 0 then 0 else max
  | .set n => clampInt n 0 max
  | .incr n => clampInt (old + n) 0 max

/-- The brightness is written to the device, and reported with the old one. -/
def Writes (M : Machine P) (supplied : Parameters) (old new : ℤ) : Prop :=
  (actOn M supplied).run.run {} =
    (.ok (.object [(lit "old_brightness", .int old), (lit "new_brightness", .int new)]),
      { effects := [.dump (kPath ++ lit "/brightness") new] })

/-- What is asked of an operation: its result is written, it is in the range of the device, and no
sum leaves the range of `int`. -/
structure Exact (M : Machine P) (supplied : Parameters) (old max : ℤ) (op : Operation) : Prop where
  written : Writes M supplied old (op.result old max)
  range : 0 ≤ op.result old max ∧ op.result old max ≤ max
  sum : ∀ n, op = .incr n → IsInt (old + n)

theorem clampInt_eq {lo hi : ℤ} (h : lo ≤ hi) (v : ℤ) : clampInt v lo hi = min (Max.max v lo) hi := by
  unfold clampInt
  split
  · omega
  · split
    · omega
    · omega

theorem Operation.result_range (h : 0 ≤ old ∧ old ≤ max) (op : Operation) :
    0 ≤ op.result old max ∧ op.result old max ≤ max := by
  have hmax : 0 ≤ max := h.1.trans h.2
  cases op with
  | on => exact ⟨hmax, le_refl max⟩
  | off => exact ⟨le_refl 0, hmax⟩
  | toggle =>
    rw [Operation.result]
    split
    · exact ⟨le_refl 0, hmax⟩
    · exact ⟨hmax, le_refl max⟩
  | set n =>
    rw [Operation.result, clampInt_eq hmax]
    omega
  | incr n =>
    rw [Operation.result, clampInt_eq hmax]
    omega

/-- A larger increment does not give less. -/
theorem Operation.result_mono (h : 0 ≤ old ∧ old ≤ max) {n n' : ℤ} (hle : n ≤ n') :
    Operation.result old max (.incr n) ≤ Operation.result old max (.incr n') := by
  have hmax : 0 ≤ max := h.1.trans h.2
  rw [Operation.result, Operation.result, clampInt_eq hmax, clampInt_eq hmax]
  omega

/-- An operation writes the value that it computes. -/
theorem writes_target {M : Machine P} {op : Operation}
    (h : actOn M supplied = perform old max op) : Writes M supplied old (op.target old max) := by
  rw [Writes, h]
  rfl

theorem Writes.unique {M : Machine P} {new new' : ℤ} (h : Writes M supplied old new)
    (h' : Writes M supplied old new') : new = new' := by
  rw [Writes] at h
  have heffects := congrArg Trace.effects (Prod.mk.inj (h.symm.trans h')).2
  exact (Effect.dump.inj (List.cons.inj heffects).1).2

/-- The sum that is computed is the sum, or is below zero. -/
theorem target_incr (hrange : 0 ≤ old ∧ old ≤ max) {n : ℤ} (hn : IsInt n) (hold : IsInt old) :
    Operation.target old max (.incr n) =
      if old + n < 2 ^ 31 then Operation.result old max (.incr n) else 0 := by
  obtain ⟨hlow, hhigh⟩ := hn
  have hmax : 0 ≤ max := hrange.1.trans hrange.2
  rw [Operation.target]
  split
  · next hlt =>
    rw [toInt32_eq (by omega) hlt]
    rfl
  · next hge =>
    have hneg : toInt32 (old + n) < 0 := by
      have hbounds := toInt32_bounds (old + n)
      have hemod := toInt32_emod (old + n)
      have := hold.2
      omega
    exact if_pos hneg

theorem Operation.Given.isInt {n : ℤ} (h : Operation.Given P supplied (.incr n)) : IsInt n := by
  have hget : supplied.get P .int (lit "incr") = (some n, true) := h
  exact get_bounds (by rw [hget])

/-- The device has numbers of type `int`. -/
theorem parse_isInt {M : Machine P} {path : Bytes} (h : Filesystem.parse M path = some old) :
    IsInt old := by
  obtain ⟨⟨v, rest⟩, hscan, rfl⟩ := Option.map_eq_some_iff.mp h
  exact scanInt_bounds hscan

/-- An operation writes its result, if the sum is an `int`. -/
theorem exact_iff {M : Machine P} {op : Operation} (hrange : 0 ≤ old ∧ old ≤ max)
    (hold : IsInt old) (hgiven : op.Given P supplied)
    (hrun : actOn M supplied = perform old max op) :
    Exact M supplied old max op ↔ ∀ n, op = .incr n → old + n < 2 ^ 31 := by
  refine ⟨fun h n hn => (h.sum n hn).2, fun h => ?_⟩
  have htarget : op.target old max = op.result old max := by
    cases op with
    | incr n => rw [target_incr hrange hgiven.isInt hold, if_pos (h n rfl)]
    | on => rfl
    | off => rfl
    | toggle => rfl
    | set n => rfl
  refine ⟨htarget ▸ writes_target hrun, op.result_range hrange, fun n hn => ⟨?_, h n hn⟩⟩
  have hlow := (hn ▸ hgiven : Operation.Given P supplied (.incr n)).isInt.1
  omega

/-- **When the brightness is the one that is asked for**: the increment does not take it out of the
range of `int`. Else the light goes off. -/
theorem backlight_exact_iff (M : Machine P)
    (hmax : Filesystem.parse M (kPath ++ lit "/max_brightness") = some max)
    (hold : Filesystem.parse M (kPath ++ lit "/brightness") = some old)
    (hrange : 0 ≤ old ∧ old ≤ max) (hpasses : spec.Passes P supplied) :
    (∃ op : Operation, suppliedWithKey supplied params (lit "operations") = [op.name]
        ∧ op.Given P supplied
        ∧ (Exact M supplied old max op ↔ ∀ n, op = .incr n → old + n < 2 ^ 31)
        ∧ ((∃ n, op = .incr n ∧ 2 ^ 31 ≤ old + n) →
          Writes M supplied old 0 ∧ op.result old max = max ∧ 0 < max))
      ∧ ∀ n n' : ℤ, n ≤ n' →
        Operation.result old max (.incr n) ≤ Operation.result old max (.incr n') := by
  refine ⟨?_, fun n n' hle => Operation.result_mono hrange hle⟩
  obtain ⟨op, hone, hgiven, hrun⟩ := actOn_eq_perform M hmax hold hpasses
  have holdInt := parse_isInt hold
  refine ⟨op, hone, hgiven, exact_iff hrange holdInt hgiven hrun, ?_⟩
  rintro ⟨n, rfl, hlarge⟩
  have hwrites := writes_target hrun
  have hint := (parse_isInt hmax).2
  have hn := hgiven.isInt.2
  rw [target_incr hrange hgiven.isInt holdInt, if_neg (not_lt.mpr hlarge)] at hwrites
  refine ⟨hwrites, ?_, by omega⟩
  rw [Operation.result, clampInt_eq (hrange.1.trans hrange.2)]
  omega

/-- `keyboard_backlight -- incr` with this text. -/
def increment (text : String) : Parameters :=
  { parameters := Std.TreeMap.ofList [(lit "incr", lit text)] }

/-- One more than the maximum is the maximum. -/
theorem backlight_exact_iff_one : ∃ op : Operation,
    op.Given Platform.bare (increment "1") ∧ Exact dimMachine (increment "1") 7 7 op := by
  have hpasses : spec.Passes Platform.bare (increment "1") := ⟨_, rfl, rfl⟩
  have hmax : Filesystem.parse dimMachine (kPath ++ lit "/max_brightness") = some 7 := rfl
  have hold : Filesystem.parse dimMachine (kPath ++ lit "/brightness") = some 7 := rfl
  obtain ⟨⟨op, -, hgiven, hiff, -⟩, -⟩ :=
    backlight_exact_iff dimMachine hmax hold (by decide) hpasses
  refine ⟨op, hgiven, hiff.mpr fun n hn => ?_⟩
  have hget : (increment "1").get Platform.bare .int (lit "incr") = (some n, true) := by
    rw [hn] at hgiven
    exact hgiven
  have hone : (increment "1").get Platform.bare .int (lit "incr") = (some (1 : ℤ), true) := rfl
  have hn : (1 : ℤ) = n := Option.some.inj (Prod.mk.inj (hone.symm.trans hget)).1
  omega

/-- The largest increment turns the light off. -/
theorem increment_turns_off : spec.Passes Platform.bare (increment "2147483647")
    ∧ Operation.Given Platform.bare (increment "2147483647") (.incr 2147483647)
    ∧ Writes dimMachine (increment "2147483647") 7 0
    ∧ ¬ Exact dimMachine (increment "2147483647") 7 7 (.incr 2147483647) := by
  have hwrites : Writes dimMachine (increment "2147483647") 7 0 := rfl
  refine ⟨⟨_, rfl, rfl⟩, rfl, hwrites, fun h => ?_⟩
  exact absurd (h.written.unique hwrites) (by decide)

end Holchain.Holper.KeyboardBacklightAction
