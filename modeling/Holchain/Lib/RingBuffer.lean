import Mathlib.Data.List.Rotate
import Mathlib.Data.List.DropRight

/-!
# Lib.RingBuffer — a ring of cells

A value that is pushed takes the place of the oldest one. From the cell behind it, the ring has the
values that were pushed last, the oldest of them first (`view_pushes`).
-/

namespace Holchain.Lib

/-- Cells, and the one that is written next. -/
structure RingBuffer (A : Type) where
  cells : List A
  index : ℕ
  index_lt : index < cells.length

namespace RingBuffer

variable {A : Type}

/-- The cells from the oldest one on. -/
def view (r : RingBuffer A) : List A := r.cells.rotate r.index

/-- A value in place of the oldest one. -/
def push (r : RingBuffer A) (a : A) : RingBuffer A where
  cells := r.cells.set r.index a
  index := (r.index + 1) % r.cells.length
  index_lt := by
    rw [List.length_set]
    exact Nat.mod_lt _ (Nat.zero_lt_of_lt r.index_lt)

/-- One value after another. -/
def pushes (r : RingBuffer A) (values : List A) : RingBuffer A := values.foldl push r

@[simp] theorem length_push (r : RingBuffer A) (a : A) : (r.push a).cells.length = r.cells.length :=
  List.length_set

theorem length_pushes (r : RingBuffer A) (values : List A) :
    (r.pushes values).cells.length = r.cells.length := by
  induction values generalizing r with
  | nil => rfl
  | cons a values ih => exact (ih (r.push a)).trans (r.length_push a)

theorem view_eq (r : RingBuffer A) : r.view = r.cells.drop r.index ++ r.cells.take r.index :=
  List.rotate_eq_drop_append_take r.index_lt.le

theorem length_view (r : RingBuffer A) : r.view.length = r.cells.length := List.length_rotate _ _

/-- **A value is the last one, and the oldest one is gone.** -/
theorem view_push (r : RingBuffer A) (a : A) : (r.push a).view = r.view.tail ++ [a] := by
  have hlt := r.index_lt
  have hlength : (r.cells.set r.index a).length = r.cells.length := List.length_set
  have hrotate : (r.push a).view = (r.cells.set r.index a).rotate (r.index + 1) := by
    rw [← List.rotate_mod, hlength]
    rfl
  have hdrop : r.cells.drop r.index = r.cells[r.index] :: r.cells.drop (r.index + 1) :=
    List.drop_eq_getElem_cons hlt
  have htake : (r.cells.set r.index a).take (r.index + 1) = r.cells.take r.index ++ [a] := by
    rw [List.take_succ_eq_append_getElem (by omega), List.take_set_of_le (le_refl _),
      List.getElem_set_self]
  rw [hrotate, List.rotate_eq_drop_append_take (by omega), List.drop_set_of_lt (by omega), htake,
    view_eq, hdrop, List.cons_append, List.tail_cons, List.append_assoc]

theorem rtake_concat {values : List A} {n : ℕ} (hpos : 0 < n) (hle : n ≤ values.length) (a : A) :
    (values ++ [a]).rtake n = (values.rtake n).tail ++ [a] := by
  obtain ⟨m, rfl⟩ := Nat.exists_eq_succ_of_ne_zero hpos.ne'
  have hsub : values.length - (m + 1) + 1 = values.length - m := by omega
  rw [List.rtake_concat_succ, List.rtake, List.rtake, List.tail_drop, hsub]

/-- **The last values**, and the first ones where not enough were pushed. -/
theorem view_pushes (r : RingBuffer A) (values : List A) :
    (r.pushes values).view = (r.view ++ values).rtake r.cells.length := by
  have hpos := Nat.zero_lt_of_lt r.index_lt
  induction values using List.reverseRecOn with
  | nil =>
    rw [List.append_nil, List.rtake, length_view, Nat.sub_self, List.drop_zero]
    rfl
  | append_singleton values a ih =>
    have hpush : r.pushes (values ++ [a]) = (r.pushes values).push a := List.foldl_concat _ _ _ _
    have hle : r.cells.length ≤ (r.view ++ values).length := by
      rw [List.length_append, length_view]
      exact Nat.le_add_right _ _
    rw [hpush, view_push, ih, ← List.append_assoc, rtake_concat hpos hle]

theorem index_pushes (r : RingBuffer A) (values : List A) :
    (r.pushes values).index = (r.index + values.length) % r.cells.length := by
  induction values generalizing r with
  | nil => exact (Nat.mod_eq_of_lt r.index_lt).symm
  | cons a values ih =>
    have hrest := ih (r.push a)
    rw [length_push] at hrest
    have hindex : (r.push a).index = (r.index + 1) % r.cells.length := rfl
    rw [List.length_cons, Nat.add_comm values.length, ← Nat.add_assoc]
    rw [hindex, Nat.mod_add_mod] at hrest
    exact hrest

end RingBuffer

end Holchain.Lib
