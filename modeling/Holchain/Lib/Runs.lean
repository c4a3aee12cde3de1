import Mathlib.Data.Nat.Notation
import Mathlib.Data.List.TakeWhile
import Mathlib.Order.Basic

/-!
# Lib.Runs — the run of letters at a position

A run is a longest piece of a text whose letters have a property. At every position of the text
there is one that contains the letter there or ends before it, the empty one perhaps, and only one.
-/

namespace Holchain.Lib

variable {α : Type*}

/-- A text split around the run at a position: in front of it and behind it stands no letter with
the property. -/
structure Run (p : α → Bool) (text : List α) (i : ℕ) (before run behind : List α) : Prop where
  split : text = before ++ (run ++ behind)
  inside : ∀ c ∈ run, p c = true
  left : ∀ c ∈ before.getLast?, p c = false
  right : ∀ c ∈ behind.head?, p c = false
  low : before.length ≤ i
  high : i ≤ before.length + run.length

namespace Run

variable {p : α → Bool} {text before run behind before' run' behind' : List α} {i c : ℕ}

theorem takeWhile_append (hrun : ∀ c ∈ run, p c = true) (hright : ∀ c ∈ behind.head?, p c = false) :
    (run ++ behind).takeWhile p = run := by
  rw [List.takeWhile_append_of_pos hrun]
  cases behind with
  | nil => exact List.append_nil run
  | cons c behind =>
    have hc : ¬ p c = true := ne_true_of_eq_false (hright c rfl)
    rw [List.takeWhile_cons_of_neg hc, List.append_nil]

/-- The letters of the run from the position on. -/
theorem takeWhile_drop (h : Run p text i before run behind) :
    (text.drop i).takeWhile p = run.drop (i - before.length) := by
  rw [h.split, List.drop_append, List.drop_eq_nil_of_le h.low, List.nil_append,
    List.drop_append_of_le_length (Nat.sub_le_iff_le_add'.mpr h.high)]
  exact takeWhile_append (fun c hc => h.inside c (List.mem_of_mem_drop hc)) h.right

/-- Those before the position, the last one first. -/
theorem takeWhile_take (h : Run p text i before run behind) :
    (text.take i).reverse.takeWhile p = (run.take (i - before.length)).reverse := by
  rw [h.split, List.take_append, List.take_of_length_le h.low,
    List.take_append_of_le_length (Nat.sub_le_iff_le_add'.mpr h.high), List.reverse_append]
  refine takeWhile_append (fun c hc => ?_) fun c hc => ?_
  · exact h.inside c (List.mem_of_mem_take (List.mem_reverse.mp hc))
  · rw [List.head?_reverse] at hc
    exact h.left c hc

theorem length_take (h : Run p text i before run behind) :
    ((text.take i).reverse.takeWhile p).length = i - before.length := by
  rw [h.takeWhile_take, List.length_reverse]
  exact List.length_take_of_le (Nat.sub_le_iff_le_add'.mpr h.high)

theorem length_drop (h : Run p text i before run behind) :
    ((text.drop i).takeWhile p).length = before.length + run.length - i := by
  have hlow := h.low
  have hhigh := h.high
  rw [h.takeWhile_drop, List.length_drop]
  omega

theorem head_dropWhile {l : List α} {x : α} (h : x ∈ (l.dropWhile p).head?) : p x = false := by
  have hhead := List.head?_dropWhile_not p l
  rw [h] at hhead
  exact hhead

/-- There is a run at every position. -/
theorem exists_run (p : α → Bool) (text : List α) {i : ℕ} (hi : i ≤ text.length) :
    ∃ before run behind, Run p text i before run behind := by
  let left := (text.take i).reverse
  let right := text.drop i
  have htext : text = (left.dropWhile p).reverse ++ ((left.takeWhile p).reverse
      ++ right.takeWhile p ++ right.dropWhile p) := by
    have hleft : (left.dropWhile p).reverse ++ (left.takeWhile p).reverse = text.take i := by
      rw [← List.reverse_append, List.takeWhile_append_dropWhile, List.reverse_reverse]
    rw [List.append_assoc, ← List.append_assoc, hleft, List.takeWhile_append_dropWhile]
    exact (List.take_append_drop i text).symm
  have hi' : (left.dropWhile p).length + (left.takeWhile p).length = i := by
    rw [Nat.add_comm, ← List.length_append, List.takeWhile_append_dropWhile, List.length_reverse]
    exact List.length_take_of_le hi
  refine ⟨_, _, _, htext, ?_, ?_, ?_, ?_, ?_⟩
  · intro c hc
    rcases List.mem_append.mp hc with hc | hc
    · exact List.mem_takeWhile_imp (List.mem_reverse.mp hc)
    · exact List.mem_takeWhile_imp hc
  · intro c hc
    rw [List.getLast?_reverse] at hc
    exact head_dropWhile hc
  · intro c hc
    exact head_dropWhile hc
  · rw [List.length_reverse]
    omega
  · rw [List.length_reverse, List.length_append, List.length_reverse]
    omega

/-- The run at a position is the run at a later one if it goes as far as that. -/
theorem shift (h : Run p text i before run behind) (hle : i ≤ c) (hc : c ≤ text.length)
    (hall : ∀ x ∈ (text.drop i).take (c - i), p x = true) : Run p text c before run behind := by
  refine ⟨h.split, h.inside, h.left, h.right, h.low.trans hle, ?_⟩
  have htake : c - i ≤ ((text.drop i).takeWhile p).length := by
    have hlength : ((text.drop i).take (c - i)).length = c - i := by
      rw [List.length_take, List.length_drop]
      omega
    rw [← List.take_append_drop (c - i) (text.drop i), List.takeWhile_append_of_pos hall,
      List.length_append, hlength]
    exact Nat.le_add_right _ _
  rw [h.length_drop] at htake
  have hhigh := h.high
  omega

/-- Where the run at a later position begins no later, there are only its letters between. -/
theorem inside_of_low (h : Run p text c before run behind) (hlow : before.length ≤ i) :
    ∀ x ∈ (text.drop i).take (c - i), p x = true := by
  intro x hx
  by_cases hle : i ≤ c
  · have hhigh := h.high
    have hdrop : i - before.length ≤ run.length := by omega
    have htake : c - i ≤ (run.drop (i - before.length)).length := by
      rw [List.length_drop]
      omega
    rw [h.split, List.drop_append, List.drop_eq_nil_of_le hlow, List.nil_append,
      List.drop_append_of_le_length hdrop, List.take_append_of_le_length htake] at hx
    exact h.inside x (List.mem_of_mem_drop (List.mem_of_mem_take hx))
  · rw [Nat.sub_eq_zero_of_le (Nat.le_of_not_le hle)] at hx
    exact absurd hx List.not_mem_nil

end Run

end Holchain.Lib
