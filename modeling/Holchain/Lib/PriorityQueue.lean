import Mathlib.Data.Multiset.AddSub

/-!
# Bounded priority queues whose entries are named

What a bounded priority queue is for, without its representation: the entries pending, each with a
time and an id that no other has. An entry is added under the least id that is free, as long as
the queue is not full, and an entry of least time is popped. A list sorted by time pops its head
(`pops_head`).
-/

namespace Holchain.Lib.PriorityQueue

/-- A pending entry. -/
structure Entry (τ α : Type*) where
  id : ℕ
  time : τ
  item : α

variable {τ α : Type*} {s t : Multiset (Entry τ α)} {e : Entry τ α}

/-- The least id that no entry has. -/
def LeastFree (s : Multiset (Entry τ α)) (id : ℕ) : Prop :=
  (∀ e ∈ s, e.id ≠ id) ∧ ∀ j < id, ∃ e ∈ s, e.id = j

/-- Adding an item: the id it is given, or none where the queue is full. -/
def Adds (limit : ℕ) (time : τ) (item : α) (s : Multiset (Entry τ α)) :
    Option ℕ → Multiset (Entry τ α) → Prop
  | some id, t => s.card < limit ∧ LeastFree s id ∧ t = ⟨id, time, item⟩ ::ₘ s
  | none, t => limit ≤ s.card ∧ t = s

variable [LT τ]

/-- The time is the least one pending, and there is none where nothing is pending. -/
def IsLowest (s : Multiset (Entry τ α)) : Option τ → Prop
  | none => s = 0
  | some time => (∃ e ∈ s, e.time = time) ∧ ∀ x ∈ s, ¬ x.time < time

/-- Popping an entry: it is of least time, and its id is free afterwards. -/
def Pops (s : Multiset (Entry τ α)) (e : Entry τ α) (t : Multiset (Entry τ α)) : Prop :=
  s = e ::ₘ t ∧ (∀ x ∈ s, ¬ x.time < e.time) ∧ ∀ x ∈ t, x.id ≠ e.id

/-- No entry of a sorted list is before its head. -/
theorem head_least {l : List (Entry τ α)} (hirrefl : ∀ a : τ, ¬ a < a)
    (hsorted : (e :: l).Pairwise fun a b => ¬ b.time < a.time) :
    ∀ x ∈ (↑(e :: l) : Multiset (Entry τ α)), ¬ x.time < e.time := by
  intro x hx
  rcases List.mem_cons.mp (Multiset.mem_coe.mp hx) with rfl | hx
  · exact hirrefl _
  · exact (List.pairwise_cons.mp hsorted).1 x hx

/-- A sorted list with distinct ids pops its head. -/
theorem pops_head {l : List (Entry τ α)} (hirrefl : ∀ a : τ, ¬ a < a)
    (hsorted : (e :: l).Pairwise fun a b => ¬ b.time < a.time)
    (hids : ((e :: l).map Entry.id).Nodup) : Pops ↑(e :: l) e ↑l := by
  refine ⟨(Multiset.cons_coe e l).symm, head_least hirrefl hsorted, ?_⟩
  intro x hx heq
  have hnot := (List.nodup_cons.mp (List.map_cons ▸ hids)).1
  exact hnot (List.mem_map.mpr ⟨x, Multiset.mem_coe.mp hx, heq⟩)

/-- The head of a sorted list has the least time. -/
theorem isLowest_head {l : List (Entry τ α)} (hirrefl : ∀ a : τ, ¬ a < a)
    (hsorted : l.Pairwise fun a b => ¬ b.time < a.time) :
    IsLowest (↑l : Multiset (Entry τ α)) (l.head?.map Entry.time) := by
  cases l with
  | nil => rfl
  | cons e l =>
    exact ⟨⟨e, Multiset.mem_coe.mpr List.mem_cons_self, rfl⟩, head_least hirrefl hsorted⟩

end Holchain.Lib.PriorityQueue
