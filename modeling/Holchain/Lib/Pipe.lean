import Mathlib.Data.List.Infix

/-!
# Bounded byte pipes

A pipe holds at most its capacity. A blocking writer puts what there is room for and waits with
the rest (`put`); a non-blocking one offers a whole message, of which a pipe without enough room
takes some part at the front, maybe nothing, and refuses the rest (`offer`).

`Kept` relates what was offered to a pipe and what it took while nobody read: nothing is lost as
long as everything offered fits, and only then (`Kept.offer`, `Kept.eq_iff`).
-/

namespace Holchain.Lib

/-- A pipe of the given capacity. -/
structure Pipe (α : Type*) (capacity : ℕ) where
  content : List α
  fits : content.length ≤ capacity

namespace Pipe

variable {α : Type*} {capacity : ℕ}

/-- The empty pipe. -/
def empty : Pipe α capacity := ⟨[], Nat.zero_le _⟩

/-- How much more it takes. -/
def room (p : Pipe α capacity) : ℕ := capacity - p.content.length

/-- Putting elements in, where they fit. -/
def put (p : Pipe α capacity) (xs : List α) : Option (Pipe α capacity) :=
  if h : p.content.length + xs.length ≤ capacity then
    some ⟨p.content ++ xs, by rw [List.length_append]; exact h⟩
  else none

/-- Taking elements out. -/
def drop (p : Pipe α capacity) (n : ℕ) : Pipe α capacity :=
  ⟨p.content.drop n, Nat.le_trans (by rw [List.length_drop]; exact Nat.sub_le _ _) p.fits⟩

/-- Offering a message without waiting: `n` elements of it are taken, all of them where they
fit. -/
def offer (p : Pipe α capacity) (xs : List α) (n : ℕ) : Option (Pipe α capacity) :=
  if n = xs.length ∨ (p.room < xs.length ∧ n ≤ p.room) then p.put (xs.take n) else none

@[simp] theorem content_empty : (empty : Pipe α capacity).content = [] := rfl

@[simp] theorem content_drop (p : Pipe α capacity) (n : ℕ) :
    (p.drop n).content = p.content.drop n := rfl

theorem put_eq_some {p q : Pipe α capacity} {xs : List α} (h : p.put xs = some q) :
    q.content = p.content ++ xs := by
  unfold put at h
  split at h
  · exact congrArg content (Option.some.inj h).symm
  · cases h

theorem put_isSome {p : Pipe α capacity} {xs : List α} (h : xs.length ≤ p.room) :
    ∃ q, p.put xs = some q := by
  have hfits := p.fits
  unfold room at h
  unfold put
  rw [dif_pos (by omega)]
  exact ⟨_, rfl⟩

/-- What an offer does. -/
theorem offer_eq_some {p q : Pipe α capacity} {xs : List α} {n : ℕ} (h : p.offer xs n = some q) :
    q.content = p.content ++ xs.take n ∧ (xs.length ≤ p.room → n = xs.length) := by
  unfold offer at h
  split at h
  · rename_i hn
    refine ⟨put_eq_some h, fun hroom => hn.resolve_right fun hno => ?_⟩
    omega
  · cases h

/-- An offer never waits. -/
theorem offer_isSome (p : Pipe α capacity) (xs : List α) : ∃ n q, p.offer xs n = some q := by
  by_cases h : xs.length ≤ p.room
  · have hfit : (xs.take xs.length).length ≤ p.room := by
      rw [List.take_length]
      exact h
    obtain ⟨q, hq⟩ := put_isSome hfit
    exact ⟨xs.length, q, by rw [offer, if_pos (.inl rfl), hq]⟩
  · have hfit : (xs.take 0).length ≤ p.room := Nat.zero_le _
    obtain ⟨q, hq⟩ := put_isSome hfit
    exact ⟨0, q, by rw [offer, if_pos (.inr ⟨by omega, Nat.zero_le _⟩), hq]⟩

/-! ## What was offered and what was taken -/

/-- What was taken is part of what was offered, and all of it where that fits. -/
structure Kept (capacity : ℕ) (offered taken : List α) : Prop where
  sublist : taken.Sublist offered
  bounded : taken.length ≤ capacity
  whole : offered.length ≤ capacity → taken = offered

theorem kept_nil : Kept capacity ([] : List α) [] :=
  ⟨.slnil, Nat.zero_le _, fun _ => rfl⟩

/-- An offer to a pipe that nobody has read from. -/
theorem Kept.offer {offered xs : List α} {n : ℕ} {p q : Pipe α capacity}
    (h : Kept capacity offered p.content) (hoffer : p.offer xs n = some q) :
    Kept capacity (offered ++ xs) q.content := by
  obtain ⟨hcontent, hall⟩ := offer_eq_some hoffer
  refine ⟨?_, q.fits, fun hlen => ?_⟩
  · rw [hcontent]
    exact h.sublist.append (List.take_sublist n xs)
  · rw [List.length_append] at hlen
    have hsame := h.whole (by omega)
    have hroom : xs.length ≤ p.room := by
      unfold room
      rw [hsame]
      omega
    rw [hcontent, hsame, hall hroom, List.take_length]

/-- **Nothing was refused if and only if everything offered fits.** -/
theorem Kept.eq_iff {offered taken : List α} (h : Kept capacity offered taken) :
    taken = offered ↔ offered.length ≤ capacity :=
  ⟨fun heq => heq ▸ h.bounded, h.whole⟩

end Pipe

end Holchain.Lib
