import Mathlib.Data.List.Basic
import Mathlib.Data.Nat.Find

/-!
# Lib.Filter — filters with a state

A filter goes through a list once and keeps some of its elements; what it keeps may depend on what
went before. Which elements it kept is a `mask`, a Boolean for each place, so that equal elements
stay apart. A *range* of a list goes from an element at which it opens through the next one at
which it closes, or to the end of the list; `openAfter` is the one bit a filter needs to know
whether it is inside one (`inRange_iff`).
-/

namespace Holchain.Lib

variable {α σ : Type*}

/-! ## Masks -/

/-- The elements that a mask keeps. -/
def select : List Bool → List α → List α
  | true :: mask, x :: xs => x :: select mask xs
  | false :: mask, _ :: xs => select mask xs
  | _, _ => []

/-- A mask and its complement keep every element between them, once. -/
theorem length_select_add {mask : List Bool} {xs : List α} (h : mask.length = xs.length) :
    (select mask xs).length + (select (mask.map not) xs).length = xs.length := by
  induction mask generalizing xs with
  | nil =>
    cases xs with
    | nil => rfl
    | cons x xs => cases h
  | cons b mask ih =>
    cases xs with
    | nil => cases h
    | cons x xs =>
      have hrest := ih (Nat.succ.inj h)
      cases b with
      | true =>
        simp only [List.map_cons, Bool.not_true, select, List.length_cons]
        omega
      | false =>
        simp only [List.map_cons, Bool.not_false, select, List.length_cons]
        omega

/-! ## Filters -/

/-- A filter: what an element does to the state, and whether it is kept. -/
structure Filter (σ α : Type*) where
  step : σ → α → σ × Bool

namespace Filter

variable (F : Filter σ α)

/-- What is kept, from a state on. -/
def run : σ → List α → List α
  | _, [] => []
  | s, x :: xs =>
    if (F.step s x).2 then x :: run (F.step s x).1 xs else run (F.step s x).1 xs

/-- Where it is kept. -/
def mask : σ → List α → List Bool
  | _, [] => []
  | s, x :: xs => (F.step s x).2 :: mask (F.step s x).1 xs

/-- The state after some elements. -/
def after (s : σ) (xs : List α) : σ := xs.foldl (fun s x => (F.step s x).1) s

theorem after_concat (s : σ) (xs : List α) (x : α) :
    F.after s (xs ++ [x]) = (F.step (F.after s xs) x).1 := by
  unfold after
  rw [List.foldl_append]
  rfl

theorem length_mask (s : σ) (xs : List α) : (F.mask s xs).length = xs.length := by
  induction xs generalizing s with
  | nil => rfl
  | cons x xs ih => rw [mask, List.length_cons, List.length_cons, ih]

theorem run_eq_select (s : σ) (xs : List α) : F.run s xs = select (F.mask s xs) xs := by
  induction xs generalizing s with
  | nil => rfl
  | cons x xs ih =>
    rw [run, mask, ih]
    cases (F.step s x).2 with
    | true => rfl
    | false => rfl

/-- What the mask says at a place. -/
theorem mask_getElem? (s : σ) {xs : List α} {i : ℕ} {x : α} (h : xs[i]? = some x) :
    (F.mask s xs)[i]? = some (F.step (F.after s (xs.take i)) x).2 := by
  induction xs generalizing s i with
  | nil => cases h
  | cons y ys ih =>
    cases i with
    | zero =>
      cases h
      rfl
    | succ i =>
      have hrest := ih (F.step s y).1 h
      exact hrest

/-- Two filters of which each keeps just what the other one does not. -/
theorem mask_not {G : Filter σ α} (hstep : ∀ s x, (G.step s x).1 = (F.step s x).1)
    {s : σ} {xs : List α}
    (hkeep : ∀ i x, xs[i]? = some x →
      (G.step (F.after s (xs.take i)) x).2 = !(F.step (F.after s (xs.take i)) x).2) :
    G.mask s xs = (F.mask s xs).map not := by
  induction xs generalizing s with
  | nil => rfl
  | cons x xs ih =>
    have hhead := hkeep 0 x rfl
    have htail := ih (s := (F.step s x).1) fun i y hy => hkeep (i + 1) y hy
    rw [mask, mask, List.map_cons, hstep, htail]
    rw [List.take_zero] at hhead
    exact congrArg (· :: _) hhead

end Filter

/-! ## Ranges -/

variable {p q : α → Prop} {xs : List α} {i : ℕ} {x : α}

/-- The place is in a range that opens at an element with `p` and closes at the next one, the same
one included, with `q`. -/
def InRange (p q : α → Prop) (xs : List α) (i : ℕ) : Prop :=
  ∃ j ≤ i, (∃ x ∈ xs[j]?, p x) ∧ ∀ k, j ≤ k → k < i → ∀ y ∈ xs[k]?, ¬ q y

/-- It is in the first one. -/
def InFirstRange (p q : α → Prop) (xs : List α) (i : ℕ) : Prop :=
  ∃ j ≤ i, (∃ x ∈ xs[j]?, p x) ∧ (∀ k < j, ∀ y ∈ xs[k]?, ¬ p y)
    ∧ ∀ k, j ≤ k → k < i → ∀ y ∈ xs[k]?, ¬ q y

/-- Whether a range is open behind some elements. -/
def openAfter (p q : α → Prop) [DecidablePred p] [DecidablePred q] (xs : List α) : Bool :=
  xs.foldl (fun opened x => (opened || decide (p x)) && !decide (q x)) false

theorem openAfter_concat [DecidablePred p] [DecidablePred q] (xs : List α) (x : α) :
    openAfter p q (xs ++ [x]) = ((openAfter p q xs || decide (p x)) && !decide (q x)) := by
  unfold openAfter
  rw [List.foldl_append]
  rfl

theorem take_succ_of_getElem? (h : xs[i]? = some x) : xs.take (i + 1) = xs.take i ++ [x] := by
  rw [List.take_add_one, h]
  rfl

theorem inRange_zero (h : xs[0]? = some x) : InRange p q xs 0 ↔ p x := by
  constructor
  · rintro ⟨j, hj, ⟨y, hy, hp⟩, -⟩
    obtain rfl : j = 0 := by omega
    obtain rfl := Option.some.inj (h.symm.trans hy)
    exact hp
  · intro hp
    exact ⟨0, Nat.le_refl 0, ⟨x, h, hp⟩, fun k _ hk => absurd hk (Nat.not_lt_zero k)⟩

theorem inRange_succ {y : α} (hy : xs[i]? = some y) (hx : xs[i + 1]? = some x) :
    InRange p q xs (i + 1) ↔ p x ∨ InRange p q xs i ∧ ¬ q y := by
  constructor
  · rintro ⟨j, hj, ⟨z, hz, hp⟩, hopen⟩
    rcases Nat.lt_or_eq_of_le hj with hlt | rfl
    · refine .inr ⟨⟨j, by omega, ⟨z, hz, hp⟩, fun k hjk hki => hopen k hjk (by omega)⟩, ?_⟩
      exact hopen i (by omega) (by omega) y hy
    · obtain rfl := Option.some.inj (hx.symm.trans hz)
      exact .inl hp
  · rintro (hp | ⟨⟨j, hj, hat, hopen⟩, hq⟩)
    · exact ⟨i + 1, Nat.le_refl _, ⟨x, hx, hp⟩, fun k hk hlt => by omega⟩
    · refine ⟨j, by omega, hat, fun k hjk hki z hz => ?_⟩
      rcases Nat.lt_or_eq_of_le (Nat.le_of_lt_succ hki) with hlt | rfl
      · exact hopen k hjk hlt z hz
      · obtain rfl := Option.some.inj (hy.symm.trans hz)
        exact hq

/-- **A place is in a range** if and only if one opens there or is still open. -/
theorem inRange_iff [DecidablePred p] [DecidablePred q] (h : xs[i]? = some x) :
    InRange p q xs i ↔ p x ∨ openAfter p q (xs.take i) = true := by
  induction i generalizing x with
  | zero =>
    rw [inRange_zero h, List.take_zero]
    exact ⟨.inl, fun hor => hor.resolve_right Bool.false_ne_true⟩
  | succ i ih =>
    obtain ⟨y, hy⟩ : ∃ y, xs[i]? = some y := by
      obtain ⟨hlt, -⟩ := List.getElem?_eq_some_iff.mp h
      exact ⟨xs[i], List.getElem?_eq_getElem (by omega)⟩
    rw [inRange_succ hy h, ih hy, take_succ_of_getElem? hy, openAfter_concat, Bool.and_eq_true,
      Bool.or_eq_true, decide_eq_true_eq, Bool.not_eq_true', decide_eq_false_iff_not,
      or_comm (a := p y)]

/-- Where no range closes before a place, the first one is the only one. -/
theorem inFirstRange_iff (h : ∀ y ∈ xs.take i, ¬ q y) :
    InFirstRange p q xs i ↔ InRange p q xs i := by
  classical
  constructor
  · rintro ⟨j, hj, hat, -, hopen⟩
    exact ⟨j, hj, hat, hopen⟩
  · rintro ⟨j, hj, hat, -⟩
    have hex : ∃ k, ∃ x ∈ xs[k]?, p x := ⟨j, hat⟩
    refine ⟨Nat.find hex, Nat.le_trans (Nat.find_min' hex hat) hj, Nat.find_spec hex,
      fun k hk y hy hp => Nat.find_min hex hk ⟨y, hy, hp⟩, fun k _ hki y hy => h y ?_⟩
    rw [List.mem_iff_getElem?]
    exact ⟨k, by rw [List.getElem?_take_of_lt hki]; exact hy⟩

end Holchain.Lib
