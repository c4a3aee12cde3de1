import Mathlib.Data.Nat.Notation
import Mathlib.Logic.Basic
import Mathlib.Data.List.Basic
import Mathlib.Data.List.Forall2

/-!
# Lib.Regex — regular expressions with groups

What a backtracking matcher comes to, in the order in which it tries it (`outcomes`): more
repetitions first. The first of them is the match that such a matcher finds (`first`), and a line
has a match where there is any, anywhere in it (`found`).

A repetition of nothing is the last one, so `star` needs no more rounds than there are letters.
-/

namespace Holchain.Lib

variable {α : Type*}

/-- Regular expressions over letters. -/
inductive Regex (α : Type*) where
  | empty
  | one (p : α → Bool)
  | seq (r r' : Regex α)
  | opt (r : Regex α)
  | star (r : Regex α)
  | group (n : ℕ) (r : Regex α)
  | back (n : ℕ)
  | start
  /-- what stands behind the place -/
  | ahead (p : List α → Bool)

namespace Regex

/-- A place in a text, and what the groups have matched: the letters before it, the last one first,
and those behind it. -/
structure Place (α : Type*) where
  before : List α
  rest : List α
  groups : ℕ → Option (List α)

namespace Place

variable {s t : Place α}

/-- Further on by some letters. -/
def advance (s : Place α) (n : ℕ) : Place α :=
  { s with before := (s.rest.take n).reverse ++ s.before, rest := s.rest.drop n }

/-- The letters from one place to a later one. -/
def between (s t : Place α) : List α := s.rest.take (s.rest.length - t.rest.length)

/-- A group has matched. -/
def capture (t : Place α) (n : ℕ) (text : List α) : Place α :=
  { t with groups := fun m => if m = n then some text else t.groups m }

/-- The first place of a text. -/
def first (text : List α) : Place α := ⟨[], text, fun _ => none⟩

@[simp] theorem rest_advance (s : Place α) (n : ℕ) : (s.advance n).rest = s.rest.drop n := rfl

theorem advance_cons {c : α} {cs : List α} (h : s.rest = c :: cs) (n : ℕ) :
    s.advance (n + 1) = (s.advance 1).advance n := by
  unfold advance
  rw [h]
  simp only [List.take_succ_cons, List.drop_succ_cons, List.take_zero, List.drop_zero,
    List.reverse_cons, List.reverse_nil, List.nil_append, List.append_assoc]

/-- As many letters are between a place and one further on. -/
theorem between_advance (s : Place α) {n : ℕ} (h : n ≤ s.rest.length) :
    s.between (s.advance n) = s.rest.take n := by
  rw [between, rest_advance, List.length_drop, Nat.sub_sub_self h]

end Place

/-! ## Outcomes -/

/-- Rounds of a repetition, as many as there are left. -/
def rounds (round : Place α → List (Place α)) : ℕ → Place α → List (Place α)
  | 0, s => [s]
  | n + 1, s =>
    (round s).flatMap (fun t => if t.rest.length < s.rest.length then rounds round n t else [t])
      ++ [s]

/-- Where a match from a place ends, in the order in which it is tried. -/
def outcomes [DecidableEq α] : Regex α → Place α → List (Place α)
  | empty, s => [s]
  | one p, s =>
    match s.rest with
    | [] => []
    | c :: _ => if p c then [s.advance 1] else []
  | seq r r', s => (r.outcomes s).flatMap r'.outcomes
  | opt r, s => r.outcomes s ++ [s]
  | star r, s => rounds r.outcomes (s.rest.length + 1) s
  | group n r, s => (r.outcomes s).map fun t => t.capture n (s.between t)
  | back n, s =>
    match s.groups n with
    | none => []
    | some text => if text <+: s.rest then [s.advance text.length] else []
  | start, s => if s.before = [] then [s] else []
  | ahead p, s => if p s.rest then [s] else []

theorem rounds_succ (round : Place α → List (Place α)) (n : ℕ) (s : Place α) :
    rounds round (n + 1) s = (round s).flatMap (fun t =>
      if t.rest.length < s.rest.length then rounds round n t else [t]) ++ [s] := rfl

variable [DecidableEq α]

/-- The match that is tried first. -/
def first (r : Regex α) (s : Place α) : Option (Place α) := (r.outcomes s).head?

/-- One after the other. -/
def sequence (rs : List (Regex α)) : Regex α := rs.foldr seq empty

/-- At least one. -/
def plus (p : α → Bool) : Regex α := seq (one p) (star (one p))

variable {r r' : Regex α} {s t u : Place α} {p : α → Bool}

@[simp] theorem outcomes_seq (r r' : Regex α) (s : Place α) :
    (seq r r').outcomes s = (r.outcomes s).flatMap r'.outcomes := rfl

@[simp] theorem outcomes_opt (r : Regex α) (s : Place α) :
    (opt r).outcomes s = r.outcomes s ++ [s] := rfl

@[simp] theorem outcomes_group (n : ℕ) (r : Regex α) (s : Place α) :
    (group n r).outcomes s = (r.outcomes s).map fun t => t.capture n (s.between t) := rfl

theorem outcomes_start (s : Place α) :
    start.outcomes s = if s.before = [] then [s] else [] := rfl

theorem outcomes_ahead (p : List α → Bool) (s : Place α) :
    (ahead p).outcomes s = if p s.rest then [s] else [] := rfl

theorem outcomes_one {c : α} {cs : List α} (h : s.rest = c :: cs) :
    (one p).outcomes s = if p c then [s.advance 1] else [] := by
  obtain ⟨before, rest, groups⟩ := s
  obtain rfl : rest = c :: cs := h
  rfl

theorem outcomes_one_nil (h : s.rest = []) : (one p).outcomes s = [] := by
  obtain ⟨before, rest, groups⟩ := s
  obtain rfl : rest = [] := h
  rfl

theorem first_seq (h : r.first s = some t) (h' : r'.first t = some u) :
    (seq r r').first s = some u := by
  obtain ⟨ts, hts⟩ := List.head?_eq_some_iff.mp h
  obtain ⟨us, hus⟩ := List.head?_eq_some_iff.mp h'
  rw [first, outcomes_seq, hts, List.flatMap_cons, hus]
  rfl

theorem seq_nil (h : r.outcomes s = []) : (seq r r').outcomes s = [] := by
  rw [outcomes_seq, h]
  rfl

theorem seq_nil_of_single (h : r.outcomes s = [t]) (h' : r'.outcomes t = []) :
    (seq r r').outcomes s = [] := by
  rw [outcomes_seq, h, List.flatMap_singleton, h']

theorem group_nil (n : ℕ) (h : r.outcomes s = []) : (group n r).outcomes s = [] := by
  rw [outcomes_group, h]
  rfl

theorem first_group (n : ℕ) (h : r.first s = some t) :
    (group n r).first s = some (t.capture n (s.between t)) := by
  rw [first, outcomes_group, List.head?_map]
  exact congrArg (Option.map _) h

theorem first_opt (h : r.first s = some t) : (opt r).first s = some t := by
  obtain ⟨ts, hts⟩ := List.head?_eq_some_iff.mp h
  rw [first, outcomes_opt, hts]
  rfl

theorem first_opt_nil (h : r.outcomes s = []) : (opt r).first s = some s := by
  rw [first, outcomes_opt, h]
  rfl

theorem first_start (h : s.before = []) : start.first s = some s := by
  rw [first, outcomes_start, if_pos h]
  rfl

theorem first_ahead {p : List α → Bool} (h : p s.rest = true) : (ahead p).first s = some s := by
  rw [first, outcomes_ahead, if_pos h]
  rfl

/-- The rounds over one letter: the first outcome is behind all that there are. -/
theorem head?_rounds (p : α → Bool) (n : ℕ) (s : Place α) (h : s.rest.length < n) :
    (rounds (one p).outcomes n s).head? = some (s.advance (s.rest.takeWhile p).length) := by
  induction n generalizing s with
  | zero => exact absurd h (Nat.not_lt_zero _)
  | succ n ih =>
    rw [rounds_succ]
    cases hrest : s.rest with
    | nil =>
      rw [outcomes_one_nil hrest]
      rfl
    | cons c cs =>
      rw [outcomes_one hrest, List.takeWhile_cons]
      cases hp : p c with
      | false => rfl
      | true =>
        have hshort : (s.advance 1).rest.length < (c :: cs).length := by
          rw [Place.rest_advance, hrest]
          exact Nat.lt_succ_self _
        have hnext := ih (s.advance 1) (by rw [hrest] at h; omega)
        obtain ⟨ts, hts⟩ := List.head?_eq_some_iff.mp hnext
        rw [if_pos rfl, if_pos rfl, List.flatMap_cons, if_pos hshort, hts]
        have hcs : (s.advance 1).rest = cs := by
          rw [Place.rest_advance, hrest]
          rfl
        rw [hcs, List.length_cons, ← Place.advance_cons hrest]
        rfl

/-- **A repetition of letters takes all that there are.** -/
theorem first_star (p : α → Bool) (s : Place α) :
    (star (one p)).first s = some (s.advance (s.rest.takeWhile p).length) :=
  head?_rounds p (s.rest.length + 1) s (Nat.lt_succ_self _)

theorem first_plus (h : s.rest.takeWhile p ≠ []) :
    (plus p).first s = some (s.advance (s.rest.takeWhile p).length) := by
  cases hrest : s.rest with
  | nil => exact absurd (by rw [hrest]; rfl) h
  | cons c cs =>
    rw [hrest, List.takeWhile_cons] at h
    have hp : p c = true := by
      by_contra hp
      exact h (if_neg hp)
    have hone : (one p).first s = some (s.advance 1) := by
      rw [first, outcomes_one hrest, if_pos hp]
      rfl
    have hstar := first_seq hone (first_star p (s.advance 1))
    have hcs : (s.advance 1).rest = cs := by
      rw [Place.rest_advance, hrest]
      rfl
    rw [hcs, ← Place.advance_cons hrest] at hstar
    rw [List.takeWhile_cons, if_pos hp, List.length_cons]
    exact hstar

theorem plus_nil (h : s.rest.takeWhile p = []) : (plus p).outcomes s = [] := by
  apply seq_nil
  cases hrest : s.rest with
  | nil => exact outcomes_one_nil hrest
  | cons c cs =>
    rw [hrest, List.takeWhile_cons] at h
    have hp : ¬ p c = true := by
      intro hp
      rw [if_pos hp] at h
      exact absurd h (List.cons_ne_nil _ _)
    rw [outcomes_one hrest, if_neg hp]

/-! ## Matches in a line -/

/-- Whether there is a match at a place or a later one. -/
def foundFrom (r : Regex α) : List α → List α → Bool
  | before, [] => (r.first ⟨before, [], fun _ => none⟩).isSome
  | before, c :: rest =>
    (r.first ⟨before, c :: rest, fun _ => none⟩).isSome || r.foundFrom (c :: before) rest

/-- Whether a line has a match. -/
def found (r : Regex α) (line : List α) : Bool := r.foundFrom [] line

theorem foundFrom_cons (r : Regex α) (before : List α) (c : α) (rest : List α) :
    r.foundFrom before (c :: rest) = ((r.first ⟨before, c :: rest, fun _ => none⟩).isSome ||
      r.foundFrom (c :: before) rest) := rfl

theorem foundFrom_iff (r : Regex α) (rest before : List α) : r.foundFrom before rest = true ↔
    ∃ x y, rest = x ++ y ∧
      (r.first ⟨x.reverse ++ before, y, fun _ => none⟩).isSome = true := by
  induction rest generalizing before with
  | nil =>
    constructor
    · intro h
      exact ⟨[], [], rfl, h⟩
    · rintro ⟨x, y, hsplit, h⟩
      obtain ⟨rfl, rfl⟩ := List.append_eq_nil_iff.mp hsplit.symm
      exact h
  | cons c rest ih =>
    rw [foundFrom_cons, Bool.or_eq_true, ih]
    constructor
    · rintro (h | ⟨x, y, rfl, h⟩)
      · exact ⟨[], c :: rest, rfl, h⟩
      · refine ⟨c :: x, y, rfl, ?_⟩
        rw [List.reverse_cons, List.append_assoc]
        exact h
    · rintro ⟨x, y, hsplit, h⟩
      cases x with
      | nil =>
        rw [List.nil_append] at hsplit
        rw [hsplit]
        exact .inl h
      | cons d x =>
        obtain ⟨rfl, rfl⟩ := List.cons.inj hsplit
        rw [List.reverse_cons, List.append_assoc] at h
        exact .inr ⟨x, y, rfl, h⟩

/-- A line has a match if and only if there is one at one of its places. -/
theorem found_iff (r : Regex α) (line : List α) : r.found line = true ↔
    ∃ x y, line = x ++ y ∧ (r.first ⟨x.reverse, y, fun _ => none⟩).isSome = true := by
  rw [found, foundFrom_iff]
  simp only [List.append_nil]

/-- A letter and more behind it. -/
theorem outcomes_sequence_one {c : α} {cs : List α} (h : s.rest = c :: cs)
    (ps : List (α → Bool)) : (sequence ((p :: ps).map one)).outcomes s =
      if p c then (sequence (ps.map one)).outcomes (s.advance 1) else [] := by
  have hseq : (sequence ((p :: ps).map one)).outcomes s
      = ((one p).outcomes s).flatMap (sequence (ps.map one)).outcomes := rfl
  rw [hseq, outcomes_one h]
  by_cases hp : p c = true
  · rw [if_pos hp, if_pos hp, List.flatMap_singleton]
  · rw [if_neg hp, if_neg hp, List.flatMap_nil]

/-- Letters one after the other. -/
theorem first_sequence_one (ps : List (α → Bool)) (s : Place α) :
    ((sequence (ps.map one)).first s).isSome = true ↔
      ∃ w y, s.rest = w ++ y ∧ List.Forall₂ (fun p c => p c = true) ps w := by
  induction ps generalizing s with
  | nil => exact ⟨fun _ => ⟨[], s.rest, rfl, .nil⟩, fun _ => rfl⟩
  | cons p ps ih =>
    simp only [List.forall₂_cons_left_iff]
    cases hrest : s.rest with
    | nil =>
      have hnone : (sequence ((p :: ps).map one)).outcomes s = [] := seq_nil (outcomes_one_nil hrest)
      rw [first, hnone]
      refine iff_of_false Bool.false_ne_true ?_
      rintro ⟨w, y, hsplit, c, w', -, -, rfl⟩
      exact absurd hsplit (List.cons_ne_nil _ _).symm
    | cons c cs =>
      have hcs : (s.advance 1).rest = cs := by
        rw [Place.rest_advance, hrest]
        rfl
      rw [first, outcomes_sequence_one hrest]
      by_cases hp : p c = true
      · rw [if_pos hp]
        apply (ih (s.advance 1)).trans
        rw [hcs]
        constructor
        · rintro ⟨w, y, rfl, hall⟩
          exact ⟨c :: w, y, rfl, c, w, hp, hall, rfl⟩
        · rintro ⟨w, y, hsplit, d, w', -, hall, rfl⟩
          exact ⟨w', y, (List.cons.inj hsplit).2, hall⟩
      · rw [if_neg hp]
        refine iff_of_false Bool.false_ne_true ?_
        rintro ⟨w, y, hsplit, d, w', hd, -, rfl⟩
        obtain ⟨rfl, -⟩ := List.cons.inj hsplit
        exact hp hd

/-- A line has letters one after the other if and only if it has them somewhere. -/
theorem found_sequence_one (ps : List (α → Bool)) (line : List α) :
    (sequence (ps.map one)).found line = true ↔
      ∃ x w y, line = x ++ (w ++ y) ∧ List.Forall₂ (fun p c => p c = true) ps w := by
  rw [found_iff]
  constructor
  · rintro ⟨x, y, rfl, h⟩
    obtain ⟨w, y, hsplit, hall⟩ := (first_sequence_one ps _).mp h
    exact ⟨x, w, y, congrArg (x ++ ·) hsplit, hall⟩
  · rintro ⟨x, w, y, rfl, hall⟩
    exact ⟨x, w ++ y, rfl, (first_sequence_one ps _).mpr ⟨w, y, rfl, hall⟩⟩

end Regex

end Holchain.Lib
