import Mathlib.Data.List.DropRight

/-!
# Lib.Pieces — a list cut at a delimiter

The pieces of a list are what stands between its delimiters; empty pieces count. They are determined
by joining to the list (`Pieces.unique`), and `List.splitOn` computes them. A fact about all lists is
proved along the cuts, from the left (`cut_induction`).
-/

namespace Holchain.Lib

variable {α : Type} {d : α} {s p : List α} {pieces pieces' : List (List α)}

/-- The list is these pieces with the delimiter between neighbours, and no piece has it. -/
structure Pieces (d : α) (s : List α) (pieces : List (List α)) : Prop where
  nonempty : pieces ≠ []
  free : ∀ p ∈ pieces, d ∉ p
  joins : [d].intercalate pieces = s

variable [DecidableEq α]

/-- A list has no delimiter, or is a piece, a delimiter and a list. -/
theorem cut_induction (d : α) {motive : List α → Prop} (whole : ∀ s, d ∉ s → motive s)
    (cut : ∀ p s, d ∉ p → motive s → motive (p ++ d :: s)) (s : List α) : motive s := by
  induction hn : s.length using Nat.strong_induction_on generalizing s with
  | _ n ih =>
    by_cases hd : d ∈ s
    · obtain ⟨p, rest, rfl, hp⟩ := List.eq_append_cons_of_mem hd
      have hshort : rest.length < n := by
        rw [← hn, List.length_append, List.length_cons]
        omega
      exact cut p rest hp (ih rest.length hshort rest rfl)
    · exact whole s hd

/-- The first delimiter stands behind the first piece. -/
theorem idxOf?_cut (h : d ∉ p) (s : List α) : (p ++ d :: s).idxOf? d = some p.length := by
  induction p with
  | nil => rw [List.nil_append, List.idxOf?_cons, if_pos (beq_self_eq_true d), List.length_nil]
  | cons c p ih =>
    obtain ⟨hc, hp⟩ := not_or.mp (mt List.mem_cons.mpr h)
    rw [List.cons_append, List.idxOf?_cons, if_neg fun heq => hc (eq_of_beq heq).symm, ih hp,
      Option.map_some, List.length_cons]

/-! ## Behind the last delimiter -/

/-- What stands behind the last delimiter. -/
def tail (d : α) (s : List α) : List α := s.rtakeWhile (· != d)

/-- What stands up to the last delimiter. -/
def front (d : α) (s : List α) : List α := s.rdropWhile (· != d)

theorem front_append_tail (d : α) (s : List α) : front d s ++ tail d s = s :=
  List.rdropWhile_append_rtakeWhile

theorem tail_whole (h : d ∉ s) : tail d s = s :=
  List.rtakeWhile_eq_self_iff.mpr fun _ hc => bne_iff_ne.mpr fun heq => h (heq ▸ hc)

theorem front_whole (h : d ∉ s) : front d s = [] :=
  List.rdropWhile_eq_nil_iff.mpr fun _ hc => bne_iff_ne.mpr fun heq => h (heq ▸ hc)

theorem tail_cut (d : α) (p s : List α) : tail d (p ++ d :: s) = tail d s := by
  have hdelim : (d :: p.reverse).takeWhile (· != d) = [] :=
    List.takeWhile_cons_of_neg (by rw [bne_self_eq_false]; exact Bool.false_ne_true)
  unfold tail List.rtakeWhile
  rw [List.reverse_append, List.reverse_cons, List.append_assoc, List.singleton_append,
    List.takeWhile_append, hdelim, List.append_nil]
  split
  · next hall => rw [(List.takeWhile_prefix _).eq_of_length hall]
  · rfl

theorem front_cut (d : α) (p s : List α) : front d (p ++ d :: s) = p ++ d :: front d s := by
  have hwhole := front_append_tail d (p ++ d :: s)
  rw [tail_cut] at hwhole
  apply List.append_cancel_right (hwhole.trans _)
  rw [List.append_assoc, List.cons_append, front_append_tail]

/-! ## The pieces -/

theorem splitOn_whole (h : d ∉ s) : s.splitOn d = [s] := List.splitOn_eq_singleton h

theorem splitOn_cut (h : d ∉ p) (s : List α) : (p ++ d :: s).splitOn d = p :: s.splitOn d :=
  List.splitOn_append_cons_self_of_not_mem h s

theorem pieces_splitOn (d : α) (s : List α) : Pieces d s (s.splitOn d) where
  nonempty := List.splitOn_ne_nil d s
  free := by
    induction s using cut_induction d with
    | whole s h =>
      rw [splitOn_whole h]
      exact fun p hp => List.mem_singleton.mp hp ▸ h
    | cut p s h ih =>
      rw [splitOn_cut h]
      exact List.forall_mem_cons.mpr ⟨h, ih⟩
  joins := List.intercalate_splitOn d

theorem Pieces.eq_splitOn (h : Pieces d s pieces) : pieces = s.splitOn d := by
  rw [← h.joins, List.splitOn_intercalate d h.free h.nonempty]

/-- **A list has one way to be cut.** -/
theorem Pieces.unique (h : Pieces d s pieces) (h' : Pieces d s pieces') : pieces = pieces' :=
  h.eq_splitOn.trans h'.eq_splitOn.symm

theorem length_splitOn (d : α) (s : List α) : (s.splitOn d).length = s.count d + 1 := by
  induction s using cut_induction d with
  | whole s h => rw [splitOn_whole h, List.count_eq_zero_of_not_mem h, List.length_singleton]
  | cut p s h ih =>
    rw [splitOn_cut h, List.length_cons, ih, List.count_append, List.count_cons_self,
      List.count_eq_zero_of_not_mem h, Nat.zero_add]

/-- The last piece is what stands behind the last delimiter. -/
theorem splitOn_eq (d : α) (s : List α) :
    s.splitOn d = (s.splitOn d).dropLast ++ [tail d s] := by
  induction s using cut_induction d with
  | whole s h => rw [splitOn_whole h, tail_whole h, List.dropLast_singleton, List.nil_append]
  | cut p s h ih =>
    rw [splitOn_cut h, List.dropLast_cons_of_ne_nil (List.splitOn_ne_nil d s), tail_cut,
      List.cons_append, ← ih]

/-- A piece in front of the last delimiter is not empty just if there is a byte of it. -/
theorem dropLast_splitOn_nil (d : α) (s : List α) :
    (∀ p ∈ (s.splitOn d).dropLast, p = []) ↔ ∀ c ∈ front d s, c = d := by
  induction s using cut_induction d with
  | whole s h =>
    rw [splitOn_whole h, front_whole h, List.dropLast_singleton]
    exact ⟨fun _ _ hc => (nomatch hc), fun _ _ hp => (nomatch hp)⟩
  | cut p s h ih =>
    rw [splitOn_cut h, List.dropLast_cons_of_ne_nil (List.splitOn_ne_nil d s), front_cut,
      List.forall_mem_cons, List.forall_mem_append, List.forall_mem_cons, ih]
    have hempty : p = [] ↔ ∀ c ∈ p, c = d := by
      constructor
      · intro hp c hc
        rw [hp] at hc
        cases hc
      · intro hall
        exact List.eq_nil_iff_forall_not_mem.mpr fun c hc => h (hall c hc ▸ hc)
    rw [hempty]
    exact ⟨fun ⟨hp, hs⟩ => ⟨hp, rfl, hs⟩, fun ⟨hp, _, hs⟩ => ⟨hp, hs⟩⟩

end Holchain.Lib
