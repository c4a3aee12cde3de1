import Mathlib.Data.List.GetD
import Holchain.Lib.Template
import Holchain.Rc.Bashrc

/-!
# Laws.Bashrc — `xeger` expands its pattern

A round prints the text in front of a group and one of the group's alternatives, and goes on behind the
group (`xeger_closed`, `xeger_unclosed`). So the program ends, and prints an expansion of the line; and
it prints every one of them, for some numbers (`xeger_expands`).
-/

namespace Holchain.Rc.Bashrc

open Holper (Bytes)
open Lib (Pieces Slot Reads Chosen fill)

variable {st t body rest last : Bytes} {c : UInt8} {alternatives choices : List Bytes}
  {groups : List (Slot UInt8)} {s : Awk}

/-! ## Positions -/

theorem substrFrom_succ (st : Bytes) (n : ℕ) : substrFrom st (n + 1) = st.drop n := by
  unfold substrFrom
  congr
  omega

theorem substr_one (st : Bytes) (n : ℕ) : substr st 1 n = st.take n := by
  have hfrom : substrFrom st 1 = st := substrFrom_succ st 0
  unfold substr
  rw [hfrom]
  congr
  omega

theorem substr_two (c : UInt8) (st : Bytes) (n : ℕ) : substr (c :: st) 2 n = st.take n := by
  have hfrom : substrFrom (c :: st) 2 = st := substrFrom_succ (c :: st) 1
  unfold substr
  rw [hfrom]
  congr
  omega

theorem index_whole (h : c ∉ st) : index st c = 0 := by
  unfold index
  rw [List.idxOf?_eq_none_iff.mpr h]

theorem index_cut (h : c ∉ t) (rest : Bytes) : index (t ++ c :: rest) c = t.length + 1 := by
  unfold index
  rw [Lib.idxOf?_cut h]

/-! ## A choice -/

/-- The alternative for a number. -/
def pick (r : Rand) (alternatives : List Bytes) : Bytes :=
  alternatives.getD ⌊r.val * alternatives.length⌋.toNat []

theorem floor_bounds (r : Rand) {k : ℕ} (hk : 0 < k) :
    0 ≤ ⌊r.val * k⌋ ∧ ⌊r.val * k⌋ < k := by
  have hpos : (0 : ℚ) < k := Nat.cast_pos.mpr hk
  refine ⟨Int.floor_nonneg.mpr (mul_nonneg r.property.1 hpos.le), Int.floor_lt.mpr ?_⟩
  calc r.val * k < 1 * k := mul_lt_mul_of_pos_right r.property.2 hpos
    _ = ((k : ℤ) : ℚ) := by rw [one_mul, Int.cast_natCast]

theorem pick_mem (r : Rand) (h : alternatives ≠ []) : pick r alternatives ∈ alternatives := by
  obtain ⟨hlow, hhigh⟩ := floor_bounds r (List.length_pos_of_ne_nil h)
  unfold pick
  rw [List.getD_eq_getElem _ _ (by omega)]
  exact List.getElem_mem _

/-- Every alternative has a number. -/
theorem exists_pick {option : Bytes} (h : option ∈ alternatives) :
    ∃ r : Rand, pick r alternatives = option := by
  obtain ⟨i, hi, rfl⟩ := List.mem_iff_getElem.mp h
  have hpos : (0 : ℚ) < alternatives.length := Nat.cast_pos.mpr (by omega)
  have hlow : (0 : ℚ) ≤ i / alternatives.length := div_nonneg (Nat.cast_nonneg i) hpos.le
  have hhigh : (i : ℚ) / alternatives.length < 1 :=
    (div_lt_one hpos).mpr (Nat.cast_lt.mpr hi)
  refine ⟨⟨i / alternatives.length, hlow, hhigh⟩, ?_⟩
  unfold pick
  rw [div_mul_cancel₀ _ hpos.ne', Int.floor_natCast, Int.toNat_natCast,
    List.getD_eq_getElem _ _ hi]

/-- An element of the array that `split` makes. -/
theorem lookup_zipIdx (pieces : List Bytes) (start i : ℕ) (h : i < pieces.length) :
    ((pieces.zipIdx start).map fun piece => ((piece.2 : ℤ), piece.1)).lookup ((start : ℤ) + i)
      = some pieces[i] := by
  induction pieces generalizing start i with
  | nil => cases h
  | cons piece pieces ih =>
    rw [List.zipIdx_cons, List.map_cons, List.lookup_cons]
    cases i with
    | zero => rw [Nat.cast_zero, add_zero, beq_self_eq_true]; rfl
    | succ i =>
      have hne : ((start : ℤ) + (i + 1 : ℕ) == (start : ℤ)) = false := by
        apply beq_eq_false_iff_ne.mpr
        omega
      have hnext := ih (start + 1) i (Nat.lt_of_succ_lt_succ h)
      have hcast : ((start : ℤ) + (i + 1 : ℕ)) = ((start + 1 : ℕ) : ℤ) + i := by omega
      rw [hne, hcast]
      exact hnext

/-- What is printed of a group. -/
theorem subscript_split (hpieces : Pieces 124 body alternatives) (r : Rand) :
    (subscript (split body 124) (1 + int (r.val * (split body 124).length))).1
      = pick r alternatives := by
  obtain rfl := hpieces.eq_splitOn
  by_cases hbody : body = []
  · have hint : int (r.val * (0 : ℕ)) = 0 := by
      rw [Nat.cast_zero, mul_zero]
      exact (Lib.truncate_of_nonneg (le_refl 0)).trans Int.floor_zero
    have hmem : pick r [[]] ∈ [[]] := pick_mem r (List.cons_ne_nil [] [])
    have hsubscript : (subscript [] (1 + int (r.val * (0 : ℕ)))).1 = [] := by
      rw [hint]
      rfl
    rw [hbody]
    exact hsubscript.trans (List.mem_singleton.mp hmem).symm
  · have hsplit : split body 124 =
        ((body.splitOn 124).zipIdx 1).map fun piece => ((piece.2 : ℤ), piece.1) := if_neg hbody
    have hlength : (split body 124).length = (body.splitOn 124).length := by
      rw [hsplit, List.length_map, List.length_zipIdx]
    obtain ⟨hlow, hhigh⟩ := floor_bounds r (List.length_pos_of_ne_nil hpieces.nonempty)
    have hint : int (r.val * (split body 124).length) = ⌊r.val * (body.splitOn 124).length⌋ := by
      rw [hlength]
      exact Lib.truncate_of_nonneg (mul_nonneg r.property.1 (Nat.cast_nonneg _))
    rw [hint]
    unfold pick
    generalize ⌊r.val * (body.splitOn 124).length⌋ = p at hlow hhigh ⊢
    obtain ⟨i, rfl⟩ := Int.eq_ofNat_of_zero_le hlow
    have hi : i < (body.splitOn 124).length := Int.ofNat_lt.mp hhigh
    have hlookup := lookup_zipIdx (body.splitOn 124) 1 i hi
    rw [← hsplit, Nat.cast_one] at hlookup
    rw [Int.toNat_natCast, List.getD_eq_getElem _ _ hi]
    unfold subscript
    rw [hlookup]

/-! ## A round -/

/-- Where both functions set `nexttok`: in front of the delimiter, or at the end. -/
def tokenEnd (st : Bytes) (c : UInt8) : ℤ :=
  if index st c - 1 < 0 then length st else index st c - 1

theorem tokenEnd_whole (h : c ∉ st) : tokenEnd st c = st.length := by
  unfold tokenEnd
  rw [index_whole h]
  rfl

theorem tokenEnd_cut (h : c ∉ t) (rest : Bytes) : tokenEnd (t ++ c :: rest) c = t.length := by
  unfold tokenEnd
  rw [index_cut h, add_sub_cancel_right, if_neg (not_lt.mpr (Int.natCast_nonneg _))]

/-- What `xegeregex` prints of a group, and how far it goes. -/
theorem xegeregex_eq {n : ℕ} (hn : tokenEnd st 125 = n)
    (hpieces : Pieces 124 (substr st 2 (n - 1)) alternatives) :
    (xegeregex st s).1 = n + 1
      ∧ (xegeregex st s).2.out = s.out ++ pick s.rands.head alternatives
      ∧ (xegeregex st s).2.rands = s.rands.tail := by
  rw [← subscript_split hpieces]
  unfold tokenEnd at hn
  unfold xegeregex Awk.printf
  dsimp only
  split at hn
  · next hnone =>
    rw [if_pos hnone]
    dsimp only
    rw [hn]
    exact ⟨rfl, rfl, rfl⟩
  · next hsome =>
    rw [if_neg hsome]
    dsimp only
    rw [hn]
    exact ⟨rfl, rfl, rfl⟩

/-- A round prints the text in front of a group, and of the group. -/
theorem xeger_round {group : Bytes} {n : ℕ} (hne : t ++ group ≠ [])
    (ht : tokenEnd (t ++ group) 123 = t.length) (hn : tokenEnd group 125 = n)
    (hpieces : Pieces 124 (substr group 2 (n - 1)) alternatives) :
    ∃ s', s'.out = s.out ++ t ++ pick s.rands.head alternatives ∧ s'.rands = s.rands.tail
      ∧ ∀ fuel, xeger (fuel + 1) (t ++ group) s = xeger fuel (group.drop (n + 1)) s' := by
  have hlength : length (t ++ group) > 0 :=
    Int.natCast_pos.mpr (List.length_pos_of_ne_nil hne)
  have hprinted : substr (t ++ group) 1 t.length = t := by
    rw [substr_one, List.take_left]
  have hgroup : substrFrom (t ++ group) (t.length + 1) = group := by
    rw [substrFrom_succ, List.drop_left]
  -- the state that `xegeregex` is called with
  obtain ⟨s₁, hs₁⟩ : ∃ s₁ : Awk, s₁ =
    { s with l := length (t ++ group), nexttok := t.length, out := s.out ++ t } := ⟨_, rfl⟩
  obtain ⟨hnext, hout, hrands⟩ := xegeregex_eq (s := s₁) hn hpieces
  have hbehind : substrFrom group ((xegeregex group s₁).1 + 1) = group.drop (n + 1) := by
    rw [hnext]
    exact substrFrom_succ group (n + 1)
  rw [hs₁] at hout hrands
  refine ⟨{ (xegeregex group s₁).2 with l := (xegeregex group s₁).1 }, hs₁ ▸ hout, hs₁ ▸ hrands,
    fun fuel => ?_⟩
  rw [← hbehind, hs₁]
  rw [xeger]
  unfold Awk.printf
  dsimp only
  rw [if_pos hlength]
  unfold tokenEnd at ht
  split at ht
  · next hnone =>
    rw [if_pos hnone]
    dsimp only
    rw [ht, hprinted, hgroup]
  · next hsome =>
    rw [if_neg hsome]
    dsimp only
    rw [ht, hprinted, hgroup]

/-- Between the delimiters of a group is its body. -/
theorem substr_body (body rest : Bytes) :
    substr (123 :: (body ++ rest)) 2 (((body.length + 1 : ℕ) : ℤ) - 1) = body := by
  rw [Nat.cast_succ, add_sub_cancel_right, substr_two, List.take_left]

theorem notMem_cons_body (h : 125 ∉ body) : 125 ∉ (123 :: body : Bytes) :=
  List.not_mem_cons_of_ne_of_not_mem (by decide) h

theorem xeger_closed (ht : 123 ∉ t) (hbody : 125 ∉ body)
    (hpieces : Pieces 124 body alternatives) (rest : Bytes) :
    ∃ s', s'.out = s.out ++ t ++ pick s.rands.head alternatives ∧ s'.rands = s.rands.tail
      ∧ ∀ fuel, xeger (fuel + 1) (t ++ 123 :: (body ++ 125 :: rest)) s = xeger fuel rest s' := by
  rw [← substr_body body (125 :: rest)] at hpieces
  have hend : tokenEnd (123 :: (body ++ 125 :: rest)) 125 = (body.length + 1 : ℕ) :=
    tokenEnd_cut (notMem_cons_body hbody) rest
  have hbehind : (123 :: (body ++ 125 :: rest)).drop (body.length + 1 + 1) = rest :=
    List.drop_length_add_append 1
  obtain ⟨s', hout, hrands, hround⟩ := xeger_round (s := s)
    (List.append_ne_nil_of_right_ne_nil t (List.cons_ne_nil _ _)) (tokenEnd_cut ht _) hend hpieces
  rw [hbehind] at hround
  exact ⟨s', hout, hrands, hround⟩

theorem xeger_unclosed (ht : 123 ∉ t) (hbody : 125 ∉ body)
    (hpieces : Pieces 124 body alternatives) :
    ∃ s', s'.out = s.out ++ t ++ pick s.rands.head alternatives ∧ s'.rands = s.rands.tail
      ∧ ∀ fuel, xeger (fuel + 1) (t ++ 123 :: body) s = xeger fuel [] s' := by
  have hinner := substr_body body []
  rw [List.append_nil] at hinner
  rw [← hinner] at hpieces
  have hend : tokenEnd (123 :: body) 125 = (body.length + 1 : ℕ) :=
    tokenEnd_whole (notMem_cons_body hbody)
  have hbehind : (123 :: body).drop (body.length + 1 + 1) = [] :=
    List.drop_eq_nil_of_le (Nat.le_succ _)
  obtain ⟨s', hout, hrands, hround⟩ := xeger_round (s := s)
    (List.append_ne_nil_of_right_ne_nil t (List.cons_ne_nil _ _)) (tokenEnd_cut ht _) hend hpieces
  rw [hbehind] at hround
  exact ⟨s', hout, hrands, hround⟩

/-- Behind the last group is a round for the text, with nothing for a group. -/
theorem xeger_text (ht : 123 ∉ t) (hne : t ≠ []) :
    ∃ s', s'.out = s.out ++ t ∧ ∀ fuel, xeger (fuel + 1) t s = xeger fuel [] s' := by
  have hpieces : Pieces 124 (substr [] 2 (((0 : ℕ) : ℤ) - 1)) [[]] := Lib.pieces_splitOn 124 []
  have hwhole : tokenEnd (t ++ []) 123 = t.length := by
    rw [List.append_nil, tokenEnd_whole ht]
  have hend : tokenEnd [] 125 = (0 : ℕ) := rfl
  obtain ⟨s', hout, -, hround⟩ := xeger_round (s := s)
    (List.append_ne_nil_of_left_ne_nil hne []) hwhole hend hpieces
  have hempty : pick s.rands.head [[]] = [] :=
    List.mem_singleton.mp (pick_mem s.rands.head (List.cons_ne_nil [] []))
  rw [hempty, List.append_nil] at hout
  rw [List.append_nil] at hround
  exact ⟨s', hout, hround⟩

theorem xeger_nil {fuel : ℕ} (h : 0 < fuel) (s : Awk) :
    xeger fuel [] s = some { s with l := 0 } := by
  obtain ⟨fuel, rfl⟩ := Nat.exists_eq_succ_of_ne_zero h.ne'
  rfl

/-! ## The run -/

/-- The alternatives that are chosen, one number for each group. -/
def picks : List (Slot UInt8) → Stream' Rand → List Bytes
  | [], _ => []
  | slot :: slots, rands => pick rands.head slot.alternatives :: picks slots rands.tail

theorem picks_chosen (slots : List (Slot UInt8)) (rands : Stream' Rand) :
    Chosen slots (picks slots rands) := by
  induction slots generalizing rands with
  | nil => exact .nil
  | cons slot slots ih => exact .cons (pick_mem rands.head slot.nonempty) (ih rands.tail)

/-- All choices are made, for some numbers. -/
theorem exists_picks (h : Chosen groups choices) : ∃ rands, picks groups rands = choices := by
  induction h with
  | nil => exact ⟨Stream'.const ⟨0, le_refl 0, one_pos⟩, rfl⟩
  | cons hc _ ih =>
    obtain ⟨r, hr⟩ := exists_pick hc
    obtain ⟨rands, hrands⟩ := ih
    exact ⟨Stream'.cons r rands, congrArg₂ List.cons hr hrands⟩

/-- **A line is expanded**: with these numbers, the program ends and prints its choices. -/
theorem xeger_run (h : Reads 123 125 124 st groups last) (s : Awk) : ∃ s',
    s'.out = s.out ++ fill groups (picks groups s.rands) last
      ∧ ∀ fuel, st.length < fuel → xeger fuel st s = some s' := by
  induction h generalizing s with
  | @text t ht =>
    by_cases hne : t = []
    · rw [hne]
      exact ⟨{ s with l := 0 }, (List.append_nil _).symm, fun fuel hfuel => xeger_nil hfuel s⟩
    · obtain ⟨s', hout, hround⟩ := xeger_text (s := s) ht hne
      refine ⟨{ s' with l := 0 }, hout, fun fuel hfuel => ?_⟩
      have hpos := List.length_pos_of_ne_nil hne
      obtain ⟨fuel, rfl⟩ := Nat.exists_eq_succ_of_ne_zero (Nat.ne_zero_of_lt hfuel)
      rw [hround, xeger_nil (by omega)]
  | @closed t body rest last alternatives groups ht hbody hpieces hrest ih =>
    obtain ⟨s₁, hout₁, hrands₁, hround⟩ := xeger_closed (s := s) ht hbody hpieces rest
    obtain ⟨s', hout, hrun⟩ := ih s₁
    refine ⟨s', ?_, fun fuel hfuel => ?_⟩
    · rw [hout, hout₁, hrands₁, picks, fill]
      simp only [List.append_assoc]
    · obtain ⟨fuel, rfl⟩ := Nat.exists_eq_succ_of_ne_zero (Nat.ne_zero_of_lt hfuel)
      simp only [List.length_append, List.length_cons] at hfuel
      rw [hround, hrun fuel (by omega)]
  | @unclosed t body alternatives ht hbody hpieces =>
    obtain ⟨s', hout, -, hround⟩ := xeger_unclosed (s := s) ht hbody hpieces
    refine ⟨{ s' with l := 0 }, ?_, fun fuel hfuel => ?_⟩
    · have hfill : fill [⟨t, alternatives, hpieces.nonempty⟩]
          (picks [⟨t, alternatives, hpieces.nonempty⟩] s.rands) []
          = t ++ pick s.rands.head alternatives ++ [] := rfl
      rw [hfill, List.append_nil, ← List.append_assoc]
      exact hout
    · obtain ⟨fuel, rfl⟩ := Nat.exists_eq_succ_of_ne_zero (Nat.ne_zero_of_lt hfuel)
      simp only [List.length_append, List.length_cons] at hfuel
      rw [hround, xeger_nil (by omega)]

/-- **`xeger` implements its patterns**: whatever `rand` returns, it prints the line with one alternative
of each group in its place; and any of these lines, if the numbers are the right ones. -/
theorem xeger_expands (line : Bytes) (s : Awk) : ∃ groups last,
    Reads 123 125 124 line groups last
      ∧ (∀ groups' last', Reads 123 125 124 line groups' last' → groups' = groups ∧ last' = last)
      ∧ (∀ rands, ∃ choices s', Chosen groups choices ∧ s'.out = s.out ++ fill groups choices last
        ∧ ∀ fuel, line.length < fuel → rule fuel rands line s = some s')
      ∧ ∀ choices, Chosen groups choices → ∃ rands s', s'.out = s.out ++ fill groups choices last
        ∧ ∀ fuel, line.length < fuel → rule fuel rands line s = some s' := by
  obtain ⟨groups, last, hreads⟩ := Lib.reads_exists 123 125 124 line
  refine ⟨groups, last, hreads, fun groups' last' h => h.unique hreads, fun rands => ?_,
    fun choices hchosen => ?_⟩
  · obtain ⟨s', hout, hrun⟩ := xeger_run hreads { s with rands := rands }
    exact ⟨_, s', picks_chosen groups rands, hout, hrun⟩
  · obtain ⟨rands, rfl⟩ := exists_picks hchosen
    obtain ⟨s', hout, hrun⟩ := xeger_run hreads { s with rands := rands }
    exact ⟨rands, s', hout, hrun⟩

end Holchain.Rc.Bashrc
