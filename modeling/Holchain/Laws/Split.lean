import Holchain.Lib.Pieces
import Holchain.Holper.Split

/-!
# Laws.Split — the pieces that `split` converts

`split` converts the pieces of the string, the last one only up to its first NUL
(`splitFrom_toOption`). Numbers are read so far anyway; a string loses what stands behind the NUL, and
`std::nullptr_t` takes a last piece that begins with one for an empty one (`split_exact_iff`).
-/

namespace Holchain.Holper

open Lib (Pieces tail front cut_induction)

variable {P : Platform} {t : ParamType} {s str piece : Bytes} {d : UInt8} {pieces : List Bytes}

/-! ## The loop -/

theorem find_whole {left : Nat} (h : d ∉ str.drop left) : find str d left = none := by
  unfold find
  rw [List.idxOf?_eq_none_iff.mpr h, Option.map_none]

theorem find_cut {left : Nat} {rest : Bytes} (hstr : str.drop left = piece ++ d :: rest)
    (h : d ∉ piece) : find str d left = some (left + piece.length) := by
  unfold find
  rw [hstr, Lib.idxOf?_cut h, Option.map_some]

/-- The piece that is cut, and what is behind it. -/
theorem cut_positions {left : Nat} {rest : Bytes} (hstr : str.drop left = piece ++ d :: rest) :
    (str.drop left).take (left + piece.length - left) = piece
      ∧ str.drop (left + piece.length + 1) = rest := by
  constructor
  · rw [hstr, Nat.add_sub_cancel_left, List.take_left]
  · rw [Nat.add_assoc, ← List.drop_drop, hstr, ← List.drop_drop, List.drop_left, List.drop_one,
      List.tail_cons]

/-- What `split` converts: the pieces, the last one as a C string. -/
def seen (d : UInt8) (s : Bytes) : List Bytes := (s.splitOn d).dropLast ++ [cStr (tail d s)]

theorem seen_whole (h : d ∉ s) : seen d s = [cStr s] := by
  unfold seen
  rw [Lib.splitOn_whole h, Lib.tail_whole h, List.dropLast_singleton, List.nil_append]

theorem seen_cut (h : d ∉ piece) (s : Bytes) : seen d (piece ++ d :: s) = piece :: seen d s := by
  unfold seen
  rw [Lib.splitOn_cut h, Lib.tail_cut, List.dropLast_cons_of_ne_nil (List.splitOn_ne_nil d s),
    List.cons_append]

/-- The loop returns the values of what it sees, or throws. -/
theorem splitFrom_toOption (left : Nat) (vec : List (t.Value P)) :
    (St.splitFrom P t str d left vec).toOption =
      ((seen d (str.drop left)).mapM (St.to P t)).map (vec ++ ·) := by
  generalize hs : str.drop left = s
  induction s using cut_induction d generalizing left vec with
  | whole s h =>
    rw [seen_whole h]
    unfold St.splitFrom
    split
    · rw [hs]
      dsimp only
      cases hto : St.to P t (cStr s) with
      | none => rw [List.mapM_cons, hto]; rfl
      | some v => rw [List.mapM_cons, hto]; rfl
    · next hfind =>
      rw [find_whole (hs ▸ h)] at hfind
      cases hfind
  | cut piece rest h ih =>
    rw [seen_cut h]
    unfold St.splitFrom
    split
    · next hfind =>
      rw [find_cut hs h] at hfind
      cases hfind
    · next right hfind =>
      rw [find_cut hs h] at hfind
      cases hfind
      obtain ⟨hpiece, hrest⟩ := cut_positions hs
      rw [hpiece, List.mapM_cons]
      dsimp only
      cases hto : St.to P t piece with
      | none => rfl
      | some v =>
        dsimp only
        rw [ih _ _ hrest]
        cases (seen d rest).mapM (St.to P t) with
        | none => rfl
        | some values => exact congrArg some (List.append_assoc vec [v] values)

/-! ## The values -/

theorem mapM_eq_none_iff {α β : Type} {f : α → Option β} {xs : List α} :
    xs.mapM f = none ↔ ∃ x ∈ xs, f x = none := by
  induction xs with
  | nil => exact ⟨fun h => (nomatch h), fun ⟨_, hx, _⟩ => (nomatch hx)⟩
  | cons x xs ih =>
    rw [List.mapM_cons, List.exists_mem_cons_iff, ← ih]
    cases hx : f x with
    | none => exact ⟨fun _ => .inl rfl, fun _ => rfl⟩
    | some y =>
      cases xs.mapM f with
      | none => exact ⟨fun _ => .inr rfl, fun _ => rfl⟩
      | some ys => exact ⟨fun h => (nomatch h), fun h => h.elim (nomatch ·) (nomatch ·)⟩

/-- What is asked of `split<T>`: it throws just if `to<T>` refuses a piece, and else returns the
values of the pieces. -/
structure Converts (P : Platform) (t : ParamType) (s : Bytes) (d : UInt8) (pieces : List Bytes) :
    Prop where
  throws : (∃ e, St.split P t s d = .error e) ↔ ∃ p ∈ pieces, St.to P t p = none
  returns : ∀ values, pieces.mapM (St.to P t) = some values → St.split P t s d = .ok values

theorem split_toOption (P : Platform) (t : ParamType) (s : Bytes) (d : UInt8) :
    (St.split P t s d).toOption = (seen d s).mapM (St.to P t) := by
  have h : (St.split P t s d).toOption = _ := splitFrom_toOption 0 []
  rw [h, List.drop_zero]
  simp only [List.nil_append, Option.map_id']

/-- It does as it is asked just if what it sees has the values of the pieces. -/
theorem converts_iff : Converts P t s d pieces ↔
    (seen d s).mapM (St.to P t) = pieces.mapM (St.to P t) := by
  rw [← split_toOption]
  cases hsplit : St.split P t s d with
  | error e =>
    constructor
    · intro h
      exact (mapM_eq_none_iff.mpr (h.throws.mp ⟨e, hsplit⟩)).symm
    · intro h
      have hnone := h.symm
      refine ⟨⟨fun _ => mapM_eq_none_iff.mp hnone, fun _ => ⟨e, hsplit⟩⟩, fun values hsome => ?_⟩
      cases hnone.symm.trans hsome
  | ok vs =>
    constructor
    · intro h
      cases hpieces : pieces.mapM (St.to P t) with
      | none =>
        obtain ⟨e, he⟩ := h.throws.mpr (mapM_eq_none_iff.mp hpieces)
        cases hsplit.symm.trans he
      | some values =>
        cases hsplit.symm.trans (h.returns values hpieces)
        rfl
    · intro h
      have hsome : pieces.mapM (St.to P t) = some vs := h.symm
      refine ⟨⟨fun ⟨e, he⟩ => ?_, fun hnone => ?_⟩, fun values hvalues => ?_⟩
      · cases hsplit.symm.trans he
      · cases hsome.symm.trans (mapM_eq_none_iff.mpr hnone)
      · cases hsome.symm.trans hvalues
        exact hsplit

/-- The last piece alone can make a difference, if no other is refused. -/
theorem seen_mapM_iff : (seen d s).mapM (St.to P t) = (s.splitOn d).mapM (St.to P t) ↔
    (∃ p ∈ (s.splitOn d).dropLast, St.to P t p = none)
      ∨ St.to P t (cStr (tail d s)) = St.to P t (tail d s) := by
  conv_lhs => rw [Lib.splitOn_eq d s]
  unfold seen
  rw [List.mapM_append, List.mapM_append, ← mapM_eq_none_iff]
  simp only [List.mapM_cons, List.mapM_nil]
  cases (s.splitOn d).dropLast.mapM (St.to P t) with
  | none => exact ⟨fun _ => .inl rfl, fun _ => rfl⟩
  | some values =>
    cases St.to P t (cStr (tail d s)) with
    | none => cases St.to P t (tail d s) <;> simp
    | some v => cases St.to P t (tail d s) <;> simp

/-- All is well where an earlier piece is refused, or what is seen of the last one has its value. -/
theorem converts_splitOn_iff : Converts P t s d (s.splitOn d) ↔
    (∃ p ∈ (s.splitOn d).dropLast, St.to P t p = none)
      ∨ St.to P t (cStr (tail d s)) = St.to P t (tail d s) :=
  converts_iff.trans seen_mapM_iff

/-! ## The types -/

theorem zero_notMem_cStr (s : Bytes) : 0 ∉ cStr s := by
  intro h
  have hne : ((0 : UInt8) != 0) = true :=
    List.mem_takeWhile_imp (l := s) (p := fun c : UInt8 => c != 0) h
  exact absurd hne (by decide)

theorem cStr_cStr (s : Bytes) : cStr (cStr s) = cStr s := cStr_of_notMem (zero_notMem_cStr s)

theorem cStr_eq_self_iff : cStr s = s ↔ 0 ∉ s :=
  ⟨fun h => h ▸ zero_notMem_cStr s, cStr_of_notMem⟩

/-- `%d` and `%f` read a C string in any case. -/
theorem to_int_cStr (s : Bytes) : St.to P .int (cStr s) = St.to P .int s := by
  dsimp only [St.to]
  rw [cStr_cStr]

theorem to_float_cStr (s : Bytes) : St.to P .float (cStr s) = St.to P .float s := by
  dsimp only [St.to]
  rw [cStr_cStr]

/-- A text that begins with a NUL is an empty C string. -/
theorem to_none_cStr_iff : St.to P .none (cStr s) = St.to P .none s ↔ s.head? ≠ some 0 := by
  dsimp only [St.to]
  cases s with
  | nil => exact ⟨fun _ h => (nomatch h), fun _ => rfl⟩
  | cons c rest =>
    by_cases hc : c = 0
    · have hempty : cStr (c :: rest) = [] := List.takeWhile_cons_of_neg (by rw [hc]; decide)
      rw [hempty, hc]
      exact ⟨fun h => (nomatch h), fun h => absurd rfl h⟩
    · have hsome : cStr (c :: rest) = c :: cStr rest :=
        List.takeWhile_cons_of_pos (bne_iff_ne.mpr hc)
      rw [hsome]
      exact ⟨fun _ h => hc (Option.some.inj h), fun _ => rfl⟩

theorem to_none_eq_none : St.to P .none s = none ↔ s ≠ [] := by
  dsimp only [St.to]
  cases s with
  | nil => exact ⟨fun h => (nomatch h), fun h => absurd rfl h⟩
  | cons c rest => exact ⟨fun _ h => (nomatch h), fun _ => rfl⟩

/-- Strings are their own values. -/
theorem mapM_string (pieces : List Bytes) : pieces.mapM (St.to P .string) = some pieces := by
  induction pieces with
  | nil => rfl
  | cons piece pieces ih =>
    rw [List.mapM_cons, ih]
    rfl

/-- A string loses what stands behind a NUL in its last piece. -/
theorem split_string_iff : St.split P .string s d = .ok (s.splitOn d) ↔ 0 ∉ tail d s := by
  have hsplit := split_toOption P .string s d
  rw [mapM_string] at hsplit
  have hok : St.split P .string s d = .ok (seen d s) := by
    cases h : St.split P .string s d with
    | error e =>
      rw [h] at hsplit
      cases hsplit
    | ok values =>
      rw [h] at hsplit
      exact congrArg _ (Option.some.inj hsplit)
  rw [hok, ← cStr_eq_self_iff]
  constructor
  · intro h
    have hseen : seen d s = s.splitOn d := Except.ok.inj h
    rw [Lib.splitOn_eq d s] at hseen
    exact List.singleton_inj.mp (List.append_cancel_left hseen)
  · intro h
    unfold seen
    rw [h, ← Lib.splitOn_eq]

/-- **When `split` has the pieces of the string**: cut in strings, no NUL stands behind the last
delimiter; cut in `std::nullptr_t`, no NUL stands there first, or another piece is refused. -/
theorem split_exact_iff (P : Platform) (s : Bytes) (d : UInt8) : ∃ pieces,
    Pieces d s pieces ∧ (∀ other, Pieces d s other → other = pieces)
      ∧ pieces.length = s.count d + 1
      ∧ (St.split P .string s d = .ok pieces ↔ 0 ∉ tail d s)
      ∧ Converts P .int s d pieces ∧ Converts P .float s d pieces
      ∧ (Converts P .none s d pieces ↔
        ((tail d s).head? = some 0 → ∃ c ∈ front d s, c ≠ d)) := by
  have hpieces := Lib.pieces_splitOn d s
  refine ⟨s.splitOn d, hpieces, fun other h => h.unique hpieces, Lib.length_splitOn d s,
    split_string_iff, ?_, ?_, ?_⟩
  · exact converts_splitOn_iff.mpr (.inr (to_int_cStr _))
  · exact converts_splitOn_iff.mpr (.inr (to_float_cStr _))
  · rw [converts_splitOn_iff, to_none_cStr_iff]
    have hfront : (∃ c ∈ front d s, c ≠ d) ↔
        ∃ p ∈ (s.splitOn d).dropLast, St.to P .none p = none := by
      have hnil := not_congr (Lib.dropLast_splitOn_nil d s)
      push Not at hnil
      rw [← hnil]
      exact exists_congr fun p => and_congr_right fun _ => to_none_eq_none.symm
    rw [hfront, or_comm, imp_iff_not_or]

/-- What stands behind a NUL is lost, and a piece of one NUL passes as an empty one. -/
theorem split_loses : Pieces 44 [97, 0, 98] [[97, 0, 98]]
    ∧ St.split Platform.bare .string [97, 0, 98] 44 = .ok [[97]]
    ∧ Pieces 44 [0] [[0]] ∧ St.to Platform.bare .none [0] = none
    ∧ St.split Platform.bare .none [0] 44 = .ok [()]
    ∧ ¬ Converts Platform.bare .none [0] 44 [[0]] := by
  have hnone : St.split Platform.bare .none [0] 44 = .ok [()] := by
    unfold St.split
    rw [St.splitFrom]
    rfl
  refine ⟨⟨by decide, by decide, rfl⟩, ?_, ⟨by decide, by decide, rfl⟩, rfl, hnone, fun h => ?_⟩
  · unfold St.split
    rw [St.splitFrom]
    rfl
  · obtain ⟨e, he⟩ := h.throws.mpr ⟨[0], List.mem_singleton_self _, rfl⟩
    cases hnone.symm.trans he

end Holchain.Holper
