import Holchain.Holper.ParamSpec

/-!
# Laws.Text — which texts are numbers

A numeral is optional white space, an optional sign and digits. `%d` takes exactly the numerals
(`scanInt_iff`), but cut to 32 bits, and it sees a string up to its first NUL; so `to<int>` accepts
the numerals of type `int` where there is no NUL and no numeral is too large (`to_int_iff`). What `%d`
writes it reads back (`scanInt_decimal`).
-/

namespace Holchain.Holper

/-! ## `int` -/

theorem toInt32_eq {n : ℤ} (hlo : -2 ^ 31 ≤ n) (hhi : n < 2 ^ 31) : toInt32 n = n := by
  unfold toInt32
  exact Int.bmod_eq_of_le (by omega) (by omega)

theorem toInt32_bounds (n : ℤ) : -2 ^ 31 ≤ toInt32 n ∧ toInt32 n < 2 ^ 31 :=
  ⟨Int.le_bmod (by decide), Int.bmod_lt (by decide)⟩

theorem toInt32_emod (n : ℤ) : toInt32 n % 2 ^ 32 = n % 2 ^ 32 := Int.bmod_emod

theorem scanInt_bounds {s rest : Bytes} {n : ℤ} (h : scanInt s = some (n, rest)) :
    -2 ^ 31 ≤ n ∧ n < 2 ^ 31 := by
  obtain ⟨-, hn⟩ := Option.ite_none_left_eq_some.mp h
  rw [← (Prod.mk.inj (Option.some.inj hn)).1]
  exact toInt32_bounds _

/-- A parameter of type `int` is one. -/
theorem get_bounds {P : Platform} {supplied : Parameters} {name : Bytes} {v : ℤ}
    (h : (supplied.get P .int name).1 = some v) : -2 ^ 31 ≤ v ∧ v < 2 ^ 31 := by
  unfold Parameters.get at h
  split at h
  · cases h
  · dsimp only [St.to] at h
    split at h
    · next n hscan =>
      cases h
      exact scanInt_bounds hscan
    · cases h

/-! ## Numerals -/

/-- Some decimal digits. -/
structure Digits (ds : Bytes) : Prop where
  nonempty : ds ≠ []
  digits : ∀ d ∈ ds, isDigit d = true

/-- Digits with an optional sign, and the number that they denote. -/
inductive Signed : Bytes → ℤ → Prop
  | plain {ds : Bytes} : Digits ds → Signed ds (digitsValue ds)
  | plus {ds : Bytes} : Digits ds → Signed (43 :: ds) (digitsValue ds)
  | minus {ds : Bytes} : Digits ds → Signed (45 :: ds) (-digitsValue ds)

/-- White space and then digits with an optional sign. -/
def Numeral (s : Bytes) (n : ℤ) : Prop :=
  ∃ spaces body, s = spaces ++ body ∧ (∀ c ∈ spaces, isSpace c = true) ∧ Signed body n

variable {s body ds rest : Bytes} {n m v : ℤ} {c : UInt8}

/-- A digit is no white space, no sign and no NUL. -/
theorem isDigit_other (h : isDigit c = true) : isSpace c = false ∧ c ≠ 43 ∧ c ≠ 45 ∧ c ≠ 0 := by
  have heq (k : UInt8) : c = k ↔ c.toNat = k.toNat := UInt8.toNat_inj.symm
  simp only [isDigit, isSpace, Bool.and_eq_true, decide_eq_true_eq, Bool.or_eq_false_iff,
    beq_eq_false_iff_ne, Bool.and_eq_false_iff, decide_eq_false_iff_not, ne_eq,
    UInt8.le_iff_toNat_le] at h ⊢
  rw [heq, heq, heq, heq]
  simp only [UInt8.reduceToNat] at h ⊢
  omega

theorem isSpace_ne_zero (h : isSpace c = true) : c ≠ 0 := by
  intro hzero
  rw [hzero] at h
  exact absurd h (by decide)

theorem Digits.head (h : Digits ds) : ∃ d rest, ds = d :: rest ∧ isDigit d = true := by
  obtain ⟨d, rest, rfl⟩ := List.exists_cons_of_ne_nil h.nonempty
  exact ⟨d, rest, rfl, h.digits d List.mem_cons_self⟩

/-- A numeral does not begin with white space behind its own. -/
theorem Signed.head (h : Signed body n) : ∃ c rest, body = c :: rest ∧ isSpace c = false := by
  cases h with
  | plain hds =>
    obtain ⟨d, rest, rfl, hd⟩ := hds.head
    exact ⟨d, rest, rfl, (isDigit_other hd).1⟩
  | plus _ => exact ⟨43, _, rfl, by decide⟩
  | minus _ => exact ⟨45, _, rfl, by decide⟩

/-- What is left without white space. -/
theorem dropWhile_spaces {spaces : Bytes} (hspaces : ∀ c ∈ spaces, isSpace c = true)
    (h : Signed body n) : (spaces ++ body).dropWhile isSpace = body := by
  obtain ⟨c, rest, rfl, hc⟩ := h.head
  rw [List.dropWhile_append_of_pos hspaces, List.dropWhile_cons_of_neg]
  rw [hc]
  exact Bool.false_ne_true

theorem Numeral.signed (h : Numeral s n) : Signed (s.dropWhile isSpace) n := by
  obtain ⟨spaces, body, rfl, hspaces, hsigned⟩ := h
  rwa [dropWhile_spaces hspaces hsigned]

theorem numeral_iff : Numeral s n ↔ Signed (s.dropWhile isSpace) n := by
  refine ⟨Numeral.signed, fun h => ⟨s.takeWhile isSpace, s.dropWhile isSpace, ?_, ?_, h⟩⟩
  · exact (List.takeWhile_append_dropWhile).symm
  · exact fun c hc => List.mem_takeWhile_imp hc

/-- **A numeral denotes one number.** -/
theorem Signed.unique (h : Signed body n) (h' : Signed body m) : n = m := by
  cases h with
  | plain hds =>
    obtain ⟨d, rest, rfl, hd⟩ := hds.head
    obtain ⟨-, hplus, hminus, -⟩ := isDigit_other hd
    cases h' with
    | plain _ => rfl
    | plus _ => exact absurd rfl hplus
    | minus _ => exact absurd rfl hminus
  | plus hds =>
    cases h' with
    | plain hds' => exact absurd rfl (isDigit_other (hds'.digits 43 List.mem_cons_self)).2.1
    | plus _ => rfl
  | minus hds =>
    cases h' with
    | plain hds' => exact absurd rfl (isDigit_other (hds'.digits 45 List.mem_cons_self)).2.2.1
    | minus _ => rfl

theorem Numeral.unique (h : Numeral s n) (h' : Numeral s m) : n = m := h.signed.unique h'.signed

/-- A numeral has no NUL. -/
theorem Numeral.notMem_zero (h : Numeral s n) : 0 ∉ s := by
  obtain ⟨spaces, body, rfl, hspaces, hsigned⟩ := h
  intro hzero
  rcases List.mem_append.mp hzero with hzero | hzero
  · exact isSpace_ne_zero (hspaces 0 hzero) rfl
  · have hdigits {ds : Bytes} (hds : Digits ds) (hin : (0 : UInt8) ∈ ds) : False :=
      (isDigit_other (hds.digits 0 hin)).2.2.2 rfl
    cases hsigned with
    | plain hds => exact hdigits hds hzero
    | plus hds =>
      rcases List.mem_cons.mp hzero with heq | hin
      · exact absurd heq (by decide)
      · exact hdigits hds hin
    | minus hds =>
      rcases List.mem_cons.mp hzero with heq | hin
      · exact absurd heq (by decide)
      · exact hdigits hds hin

/-! ## `%d` -/

/-- The digits of `%d` and what stands behind them. -/
def scanDigits (negative : Bool) (s : Bytes) : Option (ℤ × Bytes) :=
  let digits := s.takeWhile isDigit
  if digits.isEmpty then none
  else
    let n : ℤ := digitsValue digits
    some (toInt32 (saturate (if negative then -n else n)), s.dropWhile isDigit)

theorem scanInt_minus (h : s.dropWhile isSpace = 45 :: rest) : scanInt s = scanDigits true rest := by
  unfold scanInt
  rw [h]
  rfl

theorem scanInt_plus (h : s.dropWhile isSpace = 43 :: rest) : scanInt s = scanDigits false rest := by
  unfold scanInt
  rw [h]
  rfl

theorem scanInt_plain (hminus : ∀ rest, s.dropWhile isSpace ≠ 45 :: rest)
    (hplus : ∀ rest, s.dropWhile isSpace ≠ 43 :: rest) :
    scanInt s = scanDigits false (s.dropWhile isSpace) := by
  unfold scanInt
  dsimp only
  generalize s.dropWhile isSpace = t at hminus hplus ⊢
  split
  · exact absurd rfl (hminus _)
  · exact absurd rfl (hplus _)
  · rfl

/-- Nothing is left behind the digits where all are digits. -/
theorem scanDigits_eq_some {negative : Bool} : scanDigits negative s = some (v, []) ↔
    Digits s ∧ v = toInt32 (saturate (if negative then -(digitsValue s : ℤ) else digitsValue s)) := by
  have hsplit := List.takeWhile_append_dropWhile (p := isDigit) (l := s)
  unfold scanDigits
  dsimp only
  constructor
  · intro h
    split at h
    · cases h
    · next hsome =>
      obtain ⟨hv, hrest⟩ := Prod.mk.inj (Option.some.inj h)
      rw [hrest, List.append_nil] at hsplit
      rw [hsplit] at hv hsome
      refine ⟨⟨fun hnil => hsome (List.isEmpty_iff.mpr hnil), fun d hd => ?_⟩, hv.symm⟩
      rw [← hsplit] at hd
      exact List.mem_takeWhile_imp hd
  · intro ⟨⟨hne, hdigits⟩, hv⟩
    have hall : s.takeWhile isDigit = s := List.takeWhile_eq_self_iff.mpr hdigits
    have hnone : s.dropWhile isDigit = [] := List.dropWhile_eq_nil_iff.mpr hdigits
    rw [hall, hnone, hv, if_neg fun hempty => hne (List.isEmpty_iff.mp hempty)]

/-- **`%d` takes the numerals**, cut to `int`. -/
theorem scanInt_iff : scanInt s = some (v, []) ↔ ∃ n, Numeral s n ∧ v = toInt32 (saturate n) := by
  simp only [numeral_iff]
  constructor
  · intro h
    by_cases hminus : ∃ rest, s.dropWhile isSpace = 45 :: rest
    · obtain ⟨rest, hrest⟩ := hminus
      rw [scanInt_minus hrest] at h
      obtain ⟨hdigits, hv⟩ := scanDigits_eq_some.mp h
      exact ⟨_, hrest ▸ .minus hdigits, hv⟩
    · by_cases hplus : ∃ rest, s.dropWhile isSpace = 43 :: rest
      · obtain ⟨rest, hrest⟩ := hplus
        rw [scanInt_plus hrest] at h
        obtain ⟨hdigits, hv⟩ := scanDigits_eq_some.mp h
        exact ⟨_, hrest ▸ .plus hdigits, hv⟩
      · rw [scanInt_plain (fun rest hrest => hminus ⟨rest, hrest⟩)
          (fun rest hrest => hplus ⟨rest, hrest⟩)] at h
        obtain ⟨hdigits, hv⟩ := scanDigits_eq_some.mp h
        exact ⟨_, .plain hdigits, hv⟩
  · intro ⟨n, hsigned, hv⟩
    generalize hbody : s.dropWhile isSpace = body at hsigned
    cases hsigned with
    | plain hds =>
      obtain ⟨d, rest, rfl, hd⟩ := hds.head
      obtain ⟨-, hplus, hminus, -⟩ := isDigit_other hd
      rw [scanInt_plain, hbody]
      · exact scanDigits_eq_some.mpr ⟨hds, hv⟩
      · intro rest' heq
        exact hminus (List.cons.inj (hbody.symm.trans heq)).1
      · intro rest' heq
        exact hplus (List.cons.inj (hbody.symm.trans heq)).1
    | plus hds =>
      rw [scanInt_plus hbody]
      exact scanDigits_eq_some.mpr ⟨hds, hv⟩
    | minus hds =>
      rw [scanInt_minus hbody]
      exact scanDigits_eq_some.mpr ⟨hds, hv⟩

/-! ## `to<int>` -/

variable {P : Platform}

theorem to_int_eq_some : St.to P .int s = some v ↔ scanInt (cStr s) = some (v, []) := by
  dsimp only [St.to]
  split
  · next n hscan =>
    rw [hscan]
    constructor
    · intro h
      have hv : n = v := Option.some.inj h
      rw [hv]
    · intro h
      exact congrArg some (Prod.mk.inj (Option.some.inj h)).1
  · next hnone =>
    exact ⟨fun h => (nomatch h), fun h => absurd h (hnone v)⟩

/-- The integer is one of type `int`. -/
def IsInt (n : ℤ) : Prop := -2 ^ 31 ≤ n ∧ n < 2 ^ 31

theorem toInt32_saturate (h : IsInt n) : toInt32 (saturate n) = n := by
  obtain ⟨hlow, hhigh⟩ := h
  have hsaturate : saturate n = n := by
    unfold saturate
    omega
  rw [hsaturate, toInt32_eq hlow hhigh]

/-- What is asked of `to<int>`: it accepts the numerals of type `int`, as their numbers. -/
def ReadsInt (P : Platform) (s : Bytes) : Prop :=
  ∀ v : ℤ, St.to P .int s = some v ↔ ∃ n, Numeral s n ∧ IsInt n ∧ v = n

/-- **When `to<int>` reads numbers**: if what stands before the first NUL is a numeral, it is all of
the string, and of type `int`. -/
theorem to_int_iff (P : Platform) (s : Bytes) :
    ReadsInt P s ↔ ∀ n, Numeral (cStr s) n → 0 ∉ s ∧ IsInt n := by
  constructor
  · intro h n hn
    have hread : St.to P .int s = some (toInt32 (saturate n)) :=
      to_int_eq_some.mpr (scanInt_iff.mpr ⟨n, hn, rfl⟩)
    obtain ⟨m, hm, hint, -⟩ := (h _).mp hread
    have hzero := hm.notMem_zero
    rw [cStr_of_notMem hzero] at hn
    exact ⟨hzero, hn.unique hm ▸ hint⟩
  · intro h v
    rw [to_int_eq_some, scanInt_iff]
    constructor
    · intro ⟨n, hn, hv⟩
      obtain ⟨hzero, hint⟩ := h n hn
      rw [cStr_of_notMem hzero] at hn
      exact ⟨n, hn, hint, hv.trans (toInt32_saturate hint)⟩
    · intro ⟨n, hn, hint, hv⟩
      rw [cStr_of_notMem hn.notMem_zero]
      exact ⟨n, hn, hv.trans (toInt32_saturate hint).symm⟩

/-- Nothing behind a NUL is seen, and what is too large is cut. -/
theorem to_int_accepts : St.to Platform.bare .int [53, 0] = some (5 : ℤ)
    ∧ St.to Platform.bare .int (lit "4294967297") = some (1 : ℤ)
    ∧ ¬ ReadsInt Platform.bare [53, 0] ∧ ¬ ReadsInt Platform.bare (lit "4294967297") := by
  have hnul : St.to Platform.bare .int [53, 0] = some (5 : ℤ) := rfl
  have hlarge : St.to Platform.bare .int (lit "4294967297") = some (1 : ℤ) := rfl
  refine ⟨hnul, hlarge, fun h => ?_, fun h => ?_⟩
  · obtain ⟨n, hn, -⟩ := (h 5).mp hnul
    exact hn.notMem_zero (by decide)
  · obtain ⟨n, hn, hint, -⟩ := (h 1).mp hlarge
    have hdigits : (lit "4294967297").all isDigit = true := rfl
    have hvalue : Numeral (lit "4294967297") 4294967297 :=
      ⟨[], lit "4294967297", rfl, fun c hc => (nomatch hc),
        .plain ⟨List.cons_ne_nil _ _, List.all_eq_true.mp hdigits⟩⟩
    rw [hn.unique hvalue] at hint
    exact absurd hint.2 (by decide)

/-! ## Numbers that are written -/

/-- A digit as it is written. -/
theorem digit_val {c : Char} (h : c.isDigit = true) :
    isDigit c.val.toUInt8 = true ∧ c.val.toUInt8.toNat = c.toNat := by
  have hbounds : 48 ≤ c.toNat ∧ c.toNat ≤ 57 := by
    simpa [Char.isDigit, UInt32.le_iff_toNat_le] using h
  have hval : c.val.toUInt8.toNat = c.toNat := by
    show c.val.toNat % 256 = c.toNat
    exact Nat.mod_eq_of_lt (by have := hbounds.2; show c.toNat < 256; omega)
  refine ⟨?_, hval⟩
  simp only [isDigit, Bool.and_eq_true, decide_eq_true_eq, UInt8.le_iff_toNat_le, hval]
  exact hbounds

/-- The digits of a number. -/
theorem digits_lit (n : ℕ) : Digits (lit n.repr) ∧ digitsValue (lit n.repr) = n := by
  have hdigit : ∀ c ∈ Nat.toDigits 10 n, c.isDigit = true := fun c hc =>
    Nat.isDigit_of_mem_toDigits (by decide) (by decide) hc
  rw [lit, Nat.toList_repr]
  refine ⟨⟨fun hnil => Nat.toDigits_ne_nil (List.map_eq_nil_iff.mp hnil), ?_⟩, ?_⟩
  · intro d hd
    obtain ⟨c, hc, rfl⟩ := List.mem_map.mp hd
    exact (digit_val (hdigit c hc)).1
  · have hfold (digits : List Char) (hdigits : ∀ c ∈ digits, c.isDigit = true) (m : ℕ) :
        (digits.map fun c => c.val.toUInt8).foldl (fun n d => 10 * n + (d.toNat - 48)) m
          = Nat.ofDigitChars 10 digits m := by
      induction digits generalizing m with
      | nil => rfl
      | cons c digits ih =>
        rw [List.map_cons, List.foldl_cons, (digit_val (hdigits c List.mem_cons_self)).2]
        exact ih (fun c' hc' => hdigits c' (List.mem_cons_of_mem c hc')) _
    exact (hfold _ hdigit 0).trans Nat.ofDigitChars_ten_toDigits

/-- Digits in front of something else. -/
theorem scanDigits_append {ds : Bytes} (h : Digits ds) (hrest : rest.head?.all (!isDigit ·) = true)
    (negative : Bool) : scanDigits negative (ds ++ rest) =
      some (toInt32 (saturate (if negative then -(digitsValue ds : ℤ) else digitsValue ds)), rest) := by
  have hstop : rest.takeWhile isDigit = [] ∧ rest.dropWhile isDigit = rest := by
    cases rest with
    | nil => exact ⟨rfl, rfl⟩
    | cons c rest =>
      have hc : isDigit c = false := by simpa using hrest
      exact ⟨List.takeWhile_cons_of_neg (by simp [hc]), List.dropWhile_cons_of_neg (by simp [hc])⟩
  have htake : (ds ++ rest).takeWhile isDigit = ds := by
    rw [List.takeWhile_append_of_pos h.2, hstop.1, List.append_nil]
  have hdrop : (ds ++ rest).dropWhile isDigit = rest := by
    rw [List.dropWhile_append_of_pos h.2, hstop.2]
  unfold scanDigits
  rw [htake, hdrop, if_neg fun hempty => h.1 (List.isEmpty_iff.mp hempty)]

/-- **What is written is read back**, in front of something that is no digit. -/
theorem scanInt_decimal (h : IsInt n) (hrest : rest.head?.all (!isDigit ·) = true) :
    scanInt (decimal n ++ rest) = some (n, rest) := by
  cases n with
  | ofNat m =>
    obtain ⟨hdigits, hvalue⟩ := digits_lit m
    obtain ⟨d, ds, hds, hd⟩ := hdigits.head
    obtain ⟨hspace, hplus, hminus, -⟩ := isDigit_other hd
    have htext : decimal (Int.ofNat m) = lit m.repr := rfl
    have hdrop : (lit m.repr ++ rest).dropWhile isSpace = lit m.repr ++ rest := by
      rw [hds, List.cons_append, List.dropWhile_cons_of_neg (by simp [hspace])]
    rw [htext, scanInt_plain, hdrop, scanDigits_append hdigits hrest, hvalue]
    · exact congrArg (fun v => some (v, rest)) (toInt32_saturate h)
    · intro rest' heq
      rw [hdrop, hds] at heq
      exact hminus (List.cons.inj heq).1
    · intro rest' heq
      rw [hdrop, hds] at heq
      exact hplus (List.cons.inj heq).1
  | negSucc m =>
    obtain ⟨hdigits, hvalue⟩ := digits_lit (m + 1)
    have htext : decimal (Int.negSucc m) = 45 :: lit (m + 1).repr := by
      show lit ("-" ++ (m + 1).repr) = _
      rw [lit, String.toList_append, List.map_append]
      rfl
    rw [htext, List.cons_append, scanInt_minus rfl, scanDigits_append hdigits hrest, hvalue]
    exact congrArg (fun v => some (v, rest)) (toInt32_saturate h)

end Holchain.Holper
