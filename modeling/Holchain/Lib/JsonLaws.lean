import Holchain.Lib.Firsts
import Holchain.Lib.Json

/-!
# Lib.JsonLaws — what is written is read back

Every scanner is told what it finds in front of a rest that it has to leave alone: strings and
numbers first, then values by induction over their structure. A number is the only token that does
not say itself where it ends; behind one stands what no number goes on with (`Behind`).
-/

namespace Holchain.Lib.Json

/-! ## Strings -/

theorem hexValue_digitChar {d : ℕ} (h : d < 16) : hexValue d.digitChar = some d := by
  have hall : ∀ d < 16, hexValue d.digitChar = some d := by decide
  exact hall d h

theorem hex4_digits {u : ℕ} (h : u < 0x10000) :
    hex4 (u / 4096).digitChar (u / 256 % 16).digitChar (u / 16 % 16).digitChar
      (u % 16).digitChar = some u := by
  have hfirst : u / 4096 < 16 := by omega
  have hlow (n : ℕ) : n % 16 < 16 := Nat.mod_lt n (by decide)
  simp only [hex4, hexValue_digitChar hfirst, hexValue_digitChar (hlow _)]
  show some _ = some u
  congr 1
  omega

/-- A character that stands for itself. -/
theorem scanUnits_plain {c : Char} (hquote : c ≠ '"') (hbackslash : c ≠ '\\')
    (hcontrol : 32 ≤ c.toNat) (rest : List Char) :
    scanUnits (c :: rest) = (scanUnits rest).map fun p => (c.toNat :: p.1, p.2) := by
  have hplain : ¬ (c.toNat < 32 ∨ c = '\\') := by
    rintro (h | h)
    · omega
    · exact hbackslash h
  rw [scanUnits]
  · rw [if_neg hplain]
    cases scanUnits rest with
    | none => rfl
    | some p => rfl
  · exact hquote
  · rintro a b c' d rest' rfl
    exact absurd rfl hbackslash
  · rintro c' rest' rfl
    exact absurd rfl hbackslash

theorem scanUnits_escaped {c : Char} {u : ℕ} (h : unescape c = some u) (hu : c ≠ 'u')
    (rest : List Char) :
    scanUnits ('\\' :: c :: rest) = (scanUnits rest).map fun p => (u :: p.1, p.2) := by
  rw [scanUnits]
  · rw [h]
    cases scanUnits rest with
    | none => rfl
    | some p => rfl
  · rintro a b c' d rest' rfl
    exact absurd rfl hu

theorem toNat_ofNat {u : ℕ} (h : u < 0xD800) : (Char.ofNat u).toNat = u := by
  have hvalid : u.isValidChar := .inl h
  rw [Char.ofNat, dif_pos hvalid]
  rfl

theorem scanUnits_escape {u : ℕ} (h : u < 0x10000) (rest : List Char) :
    scanUnits (escape u ++ rest) = (scanUnits rest).map fun p => (u :: p.1, p.2) := by
  unfold escape
  split_ifs with h34 h92 h10 h13 h9 h12 h8 hplain
  · rw [h34]
    exact scanUnits_escaped rfl (by decide) rest
  · rw [h92]
    exact scanUnits_escaped rfl (by decide) rest
  · rw [h10]
    exact scanUnits_escaped rfl (by decide) rest
  · rw [h13]
    exact scanUnits_escaped rfl (by decide) rest
  · rw [h9]
    exact scanUnits_escaped rfl (by decide) rest
  · rw [h12]
    exact scanUnits_escaped rfl (by decide) rest
  · rw [h8]
    exact scanUnits_escaped rfl (by decide) rest
  · have hnat : (Char.ofNat u).toNat = u := toNat_ofNat (by omega)
    have hne {c : Char} (hc : c.toNat ≠ u) : Char.ofNat u ≠ c := by
      rintro rfl
      exact hc hnat
    rw [List.singleton_append, scanUnits_plain (hne (Ne.symm h34)) (hne (Ne.symm h92)) (by omega), hnat]
  · show scanUnits ('\\' :: 'u' :: _ :: _ :: _ :: _ :: rest) = _
    rw [scanUnits, hex4_digits h]
    cases scanUnits rest with
    | none => rfl
    | some p => rfl

/-- **A string is read back.** -/
theorem scanString_quote (s : Str) (rest : List Char) :
    scanString (s.toUnits.flatMap escape ++ '"' :: rest) = some (s, rest) := by
  have hunits (us : List ℕ) (h : ∀ u ∈ us, u < 0x10000) :
      scanUnits (us.flatMap escape ++ '"' :: rest) = some (us, rest) := by
    induction us with
    | nil => rw [List.flatMap_nil, List.nil_append, scanUnits]
    | cons u us ih =>
      rw [List.flatMap_cons, List.append_assoc, scanUnits_escape (h u List.mem_cons_self),
        ih fun v hv => h v (List.mem_cons_of_mem u hv)]
      rfl
  have hbounded : ∀ u ∈ s.toUnits, u < 0x110000 := fun u hu =>
    (s.toUnits_bounded u hu).trans (by decide)
  rw [scanString, hunits s.toUnits s.toUnits_bounded]
  show (if h : ∀ u ∈ s.toUnits, u < 0x110000 then some (Str.ofUnits s.toUnits h, rest) else none) = _
  rw [dif_pos hbounded, Str.ofUnits_toUnits]

/-! ## Numbers -/

/-- Characters with which a number may go on. -/
def continues (c : Char) : Bool :=
  c.isDigit || c == '.' || c == 'e' || c == 'E' || c == '+' || c == '-'

/-- What may stand behind a number. -/
def Behind (rest : List Char) : Prop := ∀ c ∈ rest.head?, continues c = false

variable {text rest whole tail : List Char} {c : Char}

theorem Behind.nil : Behind [] := fun _ hc => nomatch hc

theorem Behind.cons (h : continues c = false) (rest : List Char) : Behind (c :: rest) := by
  intro d hd
  cases hd
  exact h

theorem Behind.not_digit (h : Behind (c :: rest)) : ¬ c.isDigit = true := by
  intro hdigit
  have hc := h c rfl
  rw [continues, hdigit] at hc
  exact absurd hc (by simp)

theorem Behind.ne (h : Behind (c :: rest)) {d : Char} (hd : continues d = true) : c ≠ d := by
  rintro rfl
  exact absurd ((h c rfl).symm.trans hd) (by decide)

theorem takeWhile_append_behind (h : Behind rest) :
    (text ++ rest).takeWhile Char.isDigit = text.takeWhile Char.isDigit := by
  induction text with
  | nil =>
    cases rest with
    | nil => rfl
    | cons c rest => exact List.takeWhile_cons_of_neg h.not_digit
  | cons c text ih =>
    rw [List.cons_append, List.takeWhile_cons, List.takeWhile_cons, ih]

theorem dropWhile_append_behind (h : Behind rest) :
    (text ++ rest).dropWhile Char.isDigit = text.dropWhile Char.isDigit ++ rest := by
  induction text with
  | nil =>
    cases rest with
    | nil => rfl
    | cons c rest => exact List.dropWhile_cons_of_neg h.not_digit
  | cons c text ih =>
    rw [List.cons_append, List.dropWhile_cons, List.dropWhile_cons, ih]
    split <;> rfl

theorem scanNat_append (h : Behind rest) (htext : scanNat text = some (whole, tail)) :
    scanNat (text ++ rest) = some (whole, tail ++ rest) := by
  unfold scanNat at htext
  split at htext
  next => cases htext
  next rest' =>
    cases htext
    rfl
  next c rest' hzero =>
    split at htext
    next hdigit =>
      cases htext
      rw [List.cons_append, scanNat, if_pos hdigit, takeWhile_append_behind h,
        dropWhile_append_behind h]
      exact hzero
    next => cases htext

theorem scanInt_append (h : Behind rest) (htext : scanInt text = some (whole, tail)) :
    scanInt (text ++ rest) = some (whole, tail ++ rest) := by
  unfold scanInt at htext
  split at htext
  next rest' =>
    obtain ⟨p, hp, heq⟩ := Option.map_eq_some_iff.mp htext
    cases heq
    rw [List.cons_append, scanInt, scanNat_append h hp]
    rfl
  next hminus =>
    have hnat := scanNat_append h htext
    rw [scanInt]
    · exact hnat
    · intro rest' heq
      cases text with
      | nil => cases htext
      | cons c text =>
        cases heq
        exact hminus text rfl

theorem scanDigits_append (h : Behind rest) (before text : List Char) :
    scanDigits before (text ++ rest) =
      ((scanDigits before text).1, (scanDigits before text).2 ++ rest) := by
  simp only [scanDigits, takeWhile_append_behind h, dropWhile_append_behind h]
  split
  · rw [List.append_assoc]
  · rfl

theorem scanFraction_append (h : Behind rest) (text : List Char) :
    scanFraction (text ++ rest) = ((scanFraction text).1, (scanFraction text).2 ++ rest) := by
  cases text with
  | nil =>
    cases rest with
    | nil => rfl
    | cons c rest =>
      have hdot : c ≠ '.' := h.ne rfl
      rw [List.nil_append, scanFraction]
      · rfl
      · rintro rest' heq
        cases heq
        exact hdot rfl
  | cons c text =>
    by_cases hdot : c = '.'
    · subst hdot
      exact scanDigits_append h ['.'] text
    · have hne (rest' : List Char) : scanFraction (c :: rest') = ([], c :: rest') := by
        rw [scanFraction]
        rintro rest'' heq
        cases heq
        exact hdot rfl
      rw [List.cons_append, hne, hne]
      rfl

theorem scanSigned_append (h : Behind rest) (e : Char) (text : List Char) :
    scanSigned e (text ++ rest) = ((scanSigned e text).1, (scanSigned e text).2 ++ rest) := by
  cases text with
  | nil =>
    cases rest with
    | nil => rfl
    | cons c rest =>
      have hsign : ¬ (c = '-' ∨ c = '+') := by
        rintro (heq | heq)
        · exact h.ne rfl heq
        · exact h.ne rfl heq
      have hnone : scanDigits [e] (c :: rest) = ([], e :: c :: rest) := by
        rw [scanDigits, List.takeWhile_cons_of_neg h.not_digit, if_pos rfl]
        rfl
      exact (if_neg hsign).trans hnone
  | cons sign text =>
    rw [List.cons_append, scanSigned, scanSigned]
    split
    · exact scanDigits_append h [e, sign] text
    · exact scanDigits_append h [e] (sign :: text)

theorem scanExponent_append (h : Behind rest) (text : List Char) :
    scanExponent (text ++ rest) = ((scanExponent text).1, (scanExponent text).2 ++ rest) := by
  cases text with
  | nil =>
    cases rest with
    | nil => rfl
    | cons c rest =>
      have hne : ¬ (c = 'e' ∨ c = 'E') := by
        rintro (heq | heq)
        · exact h.ne rfl heq
        · exact h.ne rfl heq
      exact if_neg hne
  | cons e text =>
    rw [List.cons_append, scanExponent, scanExponent]
    split
    · exact scanSigned_append h e text
    · rfl

/-- **A number ends where what stands behind it does not go on with it.** -/
theorem scanNumber_append {fraction : List Char} (h : Behind rest)
    (htext : scanNumber text = some (whole, fraction, tail)) :
    scanNumber (text ++ rest) = some (whole, fraction, tail ++ rest) := by
  obtain ⟨⟨whole', text'⟩, hwhole, hrest⟩ := Option.map_eq_some_iff.mp htext
  cases hrest
  rw [scanNumber, scanInt_append h hwhole]
  simp only [Option.map_some, scanFraction_append h, scanExponent_append h]

/-! ### Whole numbers -/

theorem head_toDigits {n : ℕ} (h : n ≠ 0) : ∃ c digits, Nat.toDigits 10 n = c :: digits ∧ c ≠ '0' := by
  induction n using Nat.strongRecOn with
  | ind n ih =>
    by_cases hlt : n < 10
    · refine ⟨n.digitChar, [], Nat.toDigits_of_lt_base hlt, ?_⟩
      have hall : ∀ d < 10, d ≠ 0 → d.digitChar ≠ '0' := by decide
      exact hall n hlt h
    · obtain ⟨c, digits, heq, hc⟩ := ih (n / 10) (by omega) (by omega)
      refine ⟨c, digits ++ [(n % 10).digitChar], ?_, hc⟩
      rw [Nat.toDigits_of_base_le (by decide) (by omega), heq, List.cons_append]

theorem scanNat_toDigits (n : ℕ) : scanNat (Nat.toDigits 10 n) = some (Nat.toDigits 10 n, []) := by
  have hdigits : ∀ c ∈ Nat.toDigits 10 n, c.isDigit = true := fun c hc =>
    Nat.isDigit_of_mem_toDigits (by decide) (by decide) hc
  by_cases hzero : n = 0
  · rw [hzero]
    rfl
  · obtain ⟨c, digits, heq, hc⟩ := head_toDigits hzero
    rw [heq] at hdigits ⊢
    have hrest : ∀ d ∈ digits, d.isDigit = true := fun d hd => hdigits d (List.mem_cons_of_mem c hd)
    rw [scanNat]
    · rw [if_pos (hdigits c List.mem_cons_self), List.takeWhile_eq_self_iff.mpr hrest,
        List.dropWhile_eq_nil_iff.mpr hrest]
    · exact hc

theorem scanNumber_intText (n : ℤ) : scanNumber (intText n) = some (intText n, [], []) := by
  have hint : scanInt (intText n) = some (intText n, []) := by
    cases n with
    | ofNat n =>
      rw [intText, scanInt, scanNat_toDigits]
      intro rest heq
      have hminus : '-' ∈ Nat.toDigits 10 n := by
        rw [heq]
        exact List.mem_cons_self
      exact absurd (Nat.isDigit_of_mem_toDigits (by decide) (by decide) hminus) (by decide)
    | negSucc n =>
      rw [intText, scanInt, scanNat_toDigits]
      rfl
  rw [scanNumber, hint]
  rfl

theorem ofDigits_intText (n : ℤ) : ofDigits (intText n) = n := by
  cases n with
  | ofNat n =>
    rw [intText, ofDigits, Nat.ofDigitChars_ten_toDigits]
    · rfl
    · intro rest heq
      have hminus : '-' ∈ Nat.toDigits 10 n := by
        rw [heq]
        exact List.mem_cons_self
      exact absurd (Nat.isDigit_of_mem_toDigits (by decide) (by decide) hminus) (by decide)
  | negSucc n =>
    rw [intText, ofDigits, Nat.ofDigitChars_ten_toDigits]
    rfl

/-! ### Floats -/

/-- **What is assumed of floats**: one is printed as a number with a fraction or an exponent, or as
the word for it, and is read back. -/
structure Lawful {F : Type} (floats : Floats F) : Prop where
  read (x : F) :
    (∃ whole tail, scanNumber (floats.text x) = some (whole, tail, []) ∧ tail ≠ []
      ∧ floats.ofNumber (whole ++ tail) = x)
    ∨ (floats.text x = word "NaN" ∧ x = floats.nan)
    ∨ (floats.text x = word "Infinity" ∧ x = floats.infinity)
    ∨ floats.text x = word "-Infinity" ∧ x = floats.minusInfinity

/-- Floats for texts that have none. -/
def noFloats : Floats Unit where
  text _ := word "NaN"
  ofNumber _ := ()
  nan := ()
  infinity := ()
  minusInfinity := ()
  isZero _ := false

theorem noFloats_lawful : Lawful noFloats where
  read _ := .inr (.inl ⟨rfl, rfl⟩)

section Values

variable {F : Type} {floats : Floats F}

theorem scanFloat_int (floats : Floats F) (h : Behind rest) (n : ℤ) :
    scanFloat floats (intText n ++ rest) = some (.int n, rest) := by
  rw [scanFloat, scanNumber_append h (scanNumber_intText n)]
  show some (Json.int (ofDigits (intText n)), _) = _
  rw [ofDigits_intText, List.nil_append]

theorem scanFloat_text (hfloats : Lawful floats) (h : Behind rest) (x : F) :
    scanFloat floats (floats.text x ++ rest) = some (.float x, rest) := by
  rcases hfloats.read x with ⟨whole, tail, htext, hne, hx⟩ | ⟨htext, hx⟩ | ⟨htext, hx⟩ | ⟨htext, hx⟩
  · rw [scanFloat, scanNumber_append h htext, List.nil_append]
    cases tail with
    | nil => exact absurd rfl hne
    | cons c tail =>
      rw [← hx]
  · rw [htext, hx]
    rfl
  · rw [htext, hx]
    rfl
  · rw [htext, hx]
    rfl

/-- How a number or the word of a float starts. -/
def isNumberStart (c : Char) : Bool := c.isDigit || c == '-' || c == 'N' || c == 'I'

theorem scanNat_start {p : List Char × List Char} (h : scanNat text = some p) :
    ∃ c rest, text = c :: rest ∧ c.isDigit = true := by
  unfold scanNat at h
  split at h
  next => cases h
  next rest => exact ⟨'0', rest, rfl, rfl⟩
  next c rest _ =>
    split at h
    next hdigit => exact ⟨c, rest, rfl, hdigit⟩
    next => cases h

theorem scanNumber_start {p : List Char × List Char × List Char} (h : scanNumber text = some p) :
    ∃ c rest, text = c :: rest ∧ isNumberStart c = true := by
  obtain ⟨q, hq, -⟩ := Option.map_eq_some_iff.mp h
  unfold scanInt at hq
  split at hq
  next rest => exact ⟨'-', rest, rfl, rfl⟩
  next =>
    obtain ⟨c, rest, htext, hc⟩ := scanNat_start hq
    refine ⟨c, rest, htext, ?_⟩
    rw [isNumberStart, hc]
    rfl

theorem text_start (hfloats : Lawful floats) (x : F) :
    ∃ c rest, floats.text x = c :: rest ∧ isNumberStart c = true := by
  rcases hfloats.read x with ⟨_, _, htext, -⟩ | ⟨htext, -⟩ | ⟨htext, -⟩ | ⟨htext, -⟩
  · exact scanNumber_start htext
  · exact ⟨'N', ['a', 'N'], htext, rfl⟩
  · exact ⟨'I', ['n', 'f', 'i', 'n', 'i', 't', 'y'], htext, rfl⟩
  · exact ⟨'-', ['I', 'n', 'f', 'i', 'n', 'i', 't', 'y'], htext, rfl⟩

/-- What starts like a number is scanned as one. -/
theorem scan_number (h : isNumberStart c = true) (fuel : ℕ) (text : List Char) :
    scan floats (fuel + 1) (c :: text) = scanFloat floats (c :: text) := by
  have hne {d : Char} (hd : isNumberStart d = false) (heq : c = d) : False := by
    rw [heq, hd] at h
    exact absurd h (by decide)
  rw [scan]
  all_goals
    intro rest heq
    injection heq with hc _
    exact hne rfl hc

/-! ## White space -/

/-- A gap between tokens. -/
def Gap (gap : List Char) : Prop := ∀ c ∈ gap, isWhitespace c = true

variable {gap : List Char} {indent : Option ℕ} {level : ℕ}

theorem skip_gap (h : Gap gap) (hrest : ∀ c ∈ rest.head?, isWhitespace c = false) :
    skip (gap ++ rest) = rest := by
  unfold skip
  rw [List.dropWhile_append_of_pos h]
  cases rest with
  | nil => rfl
  | cons c rest =>
    apply List.dropWhile_cons_of_neg
    rw [hrest c rfl]
    decide

theorem Gap.nil : Gap [] := fun _ hc => nomatch hc

theorem skip_cons (h : isWhitespace c = false) (rest : List Char) :
    skip (c :: rest) = c :: rest :=
  skip_gap .nil fun d hd => by
    cases hd
    exact h

theorem Gap.behind (h : Gap gap) (hrest : Behind rest) : Behind (gap ++ rest) := by
  cases gap with
  | nil => exact hrest
  | cons c gap =>
    apply Behind.cons
    have hspace := h c List.mem_cons_self
    simp only [isWhitespace, Bool.or_eq_true, beq_iff_eq] at hspace
    rcases hspace with ((rfl | rfl) | rfl) | rfl
    · decide
    · decide
    · decide
    · decide

theorem gap_newline : Gap (newline indent level) := by
  cases indent with
  | none => exact fun _ hc => nomatch hc
  | some n =>
    intro c hc
    rcases List.mem_cons.mp hc with rfl | hc
    · rfl
    · rw [List.eq_of_mem_replicate hc]
      rfl

/-- The gap behind a comma. -/
theorem comma_eq (indent : Option ℕ) (level : ℕ) : ∃ gap, comma indent level = ',' :: gap ∧ Gap gap := by
  unfold comma
  split
  · refine ⟨[' '], rfl, ?_⟩
    intro c hc
    rw [List.mem_singleton.mp hc]
    rfl
  · exact ⟨_, rfl, gap_newline⟩

/-! ## Values -/

mutual

/-- No object has two members of one name, as a `dict` does not. -/
def Keyed : Json F → Prop
  | .arr items => KeyedItems items
  | .obj members => (members.map (·.1)).Nodup ∧ KeyedMembers members
  | _ => True

def KeyedItems : List (Json F) → Prop
  | [] => True
  | v :: vs => Keyed v ∧ KeyedItems vs

def KeyedMembers : List (Str × Json F) → Prop
  | [] => True
  | (_, v) :: members => Keyed v ∧ KeyedMembers members

end

mutual

/-- The fuel that the text of a value needs. -/
def need : Json F → ℕ
  | .arr items => needItems items + 1
  | .obj members => needMembers members + 1
  | _ => 1

def needItems : List (Json F) → ℕ
  | [] => 0
  | v :: vs => max (need v) (needItems vs) + 1

def needMembers : List (Str × Json F) → ℕ
  | [] => 0
  | (_, v) :: members => max (need v) (needMembers members) + 1

end

theorem insert_new {key : Str} (value : Json F) {members : List (Str × Json F)}
    (h : key ∉ members.map (·.1)) : insert key value members = members ++ [(key, value)] := by
  induction members with
  | nil => rfl
  | cons m members ih =>
    rw [List.map_cons, List.mem_cons] at h
    have hne : m.1 ≠ key := fun heq => h (.inl heq.symm)
    rw [insert, if_neg hne, ih fun hmem => h (.inr hmem)]
    rfl

/-- Members with different names are the object. -/
theorem dict_eq {members : List (Str × Json F)} (h : (members.map (·.1)).Nodup) :
    dict members = members := by
  suffices hall : ∀ before, ((before ++ members).map (·.1)).Nodup →
      members.foldl (fun members m => insert m.1 m.2 members) before = before ++ members from
    hall [] h
  induction members with
  | nil => exact fun before _ => (List.append_nil before).symm
  | cons m members ih =>
    intro before hnodup
    have hnew : m.1 ∉ before.map (·.1) := by
      rw [List.map_append, List.map_cons] at hnodup
      exact fun hmem => (List.nodup_append.mp hnodup).2.2 m.1 hmem m.1 List.mem_cons_self rfl
    have hnext : before ++ m :: members = (before ++ [m]) ++ members := by
      rw [List.append_assoc, List.singleton_append]
    rw [List.foldl_cons, insert_new m.2 hnew, hnext]
    rw [hnext] at hnodup
    exact ih (List.nodup_cons.mp h).2 (before ++ [m]) hnodup

/-- How a value starts: like none of the tokens between values. -/
structure Starts (c : Char) : Prop where
  noSpace : isWhitespace c = false
  noBracket : c ≠ ']'
  noBrace : c ≠ '\x7d'

theorem Starts.of_number (h : isNumberStart c = true) : Starts c := by
  have hne {d : Char} (hd : isNumberStart d = false) : c ≠ d := by
    rintro rfl
    exact absurd (hd.symm.trans h) (by decide)
  refine ⟨?_, hne rfl, hne rfl⟩
  simp only [isWhitespace, Bool.or_eq_false_iff, beq_eq_false_iff_ne]
  exact ⟨⟨⟨hne rfl, hne rfl⟩, hne rfl⟩, hne rfl⟩

theorem intText_start (n : ℤ) : ∃ c rest, intText n = c :: rest ∧ isNumberStart c = true :=
  scanNumber_start (scanNumber_intText n)

theorem write_start (hfloats : Lawful floats) (indent : Option ℕ) (level : ℕ) (v : Json F) :
    ∃ c rest, write floats indent level v = c :: rest ∧ Starts c := by
  cases v with
  | null => exact ⟨'n', _, rfl, by constructor <;> decide⟩
  | bool b =>
    cases b with
    | true => exact ⟨'t', _, rfl, by constructor <;> decide⟩
    | false => exact ⟨'f', _, rfl, by constructor <;> decide⟩
  | int n =>
    obtain ⟨c, rest, heq, hc⟩ := intText_start n
    exact ⟨c, rest, heq, .of_number hc⟩
  | float x =>
    obtain ⟨c, rest, heq, hc⟩ := text_start hfloats x
    exact ⟨c, rest, heq, .of_number hc⟩
  | str s => exact ⟨'"', _, rfl, by constructor <;> decide⟩
  | arr items =>
    rw [write]
    split
    · exact ⟨'[', _, rfl, by constructor <;> decide⟩
    · exact ⟨'[', _, rfl, by constructor <;> decide⟩
  | obj members =>
    rw [write]
    split
    · exact ⟨'\x7b', _, rfl, by constructor <;> decide⟩
    · exact ⟨'\x7b', _, rfl, by constructor <;> decide⟩

/-! ### One token after another -/

variable {fuel : ℕ} {more : List Char} {v : Json F} {vs : List (Json F)} {key : Str}
  {members : List (Str × Json F)}

/-- The first character is no white space. -/
def Solid (text : List Char) : Prop := ∃ c rest, text = c :: rest ∧ Starts c

theorem Solid.head (h : Solid text) : ∀ c ∈ text.head?, isWhitespace c = false := by
  obtain ⟨c, rest, rfl, hc⟩ := h
  intro d hd
  cases hd
  exact hc.noSpace

theorem Solid.append (h : Solid text) (rest : List Char) : Solid (text ++ rest) := by
  obtain ⟨c, text, rfl, hc⟩ := h
  exact ⟨c, text ++ rest, rfl, hc⟩

theorem scanItems_last (hv : scan floats fuel text = some (v, gap ++ ']' :: rest)) (hgap : Gap gap) :
    scanItems floats (fuel + 1) text = some ([v], rest) := by
  have hskip : skip (gap ++ ']' :: rest) = ']' :: rest := skip_gap hgap fun c hc => by
    cases hc
    rfl
  simp only [scanItems, hv, Option.bind_eq_bind, Option.bind_some, hskip]

theorem scanItems_more (hv : scan floats fuel text = some (v, ',' :: (gap ++ more)))
    (hgap : Gap gap) (hsolid : Solid more) (hmore : scanItems floats fuel more = some (vs, rest)) :
    scanItems floats (fuel + 1) text = some (v :: vs, rest) := by
  have hcomma : skip (',' :: (gap ++ more)) = ',' :: (gap ++ more) := skip_cons rfl _
  have hskip : skip (gap ++ more) = more := skip_gap hgap hsolid.head
  simp only [scanItems, hv, Option.bind_eq_bind, Option.bind_some, hcomma, hskip, hmore]

theorem scan_arr (hgap : Gap gap) (hsolid : Solid text)
    (hitems : scanItems floats fuel text = some (vs, rest)) :
    scan floats (fuel + 1) ('[' :: (gap ++ text)) = some (.arr vs, rest) := by
  have hskip : skip (gap ++ text) = text := skip_gap hgap hsolid.head
  obtain ⟨c, more, rfl, hc⟩ := hsolid
  rw [scan, hskip]
  split
  next heq =>
    injection heq with hbracket _
    exact absurd hbracket hc.noBracket
  next => rw [hitems, Option.map_some]

/-- A member begins with a string. -/
theorem member_text (key : Str) (text : List Char) : quote key ++ ':' :: ' ' :: text =
    '"' :: (key.toUnits.flatMap escape ++ '"' :: (':' :: ' ' :: text)) := by
  simp only [quote, List.cons_append, List.append_assoc, List.nil_append]

theorem skip_colon (text : List Char) : skip (':' :: ' ' :: text) = ':' :: ' ' :: text :=
  skip_cons rfl _

theorem skip_space (hsolid : Solid text) : skip (' ' :: text) = text := by
  have hgap : Gap [' '] := by
    intro c hc
    rw [List.mem_singleton.mp hc]
    rfl
  exact skip_gap hgap hsolid.head

theorem scanMembers_last (hsolid : Solid text)
    (hv : scan floats fuel text = some (v, gap ++ '\x7d' :: rest)) (hgap : Gap gap) :
    scanMembers floats (fuel + 1) (quote key ++ ':' :: ' ' :: text) = some ([(key, v)], rest) := by
  have hskip : skip (gap ++ '\x7d' :: rest) = '\x7d' :: rest := skip_gap hgap fun c hc => by
    cases hc
    rfl
  simp only [member_text, scanMembers, scanString_quote, Option.bind_eq_bind, Option.bind_some,
    skip_colon, skip_space hsolid, hv, hskip]

theorem scanMembers_more (hsolid : Solid text)
    (hv : scan floats fuel text = some (v, ',' :: (gap ++ more))) (hgap : Gap gap)
    (hnext : Solid more) (hmore : scanMembers floats fuel more = some (members, rest)) :
    scanMembers floats (fuel + 1) (quote key ++ ':' :: ' ' :: text) =
      some ((key, v) :: members, rest) := by
  have hcomma : skip (',' :: (gap ++ more)) = ',' :: (gap ++ more) := skip_cons rfl _
  have hskip : skip (gap ++ more) = more := skip_gap hgap hnext.head
  simp only [member_text, scanMembers, scanString_quote, Option.bind_eq_bind, Option.bind_some,
    skip_colon, skip_space hsolid, hv, hcomma, hskip, hmore]

theorem scan_obj (hgap : Gap gap) (hsolid : Solid text) (hkeys : (members.map (·.1)).Nodup)
    (hmembers : scanMembers floats fuel text = some (members, rest)) :
    scan floats (fuel + 1) ('\x7b' :: (gap ++ text)) = some (.obj members, rest) := by
  have hskip : skip (gap ++ text) = text := skip_gap hgap hsolid.head
  obtain ⟨c, more, rfl, hc⟩ := hsolid
  rw [scan, hskip]
  split
  next heq =>
    injection heq with hbrace _
    exact absurd hbrace hc.noBrace
  next =>
    rw [hmembers, Option.map_some]
    show some (Json.obj (dict members), rest) = _
    rw [dict_eq hkeys]

/-! ### By induction over a value -/

theorem writeItems_solid (hfloats : Lawful floats) (indent : Option ℕ) (level : ℕ) (v : Json F) (vs : List (Json F)) :
    Solid (writeItems floats indent level (v :: vs)) := by
  rw [writeItems]
  exact Solid.append (write_start hfloats indent level v) _

theorem writeMembers_solid (floats : Floats F) (indent : Option ℕ) (level : ℕ) (m : Str × Json F)
    (members : List (Str × Json F)) : Solid (writeMembers floats indent level (m :: members)) :=
  ⟨'"', _, rfl, by constructor <;> decide⟩

theorem need_pos (v : Json F) : 0 < need v := by
  cases v with
  | arr items => exact Nat.succ_pos _
  | obj members => exact Nat.succ_pos _
  | _ => exact Nat.one_pos

mutual

/-- **A value is read back**, in front of what no number goes on with. -/
theorem scan_write (hfloats : Lawful floats) : ∀ (v : Json F) (level fuel : ℕ) (rest : List Char),
    Keyed v → need v ≤ fuel → Behind rest →
      scan floats fuel (write floats indent level v ++ rest) = some (v, rest)
  | v, _, 0, _, _, hfuel, _ => absurd hfuel (Nat.not_le.mpr (need_pos v))
  | .null, _, _ + 1, _, _, _, _ => rfl
  | .bool true, _, _ + 1, _, _, _, _ => rfl
  | .bool false, _, _ + 1, _, _, _, _ => rfl
  | .int n, _, fuel + 1, rest, _, _, hrest => by
    obtain ⟨c, text, heq, hc⟩ := intText_start n
    have hint := scanFloat_int floats hrest n
    rw [write]
    rw [heq] at hint ⊢
    exact (scan_number hc fuel (text ++ rest)).trans hint
  | .float x, _, fuel + 1, rest, _, _, hrest => by
    obtain ⟨c, text, heq, hc⟩ := text_start hfloats x
    have htext := scanFloat_text hfloats hrest x
    rw [write]
    rw [heq] at htext ⊢
    exact (scan_number hc fuel (text ++ rest)).trans htext
  | .str s, _, fuel + 1, rest, _, _, _ => by
    have hquote : quote s ++ rest = '"' :: (s.toUnits.flatMap escape ++ '"' :: rest) := by
      simp only [quote, List.cons_append, List.append_assoc, List.nil_append]
    rw [write, hquote, scan, scanString_quote]
    rfl
  | .arr [], _, _ + 1, _, _, _, _ => rfl
  | .arr (v :: vs), level, fuel + 1, rest, hkeyed, hfuel, _ => by
    have hitems := scanItems_write hfloats (v :: vs) (level + 1) fuel (newline indent level) rest
      (List.cons_ne_nil v vs) hkeyed (Nat.le_of_succ_le_succ hfuel) gap_newline
    have hsolid := (writeItems_solid hfloats indent (level + 1) v vs).append
      (newline indent level ++ ']' :: rest)
    have htext : write floats indent level (.arr (v :: vs)) ++ rest =
        '[' :: (newline indent (level + 1) ++ (writeItems floats indent (level + 1) (v :: vs) ++
          (newline indent level ++ ']' :: rest))) := by
      rw [write]
      simp only [List.isEmpty_cons, Bool.false_eq_true, if_false, List.cons_append,
        List.append_assoc, List.nil_append]
    rw [htext]
    exact scan_arr gap_newline hsolid hitems
  | .obj [], _, _ + 1, _, _, _, _ => rfl
  | .obj (m :: members), level, fuel + 1, rest, hkeyed, hfuel, _ => by
    have hmembers := scanMembers_write hfloats (m :: members) (level + 1) fuel
      (newline indent level) rest (List.cons_ne_nil m members) hkeyed.2
      (Nat.le_of_succ_le_succ hfuel) gap_newline
    have hsolid := (writeMembers_solid floats indent (level + 1) m members).append (newline indent level ++ '\x7d' :: rest)
    have htext : write floats indent level (.obj (m :: members)) ++ rest =
        '\x7b' :: (newline indent (level + 1) ++
          (writeMembers floats indent (level + 1) (m :: members) ++
            (newline indent level ++ '\x7d' :: rest))) := by
      rw [write]
      simp only [List.isEmpty_cons, Bool.false_eq_true, if_false, List.cons_append,
        List.append_assoc, List.nil_append]
    rw [htext]
    exact scan_obj gap_newline hsolid hkeyed.1 hmembers

theorem scanItems_write (hfloats : Lawful floats) : ∀ (items : List (Json F)) (level fuel : ℕ)
    (gap rest : List Char), items ≠ [] → KeyedItems items → needItems items ≤ fuel → Gap gap →
      scanItems floats fuel (writeItems floats indent level items ++ (gap ++ ']' :: rest)) =
        some (items, rest)
  | [], _, _, _, _, hne, _, _, _ => absurd rfl hne
  | _ :: _, _, 0, _, _, _, _, hfuel, _ => absurd hfuel (Nat.not_succ_le_zero _)
  | [v], level, fuel + 1, gap, rest, _, hkeyed, hfuel, hgap => by
    have hneed : need v ≤ fuel := by
      simp only [needItems] at hfuel
      omega
    have hv := scan_write hfloats v level fuel (gap ++ ']' :: rest) hkeyed.1 hneed
      (hgap.behind (.cons rfl rest))
    have htext : writeItems floats indent level [v] = write floats indent level v := by
      simp only [writeItems, List.isEmpty_nil, if_true, List.append_nil]
    rw [htext]
    exact scanItems_last hv hgap
  | v :: w :: vs, level, fuel + 1, gap, rest, _, hkeyed, hfuel, hgap => by
    have hneed : need v ≤ fuel ∧ needItems (w :: vs) ≤ fuel := by
      rw [needItems] at hfuel
      omega
    obtain ⟨between, hcomma, hbetween⟩ := comma_eq indent level
    have hmore := scanItems_write hfloats (w :: vs) level fuel gap rest (List.cons_ne_nil w vs)
      hkeyed.2 hneed.2 hgap
    have hv := scan_write hfloats v level fuel (',' :: (between ++ (writeItems floats indent level
      (w :: vs) ++ (gap ++ ']' :: rest)))) hkeyed.1 hneed.1 (.cons rfl _)
    have hsolid := (writeItems_solid hfloats indent level w vs).append
      (gap ++ ']' :: rest)
    have htext : writeItems floats indent level (v :: w :: vs) ++ (gap ++ ']' :: rest) =
        write floats indent level v ++ (',' :: (between ++ (writeItems floats indent level
          (w :: vs) ++ (gap ++ ']' :: rest)))) := by
      rw [writeItems, hcomma]
      simp only [List.isEmpty_cons, Bool.false_eq_true, if_false, List.cons_append,
        List.append_assoc]
    rw [htext]
    exact scanItems_more hv hbetween hsolid hmore

theorem scanMembers_write (hfloats : Lawful floats) : ∀ (members : List (Str × Json F))
    (level fuel : ℕ) (gap rest : List Char), members ≠ [] → KeyedMembers members →
      needMembers members ≤ fuel → Gap gap →
        scanMembers floats fuel
          (writeMembers floats indent level members ++ (gap ++ '\x7d' :: rest)) =
            some (members, rest)
  | [], _, _, _, _, hne, _, _, _ => absurd rfl hne
  | (_, _) :: _, _, 0, _, _, _, _, hfuel, _ => absurd hfuel (Nat.not_succ_le_zero _)
  | [(key, v)], level, fuel + 1, gap, rest, _, hkeyed, hfuel, hgap => by
    have hneed : need v ≤ fuel := by
      simp only [needMembers] at hfuel
      omega
    have hv := scan_write hfloats v level fuel (gap ++ '\x7d' :: rest) hkeyed.1 hneed
      (hgap.behind (.cons rfl rest))
    have hsolid : Solid (write floats indent level v ++ (gap ++ '\x7d' :: rest)) :=
      Solid.append (write_start hfloats indent level v) _
    have htext : writeMembers floats indent level [(key, v)] ++ (gap ++ '\x7d' :: rest) =
        quote key ++ ':' :: ' ' :: (write floats indent level v ++ (gap ++ '\x7d' :: rest)) := by
      simp only [writeMembers, List.isEmpty_nil, if_true, List.append_nil, List.append_assoc,
        List.cons_append, List.nil_append]
    rw [htext]
    exact scanMembers_last hsolid hv hgap
  | (key, v) :: m :: members, level, fuel + 1, gap, rest, _, hkeyed, hfuel, hgap => by
    have hneed : need v ≤ fuel ∧ needMembers (m :: members) ≤ fuel := by
      rw [needMembers] at hfuel
      omega
    obtain ⟨between, hcomma, hbetween⟩ := comma_eq indent level
    have hmore := scanMembers_write hfloats (m :: members) level fuel gap rest
      (List.cons_ne_nil m members) hkeyed.2 hneed.2 hgap
    have hv := scan_write hfloats v level fuel (',' :: (between ++ (writeMembers floats indent level
      (m :: members) ++ (gap ++ '\x7d' :: rest)))) hkeyed.1 hneed.1 (.cons rfl _)
    have hnext := (writeMembers_solid floats indent level m members).append (gap ++ '\x7d' :: rest)
    have hsolid : Solid (write floats indent level v ++ (',' :: (between ++ (writeMembers floats
        indent level (m :: members) ++ (gap ++ '\x7d' :: rest))))) :=
      Solid.append (write_start hfloats indent level v) _
    have htext : writeMembers floats indent level ((key, v) :: m :: members) ++
        (gap ++ '\x7d' :: rest) = quote key ++ ':' :: ' ' :: (write floats indent level v ++
          (',' :: (between ++ (writeMembers floats indent level (m :: members) ++
            (gap ++ '\x7d' :: rest))))) := by
      rw [writeMembers, hcomma]
      simp only [List.isEmpty_cons, Bool.false_eq_true, if_false, List.cons_append,
        List.append_assoc, List.nil_append]
    rw [htext]
    exact scanMembers_more hsolid hv hbetween hnext hmore

end

/-! ## Whole texts -/

theorem text_length (hfloats : Lawful floats) (v : Json F) :
    0 < (write floats indent level v).length := by
  obtain ⟨c, rest, heq, -⟩ := write_start hfloats indent level v
  rw [heq]
  exact Nat.succ_pos _

mutual

/-- The length of a text is fuel enough for it. -/
theorem need_le (hfloats : Lawful floats) : ∀ (v : Json F) (level : ℕ),
    need v ≤ (write floats indent level v).length
  | .arr [], _ => Nat.le_succ 1
  | .arr (v :: vs), level => by
    have hitems := needItems_le hfloats (v :: vs) (level + 1)
    rw [need, write]
    simp only [List.isEmpty_cons, Bool.false_eq_true, if_false, List.length_cons,
      List.length_append, List.length_nil]
    omega
  | .obj [], _ => Nat.le_succ 1
  | .obj (m :: members), level => by
    have hmembers := needMembers_le hfloats (m :: members) (level + 1)
    rw [need, write]
    simp only [List.isEmpty_cons, Bool.false_eq_true, if_false, List.length_cons,
      List.length_append, List.length_nil]
    omega
  | .null, _ => text_length hfloats .null
  | .bool b, _ => text_length hfloats (.bool b)
  | .int n, _ => text_length hfloats (.int n)
  | .float x, _ => text_length hfloats (.float x)
  | .str s, _ => text_length hfloats (.str s)

theorem needItems_le (hfloats : Lawful floats) : ∀ (items : List (Json F)) (level : ℕ),
    needItems items ≤ (writeItems floats indent level items).length + 1
  | [], _ => Nat.zero_le _
  | [v], level => by
    have hv := need_le hfloats v level
    simp only [needItems, writeItems, List.length_append]
    omega
  | v :: w :: vs, level => by
    have hv := need_le hfloats v level
    have hvs := needItems_le hfloats (w :: vs) level
    obtain ⟨gap, hcomma, -⟩ := comma_eq indent level
    rw [needItems, writeItems, hcomma]
    simp only [List.isEmpty_cons, Bool.false_eq_true, if_false, List.length_cons,
      List.length_append]
    omega

theorem needMembers_le (hfloats : Lawful floats) : ∀ (members : List (Str × Json F)) (level : ℕ),
    needMembers members ≤ (writeMembers floats indent level members).length + 1
  | [], _ => Nat.zero_le _
  | [(key, v)], level => by
    have hv := need_le hfloats v level
    simp only [needMembers, writeMembers, List.length_append]
    omega
  | (key, v) :: m :: members, level => by
    have hv := need_le hfloats v level
    have hmembers := needMembers_le hfloats (m :: members) level
    obtain ⟨gap, hcomma, -⟩ := comma_eq indent level
    rw [needMembers, writeMembers, hcomma]
    simp only [List.isEmpty_cons, Bool.false_eq_true, if_false, List.length_cons,
      List.length_append]
    omega

end

/-- **The round trip**: what is written is read back. -/
theorem loads_write (hfloats : Lawful floats) {v : Json F} (h : Keyed v) :
    loads floats (write floats indent level v) = some v := by
  have hfuel : need v ≤ (write floats indent level v).length + 1 :=
    (need_le hfloats v level).trans (Nat.le_succ _)
  have hscan : scan floats _ (write floats indent level v ++ []) = some (v, []) :=
    scan_write hfloats v level _ [] h hfuel .nil
  have hskip : skip (write floats indent level v) = write floats indent level v :=
    skip_gap .nil (Solid.head (write_start hfloats indent level v))
  rw [List.append_nil] at hscan
  rw [loads, hskip, hscan]
  rfl

/-! ## Sorted members -/

theorem lookup_eq_some {members : List (Str × Json F)} (h : (members.map (·.1)).Nodup) :
    members.lookup key = some v ↔ (key, v) ∈ members := by
  induction members with
  | nil =>
    constructor
    · exact fun hnone => nomatch hnone
    · exact fun hmem => nomatch hmem
  | cons m members ih =>
    obtain ⟨hnew, hrest⟩ := List.nodup_cons.mp h
    rw [List.lookup_cons, List.mem_cons]
    by_cases heq : key = m.1
    · simp only [beq_iff_eq.mpr heq]
      constructor
      · intro hv
        left
        rw [heq, ← Option.some.inj hv]
      · rintro (hm | hm)
        · rw [← hm]
        · exact absurd (List.mem_map.mpr ⟨(key, v), hm, heq⟩) hnew
    · rw [beq_eq_false_iff_ne.mpr heq]
      show members.lookup key = some v ↔ _
      rw [ih hrest]
      constructor
      · exact .inr
      · rintro (hm | hm)
        · exact absurd (congrArg (·.1) hm) heq
        · exact hm

/-- The order of the members does not matter for what a name stands for. -/
theorem lookup_perm {members members' : List (Str × Json F)} (h : (members.map (·.1)).Nodup)
    (hperm : members.Perm members') : members'.lookup key = members.lookup key := by
  have h' : (members'.map (·.1)).Nodup := (hperm.map (·.1)).nodup_iff.mp h
  apply Option.ext
  intro v
  rw [lookup_eq_some h, lookup_eq_some h', hperm.mem_iff]

theorem lookup_sortedMembers (members : List (Str × Json F)) :
    (sortedMembers members).lookup key = (members.lookup key).map sorted := by
  induction members with
  | nil => rfl
  | cons m members ih =>
    rw [sortedMembers, List.lookup_cons, List.lookup_cons]
    split
    · rfl
    · exact ih

theorem names_sortedMembers (members : List (Str × Json F)) :
    (sortedMembers members).map (·.1) = members.map (·.1) := by
  induction members with
  | nil => rfl
  | cons m members ih => rw [sortedMembers, List.map_cons, List.map_cons, ih]

/-- **A name stands for the same in the sorted object.** -/
theorem get?_sorted (h : (members.map (·.1)).Nodup) :
    get? key (sorted (.obj members)) = (get? key (.obj members)).map sorted := by
  have hnodup : ((sortedMembers members).map (·.1)).Nodup := by
    rw [names_sortedMembers]
    exact h
  rw [sorted, get?, get?, lookup_perm hnodup (List.perm_insertionSort _ _).symm,
    lookup_sortedMembers]

/-- A member of the sorted object that has nothing to sort in it. -/
theorem get?_sorted_flat (h : (members.map (·.1)).Nodup) (hv : members.lookup key = some v)
    (hflat : v.sorted = v) : get? key (sorted (.obj members)) = some v := by
  rw [get?_sorted h, get?, hv, Option.map_some, hflat]

theorem sortedItems_eq (items : List (Json F)) : sortedItems items = items.map sorted := by
  induction items with
  | nil => rfl
  | cons v items ih => rw [sortedItems, List.map_cons, ih]

theorem keyedItems_iff : KeyedItems vs ↔ ∀ v ∈ vs, Keyed v := by
  induction vs with
  | nil =>
    constructor
    · exact fun _ v hv => nomatch hv
    · exact fun _ => trivial
  | cons v vs ih => rw [KeyedItems, ih, List.forall_mem_cons]

theorem keyedMembers_iff : KeyedMembers members ↔ ∀ m ∈ members, Keyed m.2 := by
  induction members with
  | nil =>
    constructor
    · exact fun _ m hm => nomatch hm
    · exact fun _ => trivial
  | cons m members ih => rw [KeyedMembers, ih, List.forall_mem_cons]

mutual

theorem keyed_sorted : ∀ v : Json F, Keyed v → Keyed v.sorted
  | .arr items, h => keyed_sortedItems items h
  | .obj members, ⟨hnodup, hmembers⟩ => by
    have hsorted := keyedMembers_iff.mp (keyed_sortedMembers members hmembers)
    rw [← names_sortedMembers] at hnodup
    have hperm := List.perm_insertionSort
      (fun m m' : Str × Json F => m.1.points ≤ m'.1.points) (sortedMembers members)
    rw [sorted]
    refine ⟨(hperm.map (·.1)).nodup_iff.mpr hnodup, ?_⟩
    exact keyedMembers_iff.mpr fun m hm => hsorted m (hperm.mem_iff.mp hm)
  | .null, _ => trivial
  | .bool _, _ => trivial
  | .int _, _ => trivial
  | .float _, _ => trivial
  | .str _, _ => trivial

theorem keyed_sortedItems : ∀ items : List (Json F), KeyedItems items →
    KeyedItems (sortedItems items)
  | [], _ => trivial
  | v :: vs, ⟨hv, hvs⟩ => ⟨keyed_sorted v hv, keyed_sortedItems vs hvs⟩

theorem keyed_sortedMembers : ∀ members : List (Str × Json F), KeyedMembers members →
    KeyedMembers (sortedMembers members)
  | [], _ => trivial
  | (_, v) :: members, ⟨hv, hmembers⟩ => ⟨keyed_sorted v hv, keyed_sortedMembers members hmembers⟩

end

/-- What `dumps` writes is read back, with the members in the order in which they were written. -/
theorem loads_dumps (hfloats : Lawful floats) (sortKeys : Bool) (h : Keyed v) :
    loads floats (dumps floats indent sortKeys v) = some (if sortKeys then v.sorted else v) := by
  rw [dumps]
  cases sortKeys with
  | true => exact loads_write hfloats (keyed_sorted v h)
  | false => exact loads_write hfloats h

/-! ## What is read -/

theorem names_insert {key : Str} (value : Json F) (members : List (Str × Json F)) :
    (insert key value members).map (·.1) =
      if key ∈ members.map (·.1) then members.map (·.1) else members.map (·.1) ++ [key] := by
  by_cases h : key ∈ members.map (·.1)
  · rw [if_pos h]
    induction members with
    | nil => cases h
    | cons m members ih =>
      by_cases heq : m.1 = key
      · rw [insert, if_pos heq, List.map_cons, List.map_cons, heq]
      · have hrest := (List.mem_cons.mp h).resolve_left fun hkey => heq hkey.symm
        rw [insert, if_neg heq, List.map_cons, List.map_cons, ih hrest]
  · rw [if_neg h, insert_new value h, List.map_append]
    rfl

theorem mem_insert {key : Str} {value : Json F} {members : List (Str × Json F)} {m : Str × Json F}
    (h : m ∈ insert key value members) : m = (key, value) ∨ m ∈ members := by
  induction members with
  | nil => exact .inl (List.mem_singleton.mp h)
  | cons m' members ih =>
    by_cases heq : m'.1 = key
    · rw [insert, if_pos heq] at h
      exact (List.mem_cons.mp h).imp_right (List.mem_cons_of_mem m')
    · rw [insert, if_neg heq] at h
      rcases List.mem_cons.mp h with rfl | hm
      · exact .inr List.mem_cons_self
      · exact (ih hm).imp_right (List.mem_cons_of_mem m')

/-- A `dict` has each name once. -/
theorem keyed_dict {pairs : List (Str × Json F)} (h : ∀ m ∈ pairs, Keyed m.2) :
    Keyed (.obj (dict pairs)) := by
  suffices hall : ∀ members : List (Str × Json F), Keyed (.obj members) →
      Keyed (.obj (pairs.foldl (fun members m => insert m.1 m.2 members) members)) from
    hall [] ⟨.nil, trivial⟩
  induction pairs with
  | nil => exact fun members hmembers => hmembers
  | cons m pairs ih =>
    intro members ⟨hnodup, hmembers⟩
    apply ih (fun m' hm' => h m' (List.mem_cons_of_mem m hm'))
    constructor
    · rw [names_insert]
      split
      · exact hnodup
      · next hnew =>
        rw [← List.concat_eq_append]
        exact List.Nodup.concat hnew hnodup
    · refine keyedMembers_iff.mpr fun m' hm' => ?_
      rcases mem_insert hm' with rfl | hm'
      · exact h m List.mem_cons_self
      · exact keyedMembers_iff.mp hmembers m' hm'

/-- What the scanners return at a fuel has each name once. -/
structure ScanKeyed (floats : Floats F) (fuel : ℕ) : Prop where
  value {text rest : List Char} {v : Json F} : scan floats fuel text = some (v, rest) → Keyed v
  items {text rest : List Char} {vs : List (Json F)} :
    scanItems floats fuel text = some (vs, rest) → ∀ v ∈ vs, Keyed v
  members {text rest : List Char} {members : List (Str × Json F)} :
    scanMembers floats fuel text = some (members, rest) → ∀ m ∈ members, Keyed m.2

theorem keyed_scanFloat {text rest : List Char} {v : Json F}
    (h : scanFloat floats text = some (v, rest)) : Keyed v := by
  unfold scanFloat at h
  split at h
  · cases h
    trivial
  · cases h
    trivial
  · split at h
    · cases h
      trivial
    · split at h
      · cases h
        trivial
      · split at h
        · cases h
          trivial
        · cases h

theorem keyed_scan (ih : ScanKeyed floats fuel) {text rest : List Char} {v : Json F}
    (h : scan floats (fuel + 1) text = some (v, rest)) : Keyed v := by
  unfold scan at h
  split at h
  · obtain ⟨p, -, heq⟩ := Option.map_eq_some_iff.mp h
    cases heq
    trivial
  · split at h
    · cases h
      trivial
    · obtain ⟨p, hitems, heq⟩ := Option.map_eq_some_iff.mp h
      cases heq
      exact keyedItems_iff.mpr (ih.items hitems)
  · split at h
    · cases h
      exact ⟨.nil, trivial⟩
    · obtain ⟨p, hmembers, heq⟩ := Option.map_eq_some_iff.mp h
      cases heq
      exact keyed_dict (ih.members hmembers)
  · cases h
    trivial
  · cases h
    trivial
  · cases h
    trivial
  · exact keyed_scanFloat h

theorem keyed_scanItems (ih : ScanKeyed floats fuel) {text rest : List Char} {vs : List (Json F)}
    (h : scanItems floats (fuel + 1) text = some (vs, rest)) : ∀ v ∈ vs, Keyed v := by
  unfold scanItems at h
  obtain ⟨⟨v, tail⟩, hvalue, h⟩ := Option.bind_eq_some_iff.mp h
  have hv := ih.value hvalue
  dsimp only at h
  split at h
  · obtain ⟨q, hitems, h⟩ := Option.bind_eq_some_iff.mp h
    cases h
    exact List.forall_mem_cons.mpr ⟨hv, ih.items hitems⟩
  · cases h
    exact List.forall_mem_singleton.mpr hv
  · cases h

theorem keyed_scanMembers (ih : ScanKeyed floats fuel) {text rest : List Char}
    {members : List (Str × Json F)}
    (h : scanMembers floats (fuel + 1) text = some (members, rest)) : ∀ m ∈ members, Keyed m.2 := by
  unfold scanMembers at h
  split at h
  · obtain ⟨⟨key, tail⟩, -, h⟩ := Option.bind_eq_some_iff.mp h
    dsimp only at h
    split at h
    · obtain ⟨⟨v, tail'⟩, hvalue, h⟩ := Option.bind_eq_some_iff.mp h
      have hv := ih.value hvalue
      dsimp only at h
      split at h
      · obtain ⟨r, hmembers, h⟩ := Option.bind_eq_some_iff.mp h
        cases h
        exact List.forall_mem_cons.mpr ⟨hv, ih.members hmembers⟩
      · cases h
        exact List.forall_mem_singleton.mpr hv
      · cases h
    · cases h
  · cases h

theorem scanKeyed (floats : Floats F) (fuel : ℕ) : ScanKeyed floats fuel := by
  induction fuel with
  | zero => exact ⟨fun h => (nomatch h), fun h => (nomatch h), fun h => (nomatch h)⟩
  | succ fuel ih => exact ⟨keyed_scan ih, keyed_scanItems ih, keyed_scanMembers ih⟩

/-- **What is read has each name once.** -/
theorem keyed_loads {text : List Char} {v : Json F} (h : loads floats text = some v) : Keyed v := by
  obtain ⟨p, hscan, h⟩ := Option.bind_eq_some_iff.mp h
  obtain ⟨-, heq⟩ := Option.ite_none_right_eq_some.mp h
  cases heq
  exact (scanKeyed floats _).value hscan

/-! ## Names with a value each -/

/-- A name that is there keeps its place and its value. -/
theorem insert_map (f : Str → Json F) {names : List Str} :
    insert key (f key) (names.map fun k => (k, f k)) =
      (if key ∈ names then names else names ++ [key]).map fun k => (k, f k) := by
  by_cases h : key ∈ names
  · rw [if_pos h]
    induction names with
    | nil => cases h
    | cons k names ih =>
      rw [List.map_cons, insert]
      by_cases heq : k = key
      · rw [if_pos heq, heq]
      · rw [if_neg heq, ih ((List.mem_cons.mp h).resolve_left fun hkey => heq hkey.symm)]
  · rw [if_neg h, List.map_append]
    apply insert_new
    rw [List.map_map]
    exact fun hmem => h (List.map_id names ▸ hmem)

/-- **A `dict` of names has each of them once**, where it came first. -/
theorem dict_map (f : Str → Json F) (names : List Str) :
    dict (names.map fun k => (k, f k)) = names.eraseDups.map fun k => (k, f k) := by
  suffices hall : ∀ before : List Str, before.Nodup →
      (names.map fun k => (k, f k)).foldl (fun members m => insert m.1 m.2 members)
        (before.map fun k => (k, f k)) = (before ++ names).eraseDups.map fun k => (k, f k) from
    hall [] .nil
  induction names with
  | nil =>
    intro before hbefore
    rw [List.append_nil, eraseDups_of_nodup hbefore]
    rfl
  | cons k names ih =>
    intro before hbefore
    rw [List.map_cons, List.foldl_cons, insert_map]
    by_cases h : k ∈ before
    · have hagain : (k :: names).removeAll before = names.removeAll before :=
        List.filter_cons_of_neg (by simp [h])
      rw [if_pos h, ih before hbefore, List.eraseDups_append, List.eraseDups_append, hagain]
    · have hnew : (before ++ [k]).Nodup := by
        rw [← List.concat_eq_append]
        exact List.Nodup.concat h hbefore
      rw [if_neg h, ih _ hnew, List.append_assoc, List.singleton_append]

end Values

end Holchain.Lib.Json
