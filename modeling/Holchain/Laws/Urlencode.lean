import Mathlib.Algebra.Order.Group.Nat
import Holchain.Bin.Urlencode

/-!
# Laws.Urlencode — which texts come back

The decoder reads two digits behind each `%`, the encoder writes as many as the code point has.
For an ASCII character these are two; for any other one the decoder makes one byte of the first
two, where its UTF-8 text has at least two bytes from 128 on. So a text comes back if and only if
it is ASCII.
-/

namespace Holchain.Bin

open Holper (Bytes lit)

/-! ## Digits -/

/-- A digit of the encoder, which the decoder reads as the number it stands for. -/
theorem hexValue_hexDigit : ∀ n < 16, hexValue (hexDigit n) = some n := by decide

/-- It is no other character of the two scripts, and ASCII. -/
theorem hexDigit_plain : ∀ n < 16,
    hexDigit n ≠ 37 ∧ hexDigit n ≠ 43 ∧ hexDigit n ≠ 92 ∧ hexDigit n < 128 := by decide

/-- The first two digits and the others. -/
theorem hex02_split (n : ℕ) : ∃ a < 16, ∃ b < 16, ∃ rest : List ℕ, (∀ d ∈ rest, d < 16)
    ∧ hex02 n = hexDigit a :: hexDigit b :: rest.map hexDigit := by
  induction n using hex02.induct with
  | case1 n hn =>
    refine ⟨n / 16, by omega, n % 16, by omega, [], fun d hd => absurd hd List.not_mem_nil, ?_⟩
    rw [hex02, if_pos hn]
    rfl
  | case2 n hn ih =>
    obtain ⟨a, ha, b, hb, rest, hrest, heq⟩ := ih
    refine ⟨a, ha, b, hb, rest ++ [n % 16], fun d hd => ?_, ?_⟩
    · rcases List.mem_append.mp hd with hd | hd
      · exact hrest d hd
      · rw [List.mem_singleton.mp hd]
        exact Nat.mod_lt n (by decide)
    · rw [hex02, if_neg hn, heq, List.map_append]
      rfl

/-! ## Reading the text of a `%b` from the front -/

theorem percentB_cons {c : UInt8} (hc : c ≠ 92) (cs : Bytes) :
    percentB 0 (c :: cs) = (percentB 0 cs).after [c] := by
  rw [percentB, if_neg hc]

theorem percentB_append {text : Bytes} (h : 92 ∉ text) (rest : Bytes) :
    percentB 0 (text ++ rest) = (percentB 0 rest).after text := by
  induction text with
  | nil => rfl
  | cons c cs ih =>
    have hc : c ≠ 92 := fun heq => h (heq ▸ List.mem_cons_self)
    rw [List.cons_append, percentB_cons hc, ih fun hmem => h (List.mem_cons_of_mem c hmem)]
    rfl

/-- Two digits make a byte, whatever comes next. -/
theorem percentB_hex {a b : ℕ} (ha : a < 16) (hb : b < 16) (rest : Bytes) :
    percentB 0 (92 :: 120 :: hexDigit a :: hexDigit b :: rest) =
      (percentB 0 rest).after [.ofNat (16 * a + b)] := by
  have hdigits : digits hexValue 16 2 0 (hexDigit a :: hexDigit b :: rest) = (16 * a + b, 2) := by
    simp only [digits, hexValue_hexDigit a ha, hexValue_hexDigit b hb, Nat.mul_zero, Nat.zero_add]
  have hescape : escape (120 :: hexDigit a :: hexDigit b :: rest) =
      some ([.ofNat (16 * a + b)], 3) := by
    simp only [escape, hdigits]
    rfl
  rw [percentB, if_pos rfl, hescape]
  rfl

/-! ## One character -/

/-- A code that is read back as a text, whatever comes next. -/
def Decodes (code text : Bytes) : Prop :=
  ∀ rest, percentB 0 (urldecodeFormat code ++ rest) = (percentB 0 rest).after text

theorem urldecodeFormat_append (a b : Bytes) :
    urldecodeFormat (a ++ b) = urldecodeFormat a ++ urldecodeFormat b := by
  unfold urldecodeFormat
  rw [List.map_append, List.flatMap_append]

/-- Characters that `urldecode` has no use for stay. -/
theorem urldecodeFormat_of_plain {text : Bytes} (h : ∀ c ∈ text, c ≠ 37 ∧ c ≠ 43) :
    urldecodeFormat text = text := by
  induction text with
  | nil => rfl
  | cons c cs ih =>
    obtain ⟨hpercent, hplus⟩ := h c List.mem_cons_self
    have hcons : urldecodeFormat (c :: cs) = urldecodeFormat [c] ++ urldecodeFormat cs :=
      urldecodeFormat_append [c] cs
    have hone : urldecodeFormat [c] = [c] := by
      simp only [urldecodeFormat, List.map_cons, List.map_nil, if_neg hplus, List.flatMap_cons,
        List.flatMap_nil, if_neg hpercent, List.append_nil]
    rw [hcons, hone, ih fun d hd => h d (List.mem_cons_of_mem c hd)]
    rfl

theorem Decodes.append {a b x y : Bytes} (ha : Decodes a x) (hb : Decodes b y) :
    Decodes (a ++ b) (x ++ y) := by
  intro rest
  rw [urldecodeFormat_append, List.append_assoc, ha, hb]
  simp only [Printed.after, List.append_assoc]

theorem decodes_plain {text : Bytes} (h : ∀ c ∈ text, c ≠ 37 ∧ c ≠ 43 ∧ c ≠ 92) :
    Decodes text text := by
  intro rest
  rw [urldecodeFormat_of_plain fun c hc => ⟨(h c hc).1, (h c hc).2.1⟩]
  exact percentB_append (fun hmem => (h 92 hmem).2.2 rfl) rest

/-- Of an escape the first two digits make a byte, and the others stand for themselves. -/
theorem decodes_percent {a b : ℕ} (ha : a < 16) (hb : b < 16) {more : List ℕ}
    (hmore : ∀ d ∈ more, d < 16) :
    Decodes (37 :: hexDigit a :: hexDigit b :: more.map hexDigit)
      (.ofNat (16 * a + b) :: more.map hexDigit) := by
  have hplain (d : ℕ) (hd : d < 16) : hexDigit d ≠ 37 ∧ hexDigit d ≠ 43 ∧ hexDigit d ≠ 92 :=
    ⟨(hexDigit_plain d hd).1, (hexDigit_plain d hd).2.1, (hexDigit_plain d hd).2.2.1⟩
  have hescape : Decodes [37, hexDigit a, hexDigit b] [.ofNat (16 * a + b)] := by
    intro rest
    have hdigits : urldecodeFormat [hexDigit a, hexDigit b] = [hexDigit a, hexDigit b] := by
      apply urldecodeFormat_of_plain
      intro c hc
      rcases List.mem_pair.mp hc with rfl | rfl
      · exact ⟨(hplain a ha).1, (hplain a ha).2.1⟩
      · exact ⟨(hplain b hb).1, (hplain b hb).2.1⟩
    have hcode : urldecodeFormat [37, hexDigit a, hexDigit b] =
        [92, 120, hexDigit a, hexDigit b] := by
      rw [show [37, hexDigit a, hexDigit b] = [37] ++ [hexDigit a, hexDigit b] from rfl,
        urldecodeFormat_append, hdigits]
      rfl
    rw [hcode]
    exact percentB_hex ha hb rest
  refine hescape.append (decodes_plain fun c hc => ?_)
  obtain ⟨d, hd, rfl⟩ := List.mem_map.mp hc
  exact hplain d (hmore d hd)

/-- What comes back for a character. -/
def comesBack (c : Char) : Bytes := (percentB 0 (urldecodeFormat (urlencodeChar c))).text

theorem Decodes.comesBack {c : Char} {text : Bytes} (h : Decodes (urlencodeChar c) text) :
    comesBack c = text := by
  have hnil := h []
  rw [List.append_nil] at hnil
  unfold Bin.comesBack
  rw [hnil]
  exact List.append_nil text

/-! ## ASCII and the rest -/

theorem utf8EncodeChar_ascii {c : Char} (h : c.toNat < 128) :
    String.utf8EncodeChar c = [.ofNat c.toNat] := by
  have hle : c.val.toNat ≤ 127 := Nat.le_of_lt_succ h
  simp only [String.utf8EncodeChar, if_pos hle]
  rfl

/-- The range of the characters that stay. -/
theorem isPlain_bounds {c : Char} (h : isPlain c = true) :
    45 ≤ c.toNat ∧ c.toNat < 127 ∧ c.toNat ≠ 92 := by
  simp only [isPlain, Bool.or_eq_true, Bool.and_eq_true, decide_eq_true_eq, beq_iff_eq] at h
  rcases h with (((((⟨hlo, hhi⟩ | ⟨hlo, hhi⟩) | ⟨hlo, hhi⟩) | rfl) | rfl) | rfl) | rfl
  · have hlo : 97 ≤ c.toNat := hlo
    have hhi : c.toNat ≤ 122 := hhi
    omega
  · have hlo : 65 ≤ c.toNat := hlo
    have hhi : c.toNat ≤ 90 := hhi
    omega
  · have hlo : 48 ≤ c.toNat := hlo
    have hhi : c.toNat ≤ 57 := hhi
    omega
  all_goals decide

/-- The branch for the space writes what the last one would. -/
theorem urlencodeChar_eq (c : Char) :
    urlencodeChar c = if isPlain c then String.utf8EncodeChar c else percent02X c.toNat := by
  unfold urlencodeChar
  split
  · rfl
  · split
    next hspace => rw [hspace]; rfl
    · rfl

theorem ofNat_ne {n m : ℕ} (hn : n < 128) (hm : m < 128) (h : n ≠ m) :
    UInt8.ofNat n ≠ UInt8.ofNat m := by
  intro heq
  have hnat := congrArg UInt8.toNat heq
  rw [UInt8.toNat_ofNat', UInt8.toNat_ofNat'] at hnat
  omega

/-- **An ASCII character comes back.** -/
theorem decodes_ascii {c : Char} (h : c.toNat < 128) :
    Decodes (urlencodeChar c) (String.utf8EncodeChar c) := by
  rw [urlencodeChar_eq, utf8EncodeChar_ascii h]
  split
  next hplain =>
    obtain ⟨hlo, -, hbackslash⟩ := isPlain_bounds hplain
    have hpercent : c.toNat ≠ 37 := by omega
    have hplus : c.toNat ≠ 43 := by omega
    apply decodes_plain
    intro b hb
    rw [List.mem_singleton.mp hb]
    exact ⟨ofNat_ne h (by decide) hpercent, ofNat_ne h (by decide) hplus,
      ofNat_ne h (by decide) hbackslash⟩
  · have hcode : percent02X c.toNat = [37, hexDigit (c.toNat / 16), hexDigit (c.toNat % 16)] := by
      rw [percent02X, hex02, if_pos (by omega)]
    have hnone : ∀ d ∈ ([] : List ℕ), d < 16 := fun d hd => absurd hd List.not_mem_nil
    have hdecodes := decodes_percent (a := c.toNat / 16) (b := c.toNat % 16) (by omega) (by omega)
      hnone
    rw [Nat.div_add_mod] at hdecodes
    rw [hcode]
    exact hdecodes

/-- How many of the bytes are no ASCII characters. -/
def high (text : Bytes) : ℕ := text.countP fun b => decide (128 ≤ b)

theorem high_append (a b : Bytes) : high (a ++ b) = high a + high b := List.countP_append

/-- **Of any other character** one such byte comes back at most. -/
theorem decodes_other {c : Char} (h : 128 ≤ c.toNat) :
    ∃ text, Decodes (urlencodeChar c) text ∧ high text ≤ 1 := by
  obtain ⟨a, ha, b, hb, more, hmore, heq⟩ := hex02_split c.toNat
  have hplain : ¬ isPlain c = true := fun hp => absurd (isPlain_bounds hp).2.1 (by omega)
  have hrest : high (more.map hexDigit) = 0 := by
    apply List.countP_eq_zero.mpr
    intro d hd
    obtain ⟨n, hn, rfl⟩ := List.mem_map.mp hd
    have hlt := (hexDigit_plain n (hmore n hn)).2.2.2
    simp only [decide_eq_true_eq, UInt8.not_le, hlt]
  refine ⟨.ofNat (16 * a + b) :: more.map hexDigit, ?_, ?_⟩
  · rw [urlencodeChar_eq, if_neg hplain, percent02X, heq]
    exact decodes_percent ha hb hmore
  · show high ([.ofNat (16 * a + b)] ++ more.map hexDigit) ≤ 1
    rw [high_append, hrest]
    exact List.countP_le_length

theorem two_le_high {n m : ℕ} (hn : 128 ≤ n ∧ n < 256) (hm : 128 ≤ m ∧ m < 256) (rest : Bytes) :
    2 ≤ high (.ofNat n :: .ofNat m :: rest) := by
  have hbyte (k : ℕ) (hk : 128 ≤ k ∧ k < 256) : decide ((128 : UInt8) ≤ .ofNat k) = true := by
    rw [decide_eq_true_eq, UInt8.le_iff_toNat_le, UInt8.toNat_ofNat']
    show 128 ≤ k % 256
    omega
  unfold high
  rw [List.countP_cons, List.countP_cons, if_pos (hbyte n hn), if_pos (hbyte m hm)]
  omega

/-- Its text has two at least. -/
theorem high_utf8EncodeChar {c : Char} (h : 128 ≤ c.toNat) :
    2 ≤ high (String.utf8EncodeChar c) := by
  have hge : 128 ≤ c.val.toNat := h
  have hlt : ¬ c.val.toNat ≤ 127 := by omega
  simp only [String.utf8EncodeChar, if_neg hlt]
  split
  · exact two_le_high (by omega) (by omega) _
  · split
    · exact two_le_high (by omega) (by omega) _
    · exact two_le_high (by omega) (by omega) _

/-! ## Texts -/

/-- Each character is read back for itself. -/
theorem decodes_char (c : Char) : Decodes (urlencodeChar c) (comesBack c) := by
  rcases Nat.lt_or_ge c.toNat 128 with hlt | hge
  · have hdecodes := decodes_ascii hlt
    rw [hdecodes.comesBack]
    exact hdecodes
  · obtain ⟨text, hdecodes, -⟩ := decodes_other hge
    rw [hdecodes.comesBack]
    exact hdecodes

theorem decodes_urlencode (s : Text) : Decodes (urlencode s) (s.flatMap comesBack) := by
  induction s with
  | nil => exact fun rest => rfl
  | cons c s ih => exact (decodes_char c).append ih

theorem urldecode_eq (inp : Bytes) : urldecode inp = (percentB 0 (urldecodeFormat inp)).text := by
  unfold urldecode
  cases hstopped : (percentB 0 (urldecodeFormat inp)).stopped with
  | true => rw [printf_b_stopped hstopped]
  | false =>
    rw [printf_b hstopped]
    exact List.append_nil _

theorem urldecode_urlencode (s : Text) : urldecode (urlencode s) = s.flatMap comesBack := by
  have hall := decodes_urlencode s []
  rw [List.append_nil] at hall
  rw [urldecode_eq, hall]
  exact List.append_nil _

/-- **ASCII texts come back.** -/
theorem urldecode_ascii {s : Text} (h : s.Ascii) : urldecode (urlencode s) = s.utf8 := by
  rw [urldecode_urlencode]
  exact List.flatMap_congr fun c hc => (decodes_ascii (h c hc)).comesBack

theorem utf8_ascii {s : Text} (h : s.Ascii) : s.utf8 = s.map fun c => .ofNat c.toNat := by
  rw [Text.utf8, List.map_eq_flatMap]
  exact List.flatMap_congr fun c hc => utf8EncodeChar_ascii (h c hc)

theorem ofNat_utf8 {s : Text} (h : s.Ascii) : s.utf8.map (fun b => Char.ofNat b.toNat) = s := by
  have hchar (c : Char) (hc : c ∈ s) : Char.ofNat (UInt8.ofNat c.toNat).toNat = c := by
    have hlt := h c hc
    rw [UInt8.toNat_ofNat', Nat.mod_eq_of_lt (by omega)]
    exact Char.ofNat_toNat c
  rw [utf8_ascii h, List.map_map]
  calc s.map _ = s.map id := List.map_congr_left hchar
    _ = s := List.map_id s

/-- The code of an ASCII text is its own. -/
theorem urlencode_inj {s t : Text} (hs : s.Ascii) (ht : t.Ascii) (h : urlencode s = urlencode t) :
    s = t := by
  have hutf8 : s.utf8 = t.utf8 := by
    rw [← urldecode_ascii hs, ← urldecode_ascii ht, h]
  rw [← ofNat_utf8 hs, ← ofNat_utf8 ht, hutf8]

theorem high_comesBack_lt {c : Char} (h : 128 ≤ c.toNat) :
    high (comesBack c) < high (String.utf8EncodeChar c) := by
  obtain ⟨text, hdecodes, hhigh⟩ := decodes_other h
  rw [hdecodes.comesBack]
  exact Nat.lt_of_le_of_lt hhigh (high_utf8EncodeChar h)

theorem high_comesBack_le (s : Text) : high (s.flatMap comesBack) ≤ high s.utf8 := by
  induction s with
  | nil => exact Nat.le_refl 0
  | cons c s ih =>
    have hchar : high (comesBack c) ≤ high (String.utf8EncodeChar c) := by
      rcases Nat.lt_or_ge c.toNat 128 with hlt | hge
      · rw [(decodes_ascii hlt).comesBack]
      · exact Nat.le_of_lt (high_comesBack_lt hge)
    unfold Text.utf8 at ih ⊢
    rw [List.flatMap_cons, List.flatMap_cons, high_append, high_append]
    omega

/-- A text that is not ASCII has more bytes from 128 on than come back. -/
theorem high_lt {s : Text} (h : ¬ s.Ascii) : high (s.flatMap comesBack) < high s.utf8 := by
  obtain ⟨c, hc, hge⟩ : ∃ c ∈ s, 128 ≤ c.toNat := by
    by_contra hno
    exact h fun c hc => Nat.lt_of_not_le fun hge => hno ⟨c, hc, hge⟩
  obtain ⟨s₁, s₂, rfl⟩ := List.append_of_mem hc
  have hbefore := high_comesBack_le s₁
  have hchar := high_comesBack_lt hge
  have hbehind := high_comesBack_le s₂
  unfold Text.utf8 at hbefore hbehind ⊢
  simp only [List.flatMap_append, List.flatMap_cons, high_append]
  omega

/-- **Which texts come back**: the ASCII texts and no others. Among them no two have one code. -/
theorem urldecode_urlencode_iff (s : Text) :
    (urldecode (urlencode s) = s.utf8 ↔ s.Ascii)
      ∧ ∀ t : Text, s.Ascii → t.Ascii → urlencode s = urlencode t → s = t := by
  refine ⟨⟨fun hback => ?_, urldecode_ascii⟩, fun t hs ht h => urlencode_inj hs ht h⟩
  by_contra hno
  have hlt := high_lt hno
  rw [← urldecode_urlencode, hback] at hlt
  exact Nat.lt_irrefl _ hlt

/-- The euro sign comes back as a space and two letters, and its code is the code of these. -/
theorem euro_not_back :
    urldecode (urlencode ['€']) ≠ Text.utf8 ['€']
      ∧ ['€'] ≠ [' ', 'A', 'C'] ∧ urlencode ['€'] = urlencode [' ', 'A', 'C'] := by
  have hspace : percent02X 32 = lit "%20" := by
    rw [percent02X, hex02, if_pos (by decide)]
    rfl
  have heuro : percent02X 8364 = lit "%20AC" := by
    rw [percent02X, hex02, if_neg (by decide), hex02, if_neg (by decide), hex02,
      if_pos (by decide)]
    rfl
  have hcode : urlencode ['€'] = lit "%20AC" := by
    show urlencodeChar '€' ++ [] = lit "%20AC"
    rw [List.append_nil, urlencodeChar_eq, if_neg (by decide)]
    exact heuro
  have hother : urlencode [' ', 'A', 'C'] = space ++ lit "AC" := rfl
  refine ⟨?_, by decide, ?_⟩
  · rw [hcode]
    decide
  · rw [hcode, hother, space, hspace]
    rfl

end Holchain.Bin
