import Mathlib.Algebra.Ring.Nat
import Mathlib.Data.List.Infix

/-!
# Lib.Framing — messages behind their lengths

A stream of messages, each behind its own length in a code of fixed width. `within` are the
messages whose frames lie wholly in the first elements of the stream; a strict prefix of a stream
is the frames of these and a strict prefix of the next one (`prefix_frames`).
-/

namespace Holchain.Lib

/-- A code of fixed width for the lengths below a bound. -/
structure LengthCode (α : Type) where
  width : Nat
  bound : Nat
  encode : Nat → List α
  decode : List α → Nat
  length_encode : ∀ n, (encode n).length = width
  decode_encode : ∀ n, n < bound → decode (encode n) = n

namespace LengthCode

variable {α : Type} (code : LengthCode α)

/-- A message behind its length. -/
def frame (m : List α) : List α := code.encode m.length ++ m

/-- The messages whose frames lie wholly in the first `len` elements of their stream. -/
def within : Nat → List (List α) → List (List α)
  | _, [] => []
  | len, m :: ms =>
    if (code.frame m).length ≤ len then m :: within (len - (code.frame m).length) ms else []

theorem length_frame (m : List α) : (code.frame m).length = code.width + m.length := by
  rw [frame, List.length_append, code.length_encode]

theorem mem_of_mem_within {len : Nat} {ms : List (List α)} {m : List α}
    (h : m ∈ code.within len ms) : m ∈ ms := by
  induction ms generalizing len with
  | nil => exact h
  | cons m' ms ih =>
    rw [within] at h
    split at h
    · rcases List.mem_cons.mp h with rfl | h
      · exact List.mem_cons_self
      · exact List.mem_cons_of_mem _ (ih h)
    · cases h

/-- **A strict prefix of a stream** ends inside the frame of the first message that is not wholly
in it. -/
theorem prefix_frames {ms : List (List α)} :
    ∀ {p : List α}, p <+: ms.flatMap code.frame → p ≠ ms.flatMap code.frame →
      ∃ m q, m ∈ ms ∧ p = (code.within p.length ms).flatMap code.frame ++ q
        ∧ q <+: code.frame m ∧ q ≠ code.frame m := by
  induction ms with
  | nil =>
    intro p hp hne
    exact absurd (List.prefix_nil.mp hp) hne
  | cons m ms ih =>
    intro p hp hne
    rw [List.flatMap_cons] at hp hne
    by_cases hlen : (code.frame m).length ≤ p.length
    · obtain ⟨p', rfl⟩ := List.prefix_of_prefix_length_le (List.prefix_append _ _) hp hlen
      obtain ⟨m', q, hm', hsplit, hq, hqne⟩ :=
        ih ((List.prefix_append_right_inj _).mp hp) fun h => hne (by rw [h])
      refine ⟨m', q, List.mem_cons_of_mem _ hm', ?_, hq, hqne⟩
      rw [within, if_pos hlen, List.length_append, Nat.add_sub_cancel_left, List.flatMap_cons,
        List.append_assoc, ← hsplit]
    · refine ⟨m, p, List.mem_cons_self, ?_, ?_, ?_⟩
      · rw [within, if_neg hlen]
        rfl
      · exact List.prefix_of_prefix_length_le hp (List.prefix_append _ _) (by omega)
      · rintro rfl
        exact hlen (Nat.le_refl _)

/-! ## Bytes -/

/-- `w` bytes, the least significant one first. -/
def bytes : Nat → Nat → List UInt8
  | 0, _ => []
  | w + 1, n => UInt8.ofNat n :: bytes w (n / 256)

/-- The number of these bytes. -/
def number : List UInt8 → Nat
  | [] => 0
  | b :: bs => b.toNat + 256 * number bs

theorem length_bytes (w n : Nat) : (bytes w n).length = w := by
  induction w generalizing n with
  | zero => rfl
  | succ w ih => rw [bytes, List.length_cons, ih]

theorem number_bytes (w n : Nat) (h : n < 256 ^ w) : number (bytes w n) = n := by
  induction w generalizing n with
  | zero =>
    have : n = 0 := by simpa using h
    rw [this, bytes, number]
  | succ w ih =>
    have hdiv : n / 256 < 256 ^ w := Nat.div_lt_of_lt_mul (by rwa [Nat.pow_succ, Nat.mul_comm] at h)
    rw [bytes, number, ih _ hdiv, UInt8.toNat_ofNat']
    omega

/-- The least significant byte first. -/
def littleEndian (w : Nat) : LengthCode UInt8 where
  width := w
  bound := 256 ^ w
  encode := bytes w
  decode := number
  length_encode := length_bytes w
  decode_encode := number_bytes w

/-- The most significant byte first. -/
def bigEndian (w : Nat) : LengthCode UInt8 where
  width := w
  bound := 256 ^ w
  encode := fun n => (bytes w n).reverse
  decode := fun bs => number bs.reverse
  length_encode := fun n => by rw [List.length_reverse, length_bytes]
  decode_encode := fun n h => by rw [List.reverse_reverse, number_bytes w n h]

end LengthCode

end Holchain.Lib
