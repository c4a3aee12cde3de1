import Mathlib.Algebra.Order.BigOperators.Group.Finset
import Mathlib.Data.Fintype.BigOperators
import Mathlib.Data.List.Perm.Subperm

/-!
# Lib.Custody — things that are handed from place to place

Things are held in places, each place a list. A step lets a thing in, changes one where it is, or
moves the first one of a place to the end of another, perhaps changed; the thing's token stays the
same. So the tokens held are, with their numbers, those that came in (`Conserved`), and what came
in once is in exactly one place (`Conserved.once`).
-/

namespace Holchain.Lib

/-- A sum over indices after one of them got another value. -/
theorem sum_update {ι β : Type*} [Fintype ι] [DecidableEq ι] (w : β → Nat) (f : ι → β) (i : ι)
    (b : β) : ∑ j, w (Function.update f i b j) + w (f i) = ∑ j, w (f j) + w b := by
  have hother : ∑ j ∈ Finset.univ.erase i, w (Function.update f i b j)
      = ∑ j ∈ Finset.univ.erase i, w (f j) :=
    Finset.sum_congr rfl fun j hj => by rw [Function.update_of_ne (Finset.ne_of_mem_erase hj)]
  have hnew := Finset.add_sum_erase Finset.univ (fun j => w (Function.update f i b j))
    (Finset.mem_univ i)
  have hold := Finset.add_sum_erase Finset.univ (fun j => w (f j)) (Finset.mem_univ i)
  simp only [Function.update_self] at hnew
  omega

namespace Custody

variable {Place Thing Token : Type*} {token : Thing → Token} {held held' : Place → List Thing}
  {y : Thing} {entered new : List Token}

section Conserved

variable [Fintype Place] [DecidableEq Token]

/-- Every token is held as often as it came in. -/
def Conserved (token : Thing → Token) (held : Place → List Thing) (entered : List Token) : Prop :=
  ∀ t, ∑ p, ((held p).map token).count t = entered.count t

theorem Conserved.count_le (h : Conserved token held entered) (p : Place) (t : Token) :
    ((held p).map token).count t ≤ entered.count t := by
  rw [← h t]
  exact Finset.single_le_sum (f := fun p => ((held p).map token).count t)
    (fun _ _ => Nat.zero_le _) (Finset.mem_univ p)

/-- Two places hold no more than came in. -/
theorem Conserved.length_add_le (h : Conserved token held entered) {p q : Place} (hne : p ≠ q) :
    (held p).length + (held q).length ≤ entered.length := by
  classical
  have hlen (r : Place) : (held r).length = ((held r).map token).length :=
    (List.length_map token).symm
  rw [hlen p, hlen q, ← List.length_append]
  refine (List.subperm_ext_iff.mpr fun t _ => ?_).length_le
  rw [List.count_append, ← h t,
    ← Finset.sum_pair (f := fun p => ((held p).map token).count t) hne]
  exact Finset.sum_le_sum_of_subset (Finset.subset_univ _)

/-- Where no token came in twice, a place holds none twice. -/
theorem Conserved.nodup (h : Conserved token held entered) (hnd : entered.Nodup) (p : Place) :
    ((held p).map token).Nodup :=
  List.nodup_iff_count_le_one.mpr fun t =>
    le_trans (h.count_le p t) (List.nodup_iff_count_le_one.mp hnd t)

/-- **Exactly one place**: where no token came in twice, each one is held in one place, once. -/
theorem Conserved.once (h : Conserved token held entered) (hnd : entered.Nodup) {t : Token}
    (ht : t ∈ entered) :
    ∃ p, ((held p).map token).count t = 1 ∧ ∀ q, q ≠ p → t ∉ (held q).map token := by
  classical
  have hone : ∑ p, ((held p).map token).count t = 1 :=
    (h t).trans (List.count_eq_one_of_mem hnd ht)
  obtain ⟨p, -, hp⟩ : ∃ p ∈ Finset.univ, ((held p).map token).count t ≠ 0 :=
    Finset.exists_ne_zero_of_sum_ne_zero (by rw [hone]; exact Nat.one_ne_zero)
  have hsplit := Finset.add_sum_erase Finset.univ (fun p => ((held p).map token).count t)
    (Finset.mem_univ p)
  refine ⟨p, by omega, fun q hq => ?_⟩
  have hother : ∑ p ∈ Finset.univ.erase p, ((held p).map token).count t = 0 := by omega
  exact List.count_eq_zero.mp
    (Finset.sum_eq_zero_iff.mp hother q (Finset.mem_erase.mpr ⟨hq, Finset.mem_univ q⟩))

end Conserved

/-! ## Moves -/

variable [DecidableEq Place]

/-- A step, with the thing that is new or changed and the tokens it lets in. -/
inductive Move (token : Thing → Token) (held : Place → List Thing) :
    Thing → (Place → List Thing) → List Token → Prop
  | enter {p : Place} (y : Thing) :
    Move token held y (Function.update held p (held p ++ [y])) [token y]
  | change {p : Place} {x y : Thing} {rest : List Thing} (h : held p = x :: rest)
    (hxy : token y = token x) : Move token held y (Function.update held p (y :: rest)) []
  | move {p q : Place} {x y : Thing} {rest : List Thing} (hne : p ≠ q) (h : held p = x :: rest)
    (hxy : token y = token x) :
    Move token held y (Function.update (Function.update held p rest) q (held q ++ [y])) []

/-- What holds of all things held and of the changed one holds of all things held afterwards. -/
theorem Move.all {G : Thing → Prop} (hmove : Move token held y held' new)
    (h : ∀ p, ∀ x ∈ held p, G x) (hy : G y) : ∀ p, ∀ x ∈ held' p, G x := by
  intro r x hx
  cases hmove with
  | @enter p =>
    by_cases hr : r = p
    · subst hr
      rw [Function.update_self, List.mem_append, List.mem_singleton] at hx
      rcases hx with hx | rfl
      · exact h r x hx
      · exact hy
    · rw [Function.update_of_ne hr] at hx
      exact h r x hx
  | @change p z _ rest hp =>
    by_cases hr : r = p
    · subst hr
      rw [Function.update_self, List.mem_cons] at hx
      rcases hx with rfl | hx
      · exact hy
      · exact h r x (hp ▸ List.mem_cons_of_mem _ hx)
    · rw [Function.update_of_ne hr] at hx
      exact h r x hx
  | @move p q z _ rest hne hp =>
    by_cases hq : r = q
    · subst hq
      rw [Function.update_self, List.mem_append, List.mem_singleton] at hx
      rcases hx with hx | rfl
      · exact h r x hx
      · exact hy
    · rw [Function.update_of_ne hq] at hx
      by_cases hr : r = p
      · subst hr
        rw [Function.update_self] at hx
        exact h r x (hp ▸ List.mem_cons_of_mem _ hx)
      · rw [Function.update_of_ne hr] at hx
        exact h r x hx

/-- **Nothing is lost and nothing is doubled** by a step. -/
theorem Conserved.step [Fintype Place] [DecidableEq Token]
    (h : Conserved token held entered) (hmove : Move token held y held' new) :
    Conserved token held' (entered ++ new) := by
  intro t
  have ht := h t
  have hsum (f : Place → List Thing) (p : Place) (xs : List Thing) :=
    sum_update (fun l : List Thing => (l.map token).count t) f p xs
  rw [List.count_append]
  cases hmove with
  | @enter p =>
    have := hsum held p (held p ++ [y])
    simp only [List.map_append, List.count_append, List.map_cons, List.map_nil] at this
    omega
  | @change p x _ rest hp hxy =>
    have := hsum held p (y :: rest)
    simp only [hp, List.map_cons, hxy, List.count_cons] at this
    rw [List.count_nil]
    omega
  | @move p q x _ rest hne hp hxy =>
    have h₁ := hsum held p rest
    have h₂ := hsum (Function.update held p rest) q (held q ++ [y])
    rw [Function.update_of_ne hne.symm] at h₂
    simp only [hp, List.map_cons, List.map_nil, List.map_append, List.count_append, hxy,
      List.count_cons, List.count_nil] at h₁ h₂
    rw [List.count_nil]
    omega

end Custody

end Holchain.Lib
