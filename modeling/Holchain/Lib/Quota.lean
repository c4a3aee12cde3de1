import Mathlib

/-!
# Lib.Quota — words over disjoint alphabets

A word over alphabets that have no letter in common has as many letters as the alphabets count in
it. Where each alphabet has at least a number of letters in the word, the word can be parted into one
that has exactly these numbers and a rest (`exists_parts`).
-/

namespace Holchain.Lib

variable {A : Type} [DecidableEq A]

/-- The letters of the word that are in the alphabet. -/
def tally (alphabet word : List A) : ℕ := word.countP fun a => decide (a ∈ alphabet)

/-- No letter is in two of the alphabets. -/
def Apart (alphabets : List (List A)) : Prop := alphabets.Pairwise List.Disjoint

/-- Every letter of the word is in one of the alphabets. -/
def Over (alphabets : List (List A)) (word : List A) : Prop :=
  ∀ a ∈ word, ∃ alphabet ∈ alphabets, a ∈ alphabet

variable {alphabet : List A} {alphabets : List (List A)} {word word' : List A} {a : A}

omit [DecidableEq A] in
/-- A letter has one alphabet. -/
theorem eq_of_mem {B : Type} {xs : List B} {alphabetOf : B → List A}
    (h : Apart (xs.map alphabetOf)) {x y : B} (hx : x ∈ xs) (hy : y ∈ xs) (hax : a ∈ alphabetOf x)
    (hay : a ∈ alphabetOf y) : x = y := by
  by_contra hne
  have hpairwise : xs.Pairwise fun x y => (alphabetOf x).Disjoint (alphabetOf y) :=
    List.pairwise_map.mp h
  have hsymm : Std.Symm fun x y : B => (alphabetOf x).Disjoint (alphabetOf y) :=
    ⟨fun _ _ hdisjoint _ hay hax => hdisjoint hax hay⟩
  exact hpairwise.forall hx hy hne hax hay

theorem tally_cons (alphabet : List A) (a : A) (word : List A) :
    tally alphabet (a :: word) = tally alphabet word + if a ∈ alphabet then 1 else 0 := by
  rw [tally, List.countP_cons, tally]
  simp only [decide_eq_true_eq]

theorem tally_append (alphabet word word' : List A) :
    tally alphabet (word ++ word') = tally alphabet word + tally alphabet word' :=
  List.countP_append

theorem tally_perm (h : word.Perm word') : tally alphabet word = tally alphabet word' :=
  h.countP_eq _

theorem tally_zero (h : ∀ a ∈ word, a ∉ alphabet) : tally alphabet word = 0 :=
  List.countP_eq_zero.mpr fun a ha => by simpa using h a ha

theorem tally_all (h : ∀ a ∈ word, a ∈ alphabet) : tally alphabet word = word.length :=
  List.countP_eq_length.mpr fun a ha => by simpa using h a ha

theorem tally_le_length (alphabet word : List A) : tally alphabet word ≤ word.length :=
  List.countP_le_length

/-- The letters of two alphabets that are apart. -/
theorem tally_add_le {alphabet' : List A} (h : alphabet.Disjoint alphabet') (word : List A) :
    tally alphabet word + tally alphabet' word ≤ word.length := by
  induction word with
  | nil => exact le_refl 0
  | cons a word ih =>
    have hone : a ∈ alphabet → a ∉ alphabet' := fun ha ha' => h ha ha'
    rw [tally_cons, tally_cons, List.length_cons]
    split
    · next ha =>
      rw [if_neg (hone ha)]
      omega
    · split
      · omega
      · omega

omit [DecidableEq A] in
theorem Over.perm (h : Over alphabets word) (hperm : word.Perm word') : Over alphabets word' :=
  fun a ha => h a (hperm.mem_iff.mpr ha)

/-- The letters of an alphabet and the others. -/
theorem filter_perm (alphabet word : List A) :
    (word.filter (fun a => decide (a ∈ alphabet))
      ++ word.filter (fun a => !decide (a ∈ alphabet))).Perm word :=
  List.filter_append_perm _ word

/-- What is left without the letters of the first alphabet. -/
theorem Over.rest (h : Over (alphabet :: alphabets) word) :
    Over alphabets (word.filter fun a => !decide (a ∈ alphabet)) := by
  intro a ha
  obtain ⟨hmem, hnot⟩ := List.mem_filter.mp ha
  obtain ⟨alphabet', halphabet, hin⟩ := h a hmem
  rcases List.mem_cons.mp halphabet with rfl | halphabet
  · simp only [hin, decide_true, Bool.not_true, Bool.false_eq_true] at hnot
  · exact ⟨alphabet', halphabet, hin⟩

/-- For an alphabet apart from the first one nothing is missing in the rest. -/
theorem tally_rest {alphabet' : List A} (h : alphabet.Disjoint alphabet') (word : List A) :
    tally alphabet' (word.filter fun a => !decide (a ∈ alphabet)) = tally alphabet' word := by
  rw [← tally_perm (filter_perm alphabet word), tally_append]
  have hnone : tally alphabet' (word.filter fun a => decide (a ∈ alphabet)) = 0 :=
    tally_zero fun a ha => h (of_decide_eq_true (List.mem_filter.mp ha).2)
  rw [hnone, Nat.zero_add]

/-- **A word is as long as its alphabets count.** -/
theorem length_eq_sum (hapart : Apart alphabets) (hover : Over alphabets word) :
    word.length = (alphabets.map fun alphabet => tally alphabet word).sum := by
  induction alphabets generalizing word with
  | nil =>
    cases word with
    | nil => rfl
    | cons a word =>
      obtain ⟨_, h, -⟩ := hover a List.mem_cons_self
      cases h
  | cons alphabet alphabets ih =>
    obtain ⟨hfirst, hrest⟩ := List.pairwise_cons.mp hapart
    have hlength := (filter_perm alphabet word).length_eq
    rw [List.length_append, ih hrest hover.rest] at hlength
    rw [List.map_cons, List.sum_cons, ← hlength, ← List.countP_eq_length_filter, tally]
    congr 2
    exact List.map_congr_left fun alphabet' h => tally_rest (hfirst alphabet' h) word

omit [DecidableEq A] in
/-- Numbers that are at most others with the same sum are these. -/
theorem eq_of_sum_eq {xs : List A} {f g : A → ℕ} (hle : ∀ x ∈ xs, f x ≤ g x)
    (hsum : (xs.map f).sum = (xs.map g).sum) : ∀ x ∈ xs, f x = g x := by
  induction xs with
  | nil => exact fun x hx => nomatch hx
  | cons x xs ih =>
    obtain ⟨hx, hxs⟩ := List.forall_mem_cons.mp hle
    have hrest : (xs.map f).sum ≤ (xs.map g).sum := List.sum_le_sum hxs
    rw [List.map_cons, List.sum_cons, List.map_cons, List.sum_cons] at hsum
    exact List.forall_mem_cons.mpr ⟨by omega, ih hxs (by omega)⟩

/-- **A part with given numbers of letters**, and the rest. -/
theorem exists_parts {quotas : List (ℕ × List A)} (hapart : Apart (quotas.map (·.2)))
    (hover : Over (quotas.map (·.2)) word) (hquota : ∀ q ∈ quotas, q.1 ≤ tally q.2 word) :
    ∃ part rest, (part ++ rest).Perm word ∧ ∀ q ∈ quotas, tally q.2 part = q.1 := by
  induction quotas generalizing word with
  | nil => exact ⟨[], word, .refl _, fun q hq => nomatch hq⟩
  | cons q quotas ih =>
    obtain ⟨hfirst, hrest⟩ := List.pairwise_cons.mp hapart
    have htally (q' : ℕ × List A) (hq' : q' ∈ quotas) :
        tally q'.2 (word.filter fun a => !decide (a ∈ q.2)) = tally q'.2 word :=
      tally_rest (hfirst q'.2 (List.mem_map_of_mem hq')) word
    obtain ⟨part, rest, hperm, hpart⟩ := ih hrest hover.rest fun q' hq' => by
      rw [htally q' hq']
      exact hquota q' (List.mem_cons_of_mem q hq')
    have hletters : ∀ a ∈ word.filter fun a => decide (a ∈ q.2), a ∈ q.2 :=
      fun a ha => of_decide_eq_true (List.mem_filter.mp ha).2
    have hothers : ∀ a ∈ part, a ∉ q.2 := by
      intro a ha hin
      have hmem := hperm.mem_iff.mp (List.mem_append_left rest ha)
      simpa only [hin, decide_true, Bool.not_true, Bool.false_eq_true] using
        (List.mem_filter.mp hmem).2
    let letters := word.filter fun a => decide (a ∈ q.2)
    refine ⟨letters.take q.1 ++ part, letters.drop q.1 ++ rest, ?_, ?_⟩
    · calc
        (letters.take q.1 ++ part ++ (letters.drop q.1 ++ rest)).Perm
            (letters.take q.1 ++ (letters.drop q.1 ++ (part ++ rest))) := by
          rw [List.append_assoc]
          exact (List.perm_append_comm_assoc part (letters.drop q.1) rest).append_left _
        _ = letters ++ (part ++ rest) := by rw [← List.append_assoc, List.take_append_drop]
        List.Perm _ word := (hperm.append_left letters).trans (filter_perm q.2 word)
    · refine List.forall_mem_cons.mpr ⟨?_, fun q' hq' => ?_⟩
      · have hfew := hquota q List.mem_cons_self
        rw [tally, List.countP_eq_length_filter] at hfew
        rw [tally_append, tally_zero hothers, tally_all fun a ha => hletters a (List.mem_of_mem_take ha),
          List.length_take_of_le hfew, Nat.add_zero]
      · rw [tally_append, hpart q' hq', tally_zero, Nat.zero_add]
        intro a ha
        exact hfirst q'.2 (List.mem_map_of_mem hq') (hletters a (List.mem_of_mem_take ha))

end Holchain.Lib
