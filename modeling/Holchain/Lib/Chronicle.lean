import Mathlib.Data.List.Sort

/-!
# Lib.Chronicle — entries in the order of their times

A listing of entries has them in the order of their keys, and those of one key in the order in which
they were made. There is one such listing (`Listed.unique`), and an entry that is made next goes
behind all that are not later (`insertBehind_inOrder`).
-/

namespace Holchain.Lib

variable {A K : Type} [LinearOrder K]

/-- The entries of one key. -/
def ofKey (key : A → K) (k : K) (entries : List A) : List A :=
  entries.filter fun a => decide (key a = k)

/-- The entries in the order of their keys, those of one key as they were made. -/
structure Listed (key : A → K) (history listing : List A) : Prop where
  perm : listing.Perm history
  sorted : listing.Pairwise fun a b => key a ≤ key b
  stable : ∀ k, ofKey key k listing = ofKey key k history

variable {key : A → K} {k : K} {a : A} {history listing listing' : List A}

theorem mem_ofKey : a ∈ ofKey key k listing ↔ a ∈ listing ∧ key a = k := by
  rw [ofKey, List.mem_filter, decide_eq_true_iff]

theorem ofKey_cons_pos (h : key a = k) (entries : List A) :
    ofKey key k (a :: entries) = a :: ofKey key k entries :=
  List.filter_cons_of_pos (decide_eq_true h)

theorem ofKey_cons_neg (h : key a ≠ k) (entries : List A) :
    ofKey key k (a :: entries) = ofKey key k entries :=
  List.filter_cons_of_neg fun htrue => h (of_decide_eq_true htrue)

/-- Sorted lists that have the same entries of each key are the same. -/
theorem eq_of_ofKey_eq (h : listing.Pairwise fun a b => key a ≤ key b)
    (h' : listing'.Pairwise fun a b => key a ≤ key b)
    (hkeys : ∀ k, ofKey key k listing = ofKey key k listing') : listing = listing' := by
  have hmem (a : A) : a ∈ listing ↔ a ∈ listing' := by
    have hin : a ∈ ofKey key (key a) listing ↔ a ∈ ofKey key (key a) listing' := by
      rw [hkeys (key a)]
    rwa [mem_ofKey, mem_ofKey, and_iff_left rfl, and_iff_left rfl] at hin
  induction listing generalizing listing' with
  | nil =>
    cases listing' with
    | nil => rfl
    | cons b listing' => exact nomatch (hmem b).mpr List.mem_cons_self
  | cons a listing ih =>
    cases listing' with
    | nil => exact nomatch (hmem a).mp List.mem_cons_self
    | cons b listing' =>
      obtain ⟨hfirst, hrest⟩ := List.pairwise_cons.mp h
      obtain ⟨hfirst', hrest'⟩ := List.pairwise_cons.mp h'
      have hle : key b ≤ key a := by
        rcases List.mem_cons.mp ((hmem a).mp List.mem_cons_self) with rfl | hin
        · exact le_refl _
        · exact hfirst' a hin
      have hge : key a ≤ key b := by
        rcases List.mem_cons.mp ((hmem b).mpr List.mem_cons_self) with rfl | hin
        · exact le_refl _
        · exact hfirst b hin
      have hhead := hkeys (key a)
      rw [ofKey_cons_pos rfl, ofKey_cons_pos (le_antisymm hle hge)] at hhead
      obtain ⟨rfl, -⟩ := List.cons.inj hhead
      have hothers (k : K) : ofKey key k listing = ofKey key k listing' := by
        have hk := hkeys k
        by_cases hak : key a = k
        · rw [ofKey_cons_pos hak, ofKey_cons_pos hak] at hk
          exact (List.cons.inj hk).2
        · rwa [ofKey_cons_neg hak, ofKey_cons_neg hak] at hk
      rw [ih hrest hrest' hothers fun c => ?_]
      have hin : c ∈ ofKey key (key c) listing ↔ c ∈ ofKey key (key c) listing' := by
        rw [hothers (key c)]
      rwa [mem_ofKey, mem_ofKey, and_iff_left rfl, and_iff_left rfl] at hin

/-- **There is one listing.** -/
theorem Listed.unique (h : Listed key history listing) (h' : Listed key history listing') :
    listing = listing' :=
  eq_of_ofKey_eq h.sorted h'.sorted fun k => (h.stable k).trans (h'.stable k).symm

/-! ## The listing -/

/-- The entries sorted by their keys. -/
def inOrder (key : A → K) (history : List A) : List A :=
  history.mergeSort fun a b => decide (key a ≤ key b)

theorem listed_inOrder (key : A → K) (history : List A) :
    Listed key history (inOrder key history) := by
  have htrans (a b c : A) : decide (key a ≤ key b) = true → decide (key b ≤ key c) = true →
      decide (key a ≤ key c) = true := fun hab hbc =>
    decide_eq_true (le_trans (of_decide_eq_true hab) (of_decide_eq_true hbc))
  have htotal (a b : A) : (decide (key a ≤ key b) || decide (key b ≤ key a)) = true := by
    rcases le_total (key a) (key b) with h | h
    · rw [decide_eq_true h, Bool.true_or]
    · rw [decide_eq_true h, Bool.or_true]
  have hperm : (inOrder key history).Perm history := List.mergeSort_perm _ _
  refine ⟨hperm, ?_, fun k => ?_⟩
  · exact (List.pairwise_mergeSort htrans htotal history).imp of_decide_eq_true
  · -- the entries of one key are sorted, so they stay in their order
    have hsame : (ofKey key k history).Pairwise fun a b => decide (key a ≤ key b) = true := by
      apply List.pairwise_of_forall_mem_list
      intro a ha b hb
      rw [(mem_ofKey.mp ha).2, (mem_ofKey.mp hb).2]
      exact decide_eq_true (le_refl k)
    have hsublist := List.sublist_mergeSort htrans htotal hsame List.filter_sublist
    have hfilter := hsublist.filter fun a => decide (key a = k)
    rw [ofKey, List.filter_filter] at hfilter
    simp only [Bool.and_self] at hfilter
    exact (hfilter.eq_of_length (hperm.filter _).length_eq.symm).symm

/-! ## The next entry -/

/-- An entry behind all that are not later. -/
def insertBehind (key : A → K) (a : A) : List A → List A
  | [] => [a]
  | b :: rest => if key a < key b then a :: b :: rest else b :: insertBehind key a rest

theorem insertBehind_perm (key : A → K) (a : A) (listing : List A) :
    (insertBehind key a listing).Perm (a :: listing) := by
  induction listing with
  | nil => exact .refl _
  | cons b listing ih =>
    rw [insertBehind]
    split
    · exact .refl _
    · exact (ih.cons b).trans (.swap a b listing)

theorem sorted_insertBehind (h : listing.Pairwise fun a b => key a ≤ key b) (a : A) :
    (insertBehind key a listing).Pairwise fun a b => key a ≤ key b := by
  induction listing with
  | nil => exact List.pairwise_singleton _ _
  | cons b listing ih =>
    obtain ⟨hfirst, hrest⟩ := List.pairwise_cons.mp h
    rw [insertBehind]
    split
    · next hlt =>
      refine List.pairwise_cons.mpr ⟨fun c hc => ?_, h⟩
      rcases List.mem_cons.mp hc with rfl | hc
      · exact hlt.le
      · exact hlt.le.trans (hfirst c hc)
    · next hnot =>
      refine List.pairwise_cons.mpr ⟨fun c hc => ?_, ih hrest⟩
      rcases List.mem_cons.mp ((insertBehind_perm key a listing).mem_iff.mp hc) with rfl | hc
      · exact not_lt.mp hnot
      · exact hfirst c hc

/-- The entries of each key are as they were, and the new one is the last of its own. -/
theorem ofKey_insertBehind (h : listing.Pairwise fun a b => key a ≤ key b) (a : A) (k : K) :
    ofKey key k (insertBehind key a listing) = ofKey key k listing ++ ofKey key k [a] := by
  induction listing with
  | nil => rfl
  | cons b listing ih =>
    obtain ⟨hfirst, hrest⟩ := List.pairwise_cons.mp h
    rw [insertBehind]
    split
    · next hlt =>
      by_cases hk : key a = k
      · -- the others are later
        have hnone : ofKey key k (b :: listing) = [] := by
          apply List.eq_nil_iff_forall_not_mem.mpr
          intro c hc
          obtain ⟨hc, hck⟩ := mem_ofKey.mp hc
          have hlate : key b ≤ key c := by
            rcases List.mem_cons.mp hc with rfl | hc
            · exact le_refl _
            · exact hfirst c hc
          exact absurd (hck.trans hk.symm) (hlt.trans_le hlate).ne'
        rw [ofKey_cons_pos hk, ofKey_cons_pos hk, hnone]
        rfl
      · rw [ofKey_cons_neg hk, ofKey_cons_neg hk]
        exact (List.append_nil _).symm
    · by_cases hk : key b = k
      · rw [ofKey_cons_pos hk, ofKey_cons_pos hk, ih hrest, List.cons_append]
      · rw [ofKey_cons_neg hk, ofKey_cons_neg hk, ih hrest]

/-- **The next entry goes behind the others of its key.** -/
theorem Listed.insertBehind (h : Listed key history listing) (a : A) :
    Listed key (history ++ [a]) (Lib.insertBehind key a listing) where
  perm := (insertBehind_perm key a listing).trans
    ((h.perm.cons a).trans (List.perm_append_singleton a history).symm)
  sorted := sorted_insertBehind h.sorted a
  stable k := by
    rw [ofKey_insertBehind h.sorted, h.stable]
    exact (List.filter_append _ _).symm

theorem insertBehind_inOrder (key : A → K) (history : List A) (a : A) :
    insertBehind key a (inOrder key history) = inOrder key (history ++ [a]) :=
  ((listed_inOrder key history).insertBehind a).unique (listed_inOrder key _)

end Holchain.Lib
