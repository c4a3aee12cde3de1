import Mathlib.Data.List.Count
import Mathlib.Data.List.Perm.Basic

/-!
# Lib.Merge — entries of several sources

Entries come from several sources, in any order between them. Two listings that have the same entries
of each source, in the same order, have the same entries (`perm_of_ofSource_eq`).
-/

namespace Holchain.Lib

variable {A K : Type} [DecidableEq K] {source : A → K} {entries entries' : List A}

/-- The entries of one source. -/
def ofSource (source : A → K) (k : K) (entries : List A) : List A :=
  entries.filter fun a => decide (source a = k)

@[simp] theorem ofSource_nil (source : A → K) (k : K) : ofSource source k [] = [] := rfl

@[simp] theorem ofSource_append (source : A → K) (k : K) (entries entries' : List A) :
    ofSource source k (entries ++ entries') = ofSource source k entries ++ ofSource source k entries' :=
  List.filter_append _ _

theorem ofSource_self {a : A} {k : K} (h : source a = k) : ofSource source k [a] = [a] := by
  simp [ofSource, h]

theorem ofSource_ne {a : A} {k : K} (h : source a ≠ k) : ofSource source k [a] = [] := by
  simp [ofSource, h]

/-- **The same entries of each source** are the same entries. -/
theorem perm_of_ofSource_eq (source : A → K)
    (h : ∀ k, ofSource source k entries = ofSource source k entries') : entries.Perm entries' := by
  classical
  apply List.perm_iff_count.mpr
  intro a
  have hcount (l : List A) : (ofSource source (source a) l).count a = l.count a :=
    List.count_filter (decide_eq_true rfl)
  rw [← hcount entries, ← hcount entries', h]

end Holchain.Lib
