import Mathlib.Data.List.Basic
import Mathlib.Data.List.Perm.Basic

/-!
# Greedy walks along labelled edges

`walk next s is` follows a word letter by letter for as long as there is a next state. Where the
next state is the one the edges give, the walk ends at the end of the longest prefix of the word
that spells a path, and nothing else does (`walk_isFurthest`, `IsFurthest.eq_walk`).

First-match search is the other half: in a list where at most one element matches, the order of
the elements does not matter (`find?_eq_some_of_unique`).
-/

namespace Holchain.Lib

variable {σ ι : Type*}

/-- Follow a word for as long as there is a next state. -/
def walk (next : σ → ι → Option σ) : σ → List ι → σ
  | s, [] => s
  | s, i :: is =>
    match next s i with
    | none => s
    | some t => walk next t is

/-- The word spells a path from the first state to the second. -/
inductive Path (edge : σ → ι → σ → Prop) : σ → List ι → σ → Prop
  | nil (s : σ) : Path edge s [] s
  | cons {s t u : σ} {i : ι} {is : List ι} : edge s i t → Path edge t is u → Path edge s (i :: is) u

/-- The state is the end of the longest prefix of the word that spells a path. -/
def IsFurthest (edge : σ → ι → σ → Prop) (s : σ) (is : List ι) (t : σ) : Prop :=
  ∃ pre post, is = pre ++ post ∧ Path edge s pre t
    ∧ ∀ pre' post' u, is = pre' ++ post' → Path edge s pre' u → pre'.length ≤ pre.length

variable {next : σ → ι → Option σ} {edge : σ → ι → σ → Prop} {Good : σ → Prop}

/-- **The walk ends at the end of the longest prefix that spells a path**, among states where the
edges are what `next` finds. -/
theorem walk_isFurthest (hnext : ∀ s i t, Good s → (next s i = some t ↔ edge s i t))
    (hgood : ∀ s i t, Good s → edge s i t → Good t) {s : σ} (hs : Good s) (is : List ι) :
    IsFurthest edge s is (walk next s is) := by
  induction is generalizing s with
  | nil =>
    refine ⟨[], [], rfl, .nil s, fun pre' post' u heq _ => ?_⟩
    have hnil : pre' = [] := (List.append_eq_nil_iff.mp heq.symm).1
    exact Nat.le_of_eq (congrArg List.length hnil)
  | cons i is ih =>
    unfold walk
    cases hn : next s i with
    | none =>
      refine ⟨[], i :: is, rfl, .nil s, fun pre' post' u heq hp => ?_⟩
      cases hp with
      | nil => exact Nat.le_refl 0
      | @cons _ t _ j js he _ =>
        obtain rfl : i = j := (List.cons.inj heq).1
        rw [(hnext s i t hs).mpr he] at hn
        cases hn
    | some t =>
      have he := (hnext s i t hs).mp hn
      obtain ⟨pre, post, hsplit, hpath, hmax⟩ := ih (hgood s i t hs he)
      refine ⟨i :: pre, post, by rw [hsplit]; rfl, .cons he hpath, fun pre' post' u heq hp => ?_⟩
      cases hp with
      | nil => exact Nat.zero_le _
      | @cons _ t' _ j js he' hp' =>
        obtain ⟨rfl, hrest⟩ := List.cons.inj heq
        have ht : t' = t := Option.some.inj (((hnext s i t' hs).mpr he').symm.trans hn)
        exact Nat.succ_le_succ (hmax js post' u hrest (ht ▸ hp'))

/-- A word spells at most one path. -/
theorem Path.unique (hnext : ∀ s i t, Good s → (next s i = some t ↔ edge s i t))
    (hgood : ∀ s i t, Good s → edge s i t → Good t) {s t u : σ} {is : List ι} (hs : Good s)
    (ht : Path edge s is t) (hu : Path edge s is u) : t = u := by
  induction ht with
  | nil => cases hu; rfl
  | @cons s t' _ i is he _ ih =>
    cases hu with
    | @cons _ u' _ _ _ he' hu' =>
      have heq : t' = u' := Option.some.inj
        (((hnext s i t' hs).mpr he).symm.trans ((hnext s i u' hs).mpr he'))
      subst heq
      exact ih (hgood s i t' hs he) hu'

/-- **Only the walk's end is the end of the longest prefix that spells a path.** -/
theorem IsFurthest.eq_walk (hnext : ∀ s i t, Good s → (next s i = some t ↔ edge s i t))
    (hgood : ∀ s i t, Good s → edge s i t → Good t) {s t : σ} {is : List ι} (hs : Good s)
    (ht : IsFurthest edge s is t) : t = walk next s is := by
  obtain ⟨pre, post, hsplit, hpath, hmax⟩ := ht
  obtain ⟨pre', post', hsplit', hpath', hmax'⟩ := walk_isFurthest hnext hgood hs is
  have hlen : pre.length = pre'.length :=
    Nat.le_antisymm (hmax' pre post t hsplit hpath) (hmax pre' post' _ hsplit' hpath')
  obtain ⟨rfl, -⟩ := List.append_inj (hsplit.symm.trans hsplit') hlen
  exact Path.unique hnext hgood hs hpath hpath'

/-- A path along two words is a path along the first and one along the second. -/
theorem Path.split {s u : σ} {pre post : List ι} (h : Path edge s (pre ++ post) u) :
    ∃ t, Path edge s pre t ∧ Path edge t post u := by
  induction pre generalizing s with
  | nil => exact ⟨s, .nil s, h⟩
  | cons i pre ih =>
    cases h with
    | cons he hrest =>
      obtain ⟨t, hpre, hpost⟩ := ih hrest
      exact ⟨t, .cons he hpre, hpost⟩

/-- The walk goes along the path to the state that the next letter does not lead out of. -/
theorem walk_eq_of_stuck (hnext : ∀ s i t, Good s → (next s i = some t ↔ edge s i t))
    (hgood : ∀ s i t, Good s → edge s i t → Good t) {s t : σ} {pre : List ι} {i : ι}
    (hs : Good s) (hpath : Path edge s pre t) (hstuck : ∀ u, ¬ edge t i u) (post : List ι) :
    walk next s (pre ++ i :: post) = t := by
  induction hpath with
  | nil s =>
    show walk next s (i :: post) = s
    unfold walk
    cases hn : next s i with
    | none => rfl
    | some u => exact absurd ((hnext s i u hs).mp hn) (hstuck u)
  | @cons s t' _ j js he _ ih =>
    show walk next s (j :: (js ++ i :: post)) = _
    unfold walk
    rw [(hnext s j t' hs).mpr he]
    exact ih (hgood s j t' hs he) hstuck

/-- The walk goes along the whole word, or stops where the next letter does not lead on. -/
theorem walk_path_or_stuck (hnext : ∀ s i t, Good s → (next s i = some t ↔ edge s i t))
    (hgood : ∀ s i t, Good s → edge s i t → Good t) {s : σ} (hs : Good s) (is : List ι) :
    Path edge s is (walk next s is)
      ∨ ∃ pre i post, is = pre ++ i :: post ∧ Path edge s pre (walk next s is)
        ∧ ∀ u, ¬ edge (walk next s is) i u := by
  induction is generalizing s with
  | nil => exact .inl (.nil s)
  | cons i is ih =>
    unfold walk
    cases hn : next s i with
    | none =>
      refine .inr ⟨[], i, is, rfl, .nil s, fun u hu => ?_⟩
      rw [(hnext s i u hs).mpr hu] at hn
      cases hn
    | some t =>
      have he := (hnext s i t hs).mp hn
      rcases ih (hgood s i t hs he) with hall | ⟨pre, j, post, heq, hpath, hstuck⟩
      · exact .inl (.cons he hall)
      · exact .inr ⟨i :: pre, j, post, by rw [heq]; rfl, .cons he hpath, hstuck⟩

/-- A word along which the walk gets stuck spells no path. -/
theorem Path.not_of_stuck (hnext : ∀ s i t, Good s → (next s i = some t ↔ edge s i t))
    (hgood : ∀ s i t, Good s → edge s i t → Good t) {s t u : σ} {pre post : List ι} {i : ι}
    (hs : Good s) (hpath : Path edge s pre t) (hstuck : ∀ u, ¬ edge t i u) :
    ¬ Path edge s (pre ++ i :: post) u := by
  intro hall
  obtain ⟨t', hpre, hpost⟩ := hall.split
  obtain rfl := Path.unique hnext hgood hs hpath hpre
  cases hpost with
  | cons he _ => exact hstuck _ he

/-- In a list where at most one element matches, the first match is any match. -/
theorem find?_eq_some_of_unique {α : Type*} {p : α → Bool} {l : List α} {a : α}
    (hunique : ∀ x ∈ l, ∀ y ∈ l, p x = true → p y = true → x = y) (ha : a ∈ l) (hp : p a = true) :
    l.find? p = some a := by
  cases hf : l.find? p with
  | none => exact absurd hp (by simpa using List.find?_eq_none.mp hf a ha)
  | some b =>
    rw [hunique a ha b (List.mem_of_find?_eq_some hf) hp (List.find?_some hf)]

end Holchain.Lib
