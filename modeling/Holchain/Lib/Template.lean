import Holchain.Lib.Pieces

/-!
# Lib.Template — texts with groups of alternatives

A line is read as texts with a group behind each, and the text behind the last group (`Reads`). A group
goes from an opening delimiter to the next closing one, or to the end of the line; what stands between
is cut in alternatives. A line is read in one way (`reads_exists`, `Reads.unique`), and an expansion has
one alternative of each group in its place (`fill`).
-/

namespace Holchain.Lib

variable {α : Type}

/-- A group, and the text in front of it. -/
structure Slot (α : Type) where
  before : List α
  alternatives : List (List α)
  nonempty : alternatives ≠ []

/-- The groups of a line, and the text behind them. -/
inductive Reads (opening closing bar : α) : List α → List (Slot α) → List α → Prop
  | text {t : List α} : opening ∉ t → Reads opening closing bar t [] t
  | closed {t body rest last : List α} {alternatives : List (List α)} {groups : List (Slot α)} :
    opening ∉ t → closing ∉ body → (h : Pieces bar body alternatives) →
    Reads opening closing bar rest groups last →
    Reads opening closing bar (t ++ opening :: (body ++ closing :: rest))
      (⟨t, alternatives, h.nonempty⟩ :: groups) last
  | unclosed {t body : List α} {alternatives : List (List α)} :
    opening ∉ t → closing ∉ body → (h : Pieces bar body alternatives) →
    Reads opening closing bar (t ++ opening :: body) [⟨t, alternatives, h.nonempty⟩] []

/-- One alternative of each group. -/
def Chosen (groups : List (Slot α)) (choices : List (List α)) : Prop :=
  List.Forall₂ (fun g c => c ∈ g.alternatives) groups choices

/-- The line with these alternatives in the places of the groups. -/
def fill : List (Slot α) → List (List α) → List α → List α
  | g :: groups, c :: choices, last => g.before ++ c ++ fill groups choices last
  | _, _, last => last

variable {opening closing bar : α} {line last last' : List α} {groups groups' : List (Slot α)}

theorem mem_cut (d : α) (p s : List α) : d ∈ p ++ d :: s :=
  List.mem_append_right p List.mem_cons_self

variable [DecidableEq α]

/-- The first delimiter cuts a list in one way. -/
theorem cut_inj {d : α} {p p' s s' : List α} (hp : d ∉ p) (hp' : d ∉ p')
    (h : p ++ d :: s = p' ++ d :: s') : p = p' ∧ s = s' := by
  have hsplit := congrArg (List.idxOf? d) h
  rw [idxOf?_cut hp, idxOf?_cut hp'] at hsplit
  obtain ⟨hpiece, hrest⟩ := List.append_inj h (Option.some.inj hsplit)
  exact ⟨hpiece, (List.cons.inj hrest).2⟩

/-- Every line can be read. -/
theorem reads_exists (opening closing bar : α) (line : List α) :
    ∃ groups last, Reads opening closing bar line groups last := by
  induction hn : line.length using Nat.strong_induction_on generalizing line with
  | _ n ih =>
    by_cases hopen : opening ∈ line
    · obtain ⟨t, body, rfl, ht⟩ := List.eq_append_cons_of_mem hopen
      by_cases hclose : closing ∈ body
      · obtain ⟨body, rest, rfl, hbody⟩ := List.eq_append_cons_of_mem hclose
        have hshort : rest.length < n := by
          simp only [List.length_append, List.length_cons] at hn
          omega
        obtain ⟨groups, last, hrest⟩ := ih rest.length hshort rest rfl
        exact ⟨_, _, .closed ht hbody (pieces_splitOn bar body) hrest⟩
      · exact ⟨_, _, .unclosed ht hclose (pieces_splitOn bar body)⟩
    · exact ⟨_, _, .text hopen⟩

/-- **A line is read in one way.** -/
theorem Reads.unique (h : Reads opening closing bar line groups last)
    (h' : Reads opening closing bar line groups' last') : groups = groups' ∧ last = last' := by
  induction h generalizing groups' last' with
  | text ht =>
    cases h' with
    | text _ => exact ⟨rfl, rfl⟩
    | closed _ _ _ _ => exact absurd (mem_cut opening _ _) ht
    | unclosed _ _ _ => exact absurd (mem_cut opening _ _) ht
  | closed ht hbody hpieces _ ih =>
    generalize hline : _ ++ opening :: _ = line at h'
    cases h' with
    | text ht' => exact absurd (hline ▸ mem_cut opening _ _) ht'
    | closed ht' hbody' hpieces' hrest' =>
      obtain ⟨rfl, hbehind⟩ := cut_inj ht ht' hline
      obtain ⟨rfl, rfl⟩ := cut_inj hbody hbody' hbehind
      obtain rfl := hpieces.unique hpieces'
      obtain ⟨rfl, rfl⟩ := ih hrest'
      exact ⟨rfl, rfl⟩
    | unclosed ht' hbody' _ =>
      obtain ⟨-, hbehind⟩ := cut_inj ht ht' hline
      exact absurd (hbehind ▸ mem_cut closing _ _) hbody'
  | unclosed ht hbody hpieces =>
    generalize hline : _ ++ opening :: _ = line at h'
    cases h' with
    | text ht' => exact absurd (hline ▸ mem_cut opening _ _) ht'
    | closed ht' _ _ _ =>
      obtain ⟨-, hbehind⟩ := cut_inj ht ht' hline
      exact absurd (hbehind ▸ mem_cut closing _ _) hbody
    | unclosed ht' _ hpieces' =>
      obtain ⟨rfl, rfl⟩ := cut_inj ht ht' hline
      obtain rfl := hpieces.unique hpieces'
      exact ⟨rfl, rfl⟩

end Holchain.Lib
