import Mathlib.Data.List.Basic

/-!
# Lib.Zipper — a list that is gone through

One entry is in focus; the ones before it were kept. To go on keeps the entry or drops it. Of the last
one there is nothing to go on to: it stays in focus when it is kept, and when it is dropped the one
before it is in focus, if there is one.

A pass takes one mark for each entry. It leaves the entries that are marked to be kept, behind those
before it and in front of those it has not come to (`pass_eq`).
-/

namespace Holchain.Lib

/-- A list with an entry in focus. -/
structure Zipper (A : Type) where
  before : List A
  focus : A
  behind : List A

namespace Zipper

variable {A : Type}

/-- The whole list. -/
def toList (z : Zipper A) : List A := z.before ++ z.focus :: z.behind

/-- Going on behind the entry. -/
def keep (z : Zipper A) : Zipper A :=
  match z.behind with
  | [] => z
  | a :: behind => ⟨z.before ++ [z.focus], a, behind⟩

/-- Going on without the entry; `none` where there is no other. -/
def drop (z : Zipper A) : Option (Zipper A) :=
  match z.behind with
  | a :: behind => some ⟨z.before, a, behind⟩
  | [] => z.before.getLast?.map fun a => ⟨z.before.dropLast, a, []⟩

/-- Going on as a mark says. -/
def go (z : Zipper A) : Bool → Option (Zipper A)
  | true => some z.keep
  | false => z.drop

/-- The entries that are marked. -/
def kept (entries : List A) (marks : List Bool) : List A :=
  (entries.zip marks).filterMap fun entry => if entry.2 then some entry.1 else none

@[simp] theorem kept_nil (entries : List A) : kept entries [] = [] := by
  simp [kept]

@[simp] theorem kept_cons_true (a : A) (entries : List A) (marks : List Bool) :
    kept (a :: entries) (true :: marks) = a :: kept entries marks := rfl

@[simp] theorem kept_cons_false (a : A) (entries : List A) (marks : List Bool) :
    kept (a :: entries) (false :: marks) = kept entries marks := rfl

theorem mem_of_mem_kept {a : A} {entries : List A} {marks : List Bool}
    (h : a ∈ kept entries marks) : a ∈ entries := by
  obtain ⟨entry, hentry, hsome⟩ := List.mem_filterMap.mp h
  obtain ⟨-, heq⟩ := Option.ite_none_right_eq_some.mp hsome
  cases heq
  exact (List.of_mem_zip hentry).1

@[simp] theorem toList_keep (z : Zipper A) : z.keep.toList = z.toList := by
  rcases z with ⟨before, a, _ | ⟨b, behind⟩⟩
  · rfl
  · simp [keep, toList]

/-- **Dropping** is nothing but the focus less. -/
theorem toList_drop {z z' : Zipper A} (h : z.drop = some z') :
    z'.toList = z.before ++ z.behind := by
  rcases z with ⟨before, a, _ | ⟨b, behind⟩⟩
  · obtain ⟨last, hlast, rfl⟩ := Option.map_eq_some_iff.mp h
    simpa [toList] using List.dropLast_append_getLast? last hlast
  · cases h
    rfl

theorem drop_eq_none_iff {z : Zipper A} : z.drop = none ↔ z.before = [] ∧ z.behind = [] := by
  rcases z with ⟨before, a, _ | ⟨b, behind⟩⟩
  · simp [drop]
  · simp [drop]

/-- Going on where there is another entry. -/
theorem go_cons (before : List A) (a b : A) (behind : List A) (mark : Bool) :
    (⟨before, a, b :: behind⟩ : Zipper A).go mark
      = some ⟨before ++ kept [a] [mark], b, behind⟩ := by
  cases mark with
  | true => rfl
  | false => simp [go, drop, kept]

/-- One mark after another. -/
def pass (z : Zipper A) (marks : List Bool) : Option (Zipper A) := marks.foldlM go z

/-- **A pass**, as far as there is another entry. -/
theorem pass_eq (before : List A) {a b : A} {behind rest : List A} {marks : List Bool}
    (h : (a :: behind).drop marks.length = b :: rest) :
    pass ⟨before, a, behind⟩ marks = some ⟨before ++ kept (a :: behind) marks, b, rest⟩ := by
  induction marks generalizing before a behind with
  | nil =>
    cases h
    simp [pass]
  | cons mark marks ih =>
    cases behind with
    | nil => simp at h
    | cons c behind =>
      have hkept : kept (a :: c :: behind) (mark :: marks)
          = kept [a] [mark] ++ kept (c :: behind) marks := by
        cases mark <;> simp
      have hrest := ih (before ++ kept [a] [mark]) h
      rw [List.append_assoc, ← hkept] at hrest
      exact (congrArg (· >>= fun z : Zipper A => pass z marks) (go_cons before a c behind mark)).trans
        hrest

end Zipper

end Holchain.Lib
