import Mathlib.Order.Basic

/-!
# Lib.Transaction — programs over a store with commits

A program asks a store and changes it, one statement after the other, and what it has not committed
is gone when its process dies. `Ensures` is a Hoare logic for such programs: the statements that
commit have to meet an invariant, so that the store meets it wherever the process dies
(`Ensures.steps`), and what is ensured at the end of the program holds there.
-/

namespace Holchain.Lib

variable {S : Type}

/-- A program; `fail` is an exception. -/
inductive Program (S : Type) where
  | done
  | fail
  | ask (query : S → Option Bool) (next : Bool → Program S)
  | write (change : S → Option S) (next : Program S)
  | commit (next : Program S)

/-- A store with a transaction that is open. -/
structure Db (S : Type) where
  committed : S
  working : S

namespace Program

/-- The next statement; one that the store refuses raises an exception. -/
def step : Program S → Db S → Program S × Db S
  | done, db => (done, db)
  | fail, db => (fail, db)
  | ask query next, db =>
    match query db.working with
    | none => (fail, db)
    | some answer => (next answer, db)
  | write change next, db =>
    match change db.working with
    | none => (fail, db)
    | some s => (next, ⟨db.committed, s⟩)
  | commit next, db => (next, ⟨db.working, db.working⟩)

/-- Some statements. -/
def steps : ℕ → Program S → Db S → Program S × Db S
  | 0, p, db => (p, db)
  | n + 1, p, db => steps n (p.step db).1 (p.step db).2

/-- One program and then another. -/
def andThen : Program S → Program S → Program S
  | done, q => q
  | fail, _ => fail
  | ask query next, q => ask query fun answer => (next answer).andThen q
  | write change next, q => write change (next.andThen q)
  | commit next, q => commit (next.andThen q)

/-- A `for` loop. -/
def forEach {A : Type} (body : A → Program S) : List A → Program S
  | [] => done
  | x :: xs => (body x).andThen (forEach body xs)

/-! ## Every program ends -/

/-- It has no statement left. -/
def Ended (p : Program S) : Prop := p = done ∨ p = fail

/-- **Every program ends.** -/
theorem ends (p : Program S) : ∀ db, ∃ n, (steps n p db).1.Ended := by
  induction p with
  | done => exact fun _ => ⟨0, .inl rfl⟩
  | fail => exact fun _ => ⟨0, .inr rfl⟩
  | ask query next ih =>
    intro db
    cases hquery : query db.working with
    | none =>
      refine ⟨1, .inr ?_⟩
      simp only [steps, step, hquery]
    | some answer =>
      obtain ⟨n, hn⟩ := ih answer db
      refine ⟨n + 1, ?_⟩
      simpa only [steps, step, hquery] using hn
  | write change next ih =>
    intro db
    cases hchange : change db.working with
    | none =>
      refine ⟨1, .inr ?_⟩
      simp only [steps, step, hchange]
    | some s =>
      obtain ⟨n, hn⟩ := ih ⟨db.committed, s⟩
      refine ⟨n + 1, ?_⟩
      simpa only [steps, step, hchange] using hn
  | commit next ih =>
    intro db
    obtain ⟨n, hn⟩ := ih ⟨db.working, db.working⟩
    exact ⟨n + 1, hn⟩

/-! ## What a program ensures -/

variable {I : S → Prop} {Q R : Db S → Prop} {E E' : Prop} {db : Db S} {p q : Program S}

/-- From the store the program commits only what meets `I`, ends with `Q`, and raises only where `E`
is true. -/
def Ensures (I : S → Prop) (E : Prop) (Q : Db S → Prop) : Program S → Db S → Prop
  | done, db => Q db
  | fail, _ => E
  | ask query next, db =>
    match query db.working with
    | none => E
    | some answer => Ensures I E Q (next answer) db
  | write change next, db =>
    match change db.working with
    | none => E
    | some s => Ensures I E Q next ⟨db.committed, s⟩
  | commit next, db => I db.working ∧ Ensures I E Q next ⟨db.working, db.working⟩

theorem Ensures.step (h : Ensures I E Q p db) (hI : I db.committed) :
    Ensures I E Q (p.step db).1 (p.step db).2 ∧ I (p.step db).2.committed := by
  cases p with
  | done => exact ⟨h, hI⟩
  | fail => exact ⟨h, hI⟩
  | ask query next =>
    cases hquery : query db.working with
    | none =>
      simp only [Ensures, Program.step, hquery] at h ⊢
      exact ⟨h, hI⟩
    | some answer =>
      simp only [Ensures, Program.step, hquery] at h ⊢
      exact ⟨h, hI⟩
  | write change next =>
    cases hchange : change db.working with
    | none =>
      simp only [Ensures, Program.step, hchange] at h ⊢
      exact ⟨h, hI⟩
    | some s =>
      simp only [Ensures, Program.step, hchange] at h ⊢
      exact ⟨h, hI⟩
  | commit next => exact ⟨h.2, h.1⟩

/-- **Wherever the process dies, what was committed meets the invariant.** -/
theorem Ensures.steps (h : Ensures I E Q p db) (hI : I db.committed) (n : ℕ) :
    Ensures I E Q (p.steps n db).1 (p.steps n db).2 ∧ I (p.steps n db).2.committed := by
  induction n generalizing p db with
  | zero => exact ⟨h, hI⟩
  | succ n ih =>
    have hnext := h.step hI
    exact ih hnext.1 hnext.2

theorem Ensures.of_done {db' : Db S} (h : Ensures I E Q p db) (hI : I db.committed) {n : ℕ}
    (hsteps : p.steps n db = (done, db')) : Q db' := by
  have hends := (h.steps hI n).1
  rw [hsteps] at hends
  exact hends

theorem Ensures.of_fail {db' : Db S} (h : Ensures I E Q p db) (hI : I db.committed) {n : ℕ}
    (hsteps : p.steps n db = (fail, db')) : E := by
  have hends := (h.steps hI n).1
  rw [hsteps] at hends
  exact hends

/-- What cannot raise comes to its end. -/
theorem Ensures.completes (h : Ensures I E Q p db) (hI : I db.committed) (hE : ¬ E) :
    ∃ n db', p.steps n db = (done, db') := by
  obtain ⟨n, hdone | hfail⟩ := p.ends db
  · exact ⟨n, _, Prod.ext hdone rfl⟩
  · exact absurd (h.of_fail hI (Prod.ext hfail rfl)) hE

/-! ### Rules -/

theorem Ensures.mono (h : Ensures I E Q p db) (hQ : ∀ db, Q db → R db) (hE : E → E') :
    Ensures I E' R p db := by
  induction p generalizing db with
  | done => exact hQ db h
  | fail => exact hE h
  | ask query next ih =>
    unfold Ensures at h ⊢
    cases hquery : query db.working with
    | none =>
      rw [hquery] at h
      exact hE h
    | some answer =>
      rw [hquery] at h
      exact ih answer h
  | write change next ih =>
    unfold Ensures at h ⊢
    cases hchange : change db.working with
    | none =>
      rw [hchange] at h
      exact hE h
    | some s =>
      rw [hchange] at h
      exact ih h
  | commit next ih => exact ⟨h.1, ih h.2⟩

/-- **Sequence**: the second program starts with what the first one ends with. -/
theorem Ensures.andThen (h : Ensures I E R p db) (hq : ∀ db, R db → Ensures I E Q q db) :
    Ensures I E Q (p.andThen q) db := by
  induction p generalizing db with
  | done => exact hq db h
  | fail => exact h
  | ask query next ih =>
    unfold Ensures at h
    unfold Program.andThen Ensures
    cases hquery : query db.working with
    | none =>
      rw [hquery] at h
      exact h
    | some answer =>
      rw [hquery] at h
      exact ih answer h
  | write change next ih =>
    unfold Ensures at h
    unfold Program.andThen Ensures
    cases hchange : change db.working with
    | none =>
      rw [hchange] at h
      exact h
    | some s =>
      rw [hchange] at h
      exact ih h
  | commit next ih => exact ⟨h.1, ih h.2⟩

/-- **Loop**: an invariant over the items that are behind it. -/
theorem Ensures.forEach {A : Type} {body : A → Program S} (Inv : List A → Db S → Prop)
    {xs : List A}
    (hbody : ∀ before x after db, xs = before ++ x :: after → Inv before db →
      Ensures I E (Inv (before ++ [x])) (body x) db)
    (h : Inv [] db) : Ensures I E (Inv xs) (Program.forEach body xs) db := by
  have hrest (rest : List A) : ∀ before db, xs = before ++ rest → Inv before db →
      Ensures I E (Inv xs) (Program.forEach body rest) db := by
    induction rest with
    | nil =>
      intro before db heq hs
      rw [List.append_nil] at heq
      exact heq ▸ hs
    | cons x rest ih =>
      intro before db heq hs
      have hone := hbody before x rest db heq hs
      refine hone.andThen fun db' hs' => ih (before ++ [x]) db' ?_ hs'
      rw [heq, List.append_assoc, List.singleton_append]
  exact hrest xs [] db rfl h

/-! ## Runs one after another -/

/-- Programs that run one after another, each for some statements: the next one finds what was
committed. -/
def runs : List (Program S × ℕ) → S → S
  | [], s => s
  | (p, n) :: rest, s => runs rest (p.steps n ⟨s, s⟩).2.committed

end Program

end Holchain.Lib
