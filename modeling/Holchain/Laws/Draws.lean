import Holchain.Laws.Action
import Holchain.Laws.Text
import Holchain.Lib.Quota

/-!
# Laws.Draws — what is drawn from limits

A draw picks a letter of the alphabets that are still open (`opened`) and lowers the counter of its
alphabet (`taken`). A counter allows as many letters as it can be lowered before it is zero, which
are `left` ones: a negative one is lowered through all of `int`. A word is picked by the first loop
(`Picked`) if the letters of both phases are within what the counters allow; every such word is drawn
from some numbers (`fill_reaches`), and no other one (`fill_answers`). Where the counters have no
room for all letters, the loop divides by zero whatever is drawn (`fill_divides`). The second loop
makes every order of the letters.
-/

namespace Holchain.Holper.GeneratePasswordAction

open Lib (tally Apart Over)

variable {P : Platform}

/-! ## Draws -/

/-- From these draws the body returns the value, and does nothing else. -/
def Yields {α : Type} (b : Machine P → Body P α) (draws : List UInt32) (a : α) : Prop :=
  ∀ (M : Machine P) (trace : Trace P),
    (∀ j (h : j < draws.length), M.urandom (trace.draws + j) = .ok draws[j]) →
    (b M).run.run trace = (.ok a, { trace with draws := trace.draws + draws.length })

section Yields

variable {α β : Type} {a : α} {c : β} {draws draws' : List UInt32}

theorem yields_pure (a : α) : Yields (fun _ => (pure a : Body P α)) [] a := fun _ _ _ => rfl

theorem yields_urandom (n : UInt32) : Yields (P := P) Filesystem.urandom [n] n := by
  intro M trace h
  have hdraw : M.urandom trace.draws = .ok n := h 0 Nat.zero_lt_one
  show ((M.urandom trace.draws).mapError Stop.threw, _) = _
  rw [hdraw]
  rfl

/-- One body behind another takes the draws behind its draws. -/
theorem Yields.bind {b : Machine P → Body P α} {f : Machine P → α → Body P β}
    (hb : Yields b draws a) (hf : Yields (fun M => f M a) draws' c) :
    Yields (fun M => b M >>= f M) (draws ++ draws') c := by
  intro M trace h
  have hfirst := hb M trace fun j hj => by
    rw [h j (by rw [List.length_append]; omega), List.getElem_append_left hj]
  have hsecond := hf M { trace with draws := trace.draws + draws.length } fun j hj => by
    have hj' : draws.length + j < (draws ++ draws').length := by
      rw [List.length_append]
      omega
    have hdraw := h (draws.length + j) hj'
    rw [List.getElem_append_right (Nat.le_add_right _ _)] at hdraw
    simpa only [Nat.add_assoc, Nat.add_sub_cancel_left] using hdraw
  rw [run_bind_ok hfirst, List.length_append, ← Nat.add_assoc]
  exact hsecond

theorem yields_modulo {n m : ℕ} (h : m ≠ 0) :
    Yields (fun _ => (Body.modulo n m : Body P ℕ)) [] (n % m) := by
  unfold Body.modulo
  rw [if_neg h]
  exact yields_pure _

theorem yields_index {vec : List α} {i : ℕ} (h : vec[i]? = some a) :
    Yields (fun _ => (Body.index vec i : Body P α)) [] a := by
  unfold Body.index
  rw [h]
  exact yields_pure a

end Yields

/-! ## Answers -/

/-- What a run comes to: such a value, or the exception of a read of the random device. -/
inductive Answered {α : Type} (M : Machine P) (Q : α → Prop) : Except Stop α → Prop
  | returned {a : α} : Q a → Answered M Q (.ok a)
  | threw {k : ℕ} {what : Bytes} :
      M.urandom k = .error what → Answered M Q (.error (.threw what))

/-- Wherever it begins, the body comes to that, and does nothing else. -/
def Answers {α : Type} (M : Machine P) (Q : α → Prop) (b : Body P α) : Prop :=
  ∀ trace, Answered M Q (b.run.run trace).1 ∧ (b.run.run trace).2.effects = trace.effects

/-- What a run comes to: a division by zero, or the exception of a read of the random device. -/
inductive Divided {α : Type} (M : Machine P) : Except Stop α → Prop
  | divided : Divided M (.error (.undefined .moduloZero))
  | threw {k : ℕ} {what : Bytes} : M.urandom k = .error what → Divided M (.error (.threw what))

/-- Wherever it begins, the body divides by zero. -/
def Divides {α : Type} (M : Machine P) (b : Body P α) : Prop :=
  ∀ trace, Divided M (b.run.run trace).1

section Answers

variable {α β : Type} {M : Machine P} {Q : α → Prop} {R : β → Prop} {b : Body P α} {a : α}

theorem answers_pure (h : Q a) : Answers M Q (pure a) := fun _ => ⟨.returned h, rfl⟩

theorem Answers.bind {f : α → Body P β} (hb : Answers M Q b) (hf : ∀ a, Q a → Answers M R (f a)) :
    Answers M R (b >>= f) := by
  intro trace
  obtain ⟨hanswered, heffects⟩ := hb trace
  rcases hrun : b.run.run trace with ⟨r, trace'⟩
  rw [hrun] at hanswered heffects
  cases hanswered with
  | returned ha =>
    rw [run_bind_ok hrun, ← heffects]
    exact hf _ ha trace'
  | threw hthrew =>
    rw [run_bind_error hrun]
    exact ⟨.threw hthrew, heffects⟩

theorem Answers.mono {Q' : α → Prop} (h : Answers M Q b) (hQ : ∀ a, Q a → Q' a) :
    Answers M Q' b := by
  intro trace
  obtain ⟨hanswered, heffects⟩ := h trace
  refine ⟨?_, heffects⟩
  generalize (b.run.run trace).1 = r at hanswered
  cases hanswered with
  | returned ha => exact .returned (hQ _ ha)
  | threw hthrew => exact .threw hthrew

theorem answers_urandom (M : Machine P) : Answers M (fun _ => True) (Filesystem.urandom M) := by
  intro trace
  refine ⟨?_, rfl⟩
  show Answered M _ ((M.urandom trace.draws).mapError Stop.threw)
  cases hdraw : M.urandom trace.draws with
  | ok x => exact .returned trivial
  | error what => exact .threw hdraw

theorem answers_modulo {n m : ℕ} (h : m ≠ 0) :
    Answers M (fun r => r = n % m) (Body.modulo n m : Body P ℕ) := by
  unfold Body.modulo
  rw [if_neg h]
  exact answers_pure rfl

theorem answers_index {vec : List α} {i : ℕ} (h : vec[i]? = some a) :
    Answers M (fun r => r = a) (Body.index vec i : Body P α) := by
  unfold Body.index
  rw [h]
  exact answers_pure rfl

/-- Without exceptions a value is returned. -/
theorem Answers.returns (h : Answers M Q b) (hM : ∀ k, ∃ x, M.urandom k = .ok x) (trace : Trace P) :
    ∃ a trace', Q a ∧ b.run.run trace = (.ok a, trace') ∧ trace'.effects = trace.effects := by
  obtain ⟨hanswered, heffects⟩ := h trace
  rcases hrun : b.run.run trace with ⟨r, trace'⟩
  rw [hrun] at hanswered heffects
  cases hanswered with
  | returned ha => exact ⟨_, trace', ha, rfl, heffects⟩
  | @threw k what hthrew =>
    obtain ⟨x, hx⟩ := hM k
    exact nomatch hx.symm.trans hthrew

theorem Divides.bind {f : α → Body P β} (hb : Divides M b) : Divides M (b >>= f) := by
  intro trace
  have hdivided := hb trace
  rcases hrun : b.run.run trace with ⟨r, trace'⟩
  rw [hrun] at hdivided
  cases hdivided with
  | divided =>
    rw [run_bind_error hrun]
    exact .divided
  | threw hthrew =>
    rw [run_bind_error hrun]
    exact .threw hthrew

/-- A body that comes to a value, and then a division by zero. -/
theorem Answers.divides {f : α → Body P β} (h : Answers M Q b)
    (hf : ∀ a, Q a → Divides M (f a)) : Divides M (b >>= f) := by
  intro trace
  obtain ⟨hanswered, -⟩ := h trace
  rcases hrun : b.run.run trace with ⟨r, trace'⟩
  rw [hrun] at hanswered
  cases hanswered with
  | returned ha =>
    rw [run_bind_ok hrun]
    exact hf _ ha trace'
  | threw hthrew =>
    rw [run_bind_error hrun]
    exact .threw hthrew

end Answers

/-! ## One draw -/

/-- The letters that can be picked. -/
def opened (getter : Getter) (limits : List Limit) : Bytes :=
  limits.flatMap fun limit => if getter.get limit ≠ 0 then limit.alpha else []

/-- The limits after a letter. -/
def taken (getter : Getter) (c : UInt8) (limits : List Limit) : List Limit :=
  limits.map fun limit => if c ∈ limit.alpha then getter.decrement limit else limit

/-- No letter is in two alphabets. -/
def Distinct (limits : List Limit) : Prop := Apart (limits.map (·.alpha))

variable {getter : Getter} {limits : List Limit} {c : UInt8}

theorem length_opened (getter : Getter) (limits : List Limit) :
    (opened getter limits).length = (limits.map (calcSizeFor getter)).sum := by
  rw [opened, List.length_flatMap]
  congr 1
  refine List.map_congr_left fun limit _ => ?_
  unfold calcSizeFor
  split
  · rfl
  · rfl

theorem mem_opened : c ∈ opened getter limits ↔
    ∃ limit ∈ limits, getter.get limit ≠ 0 ∧ c ∈ limit.alpha := by
  rw [opened, List.mem_flatMap]
  refine exists_congr fun limit => and_congr_right fun _ => ?_
  by_cases h : getter.get limit ≠ 0
  · rw [if_pos h, and_iff_right h]
  · rw [if_neg h]
    exact ⟨fun hc => (nomatch hc), fun hc => absurd hc.1 h⟩

theorem taken_of_notMem (h : ∀ limit ∈ limits, c ∉ limit.alpha) : taken getter c limits = limits := by
  rw [taken]
  conv_rhs => rw [← List.map_id limits]
  exact List.map_congr_left fun limit hlimit => if_neg (h limit hlimit)

/-- After the letter nothing matches. -/
theorem processIfMatch_neg {pick : ℤ} (h : pick < 0) (limits : List Limit) :
    (processIfMatch getter pick limits : Body P (List Limit × Bytes)) = pure (limits, []) := by
  induction limits with
  | nil => rfl
  | cons limit rest ih =>
    have hnot : ¬ (0 ≤ pick ∧ getter.get limit ≠ 0) := fun hboth => by omega
    simp only [processIfMatch, if_neg hnot, ih, pure_bind]

theorem opened_cons (limit : Limit) (rest : List Limit) : opened getter (limit :: rest) =
    (if getter.get limit ≠ 0 then limit.alpha else []) ++ opened getter rest :=
  List.flatMap_cons

theorem taken_cons (limit : Limit) (rest : List Limit) : taken getter c (limit :: rest) =
    (if c ∈ limit.alpha then getter.decrement limit else limit) :: taken getter c rest :=
  List.map_cons

/-- **What a number picks**: the letter with this place among the open ones. -/
theorem processIfMatch_eq (hdistinct : Distinct limits) {pick : ℕ}
    (h : (opened getter limits)[pick]? = some c) :
    (processIfMatch getter pick limits : Body P (List Limit × Bytes)) =
      pure (taken getter c limits, [c]) := by
  induction limits generalizing pick with
  | nil => cases h
  | cons limit rest ih =>
    obtain ⟨hfirst, hrest⟩ := List.pairwise_cons.mp hdistinct
    have hother (hc : c ∈ opened getter rest) : c ∉ limit.alpha := by
      obtain ⟨limit', hlimit', -, hmem⟩ := mem_opened.mp hc
      exact fun hin => hfirst limit'.alpha (List.mem_map_of_mem hlimit') hin hmem
    rw [opened_cons] at h
    rw [taken_cons]
    by_cases hopen : getter.get limit ≠ 0
    · rw [if_pos hopen] at h
      have hboth : 0 ≤ (pick : ℤ) ∧ getter.get limit ≠ 0 := ⟨Int.natCast_nonneg pick, hopen⟩
      by_cases hpick : pick < limit.alpha.length
      · rw [List.getElem?_append_left hpick] at h
        have hin : c ∈ limit.alpha := List.mem_of_getElem? h
        have hlt : (pick : ℤ) < limit.alpha.length := Int.ofNat_lt.mpr hpick
        have hnotin : taken getter c rest = rest := taken_of_notMem fun limit' hlimit' hmem =>
          hfirst limit'.alpha (List.mem_map_of_mem hlimit') hin hmem
        rw [if_pos hin, hnotin]
        simp only [processIfMatch, if_pos hboth, if_pos hlt, Int.toNat_natCast, Body.index, h,
          pure_bind, processIfMatch_neg (Int.sub_neg_of_lt hlt)]
        rfl
      · rw [List.getElem?_append_right (not_lt.mp hpick)] at h
        have hnot : ¬ (pick : ℤ) < limit.alpha.length := by omega
        have hsub : (pick : ℤ) - limit.alpha.length = (pick - limit.alpha.length : ℕ) := by omega
        rw [if_neg (hother (List.mem_of_getElem? h))]
        simp only [processIfMatch, if_pos hboth, if_neg hnot, hsub, ih hrest h, pure_bind]
        rfl
    · rw [if_neg hopen, List.nil_append] at h
      have hnot : ¬ (0 ≤ (pick : ℤ) ∧ getter.get limit ≠ 0) := fun hboth => hopen hboth.2
      rw [if_neg (hother (List.mem_of_getElem? h))]
      simp only [processIfMatch, if_neg hnot, ih hrest h, pure_bind]

/-- A draw takes a letter that is open. -/
theorem iterate_yields (hdistinct : Distinct limits) {x : UInt32}
    (h : (opened getter limits)[x.toNat % (opened getter limits).length]? = some c) :
    Yields (P := P) (fun M => iterate M getter limits) [x] (taken getter c limits, [c]) := by
  have hne : (limits.map (calcSizeFor getter)).sum ≠ 0 := by
    rw [← length_opened]
    exact fun hzero => List.ne_nil_of_mem (List.mem_of_getElem? h) (List.length_eq_zero_iff.mp hzero)
  have hpick : Yields (P := P) (fun _ => processIfMatch getter
      (x.toNat % (limits.map (calcSizeFor getter)).sum : ℕ) limits) [] (taken getter c limits, [c]) := by
    rw [← length_opened, processIfMatch_eq hdistinct h]
    exact yields_pure _
  exact (yields_urandom x).bind ((yields_modulo hne).bind hpick)

/-- Whatever is drawn, it takes a letter that is open. -/
theorem iterate_answers (M : Machine P) (hdistinct : Distinct limits) (h : opened getter limits ≠ []) :
    Answers M (fun r => ∃ c ∈ opened getter limits, r = (taken getter c limits, [c]))
      (iterate M getter limits) := by
  have hpos := List.length_pos_of_ne_nil h
  have hne : (limits.map (calcSizeFor getter)).sum ≠ 0 := by
    rw [← length_opened]
    exact hpos.ne'
  refine (answers_urandom M).bind fun x _ => (answers_modulo hne).bind fun pick hpick => ?_
  rw [← length_opened] at hpick
  have hlt : pick < (opened getter limits).length := hpick ▸ Nat.mod_lt x.toNat hpos
  rw [processIfMatch_eq hdistinct (List.getElem?_eq_getElem hlt)]
  exact answers_pure ⟨_, List.getElem_mem hlt, rfl⟩

/-- If none is open, it divides by zero. -/
theorem iterate_divides (M : Machine P) (h : opened getter limits = []) :
    Divides M (iterate M getter limits) := by
  refine (answers_urandom M).divides fun x _ => Divides.bind ?_
  have hzero : (limits.map (calcSizeFor getter)).sum = 0 := by
    rw [← length_opened, h]
    rfl
  intro trace
  rw [Body.modulo, if_pos hzero]
  exact .divided

/-! ## Counters -/

/-- How many letters a counter allows: a negative one is lowered through all of `int`. -/
def left (getter : Getter) (limit : Limit) : ℕ := (getter.get limit % 2 ^ 32).toNat

/-- Limits with alphabets apart, whose counters are of type `int`. -/
structure Counters (limits : List Limit) : Prop where
  distinct : Distinct limits
  nonempty : ∀ limit ∈ limits, limit.alpha ≠ []
  range : ∀ limit ∈ limits, ∀ getter : Getter,
    -2 ^ 31 ≤ getter.get limit ∧ getter.get limit < 2 ^ 31
  small : (limits.map (·.alpha.length)).sum < 2 ^ 32

@[simp] theorem alpha_decrement (getter : Getter) (limit : Limit) :
    (getter.decrement limit).alpha = limit.alpha := by
  cases getter with
  | min => rfl
  | max => rfl

theorem get_decrement (getter : Getter) (limit : Limit) :
    getter.get (getter.decrement limit) = toInt32 (getter.get limit - 1) := by
  cases getter with
  | min => rfl
  | max => rfl

theorem get_decrement_other {getter' : Getter} (h : getter ≠ getter') (limit : Limit) :
    getter'.get (getter.decrement limit) = getter'.get limit := by
  cases getter with
  | min =>
    cases getter' with
    | min => exact absurd rfl h
    | max => rfl
  | max =>
    cases getter' with
    | min => rfl
    | max => exact absurd rfl h

theorem left_pos {limit : Limit}
    (h : -2 ^ 31 ≤ getter.get limit ∧ getter.get limit < 2 ^ 31) :
    0 < left getter limit ↔ getter.get limit ≠ 0 := by
  unfold left
  omega

/-- A letter that is picked is one less. -/
theorem left_decrement {limit : Limit} (h : 0 < left getter limit) :
    left getter (getter.decrement limit) = left getter limit - 1 := by
  unfold left at h ⊢
  rw [get_decrement, toInt32_emod]
  omega

theorem left_decrement_other {getter' : Getter} (h : getter ≠ getter') (limit : Limit) :
    left getter' (getter.decrement limit) = left getter' limit := by
  unfold left
  rw [get_decrement_other h]

theorem Counters.rest {limit : Limit} {rest : List Limit} (h : Counters (limit :: rest)) :
    Counters rest where
  distinct := (List.pairwise_cons.mp h.distinct).2
  nonempty l hl := h.nonempty l (List.mem_cons_of_mem limit hl)
  range l hl := h.range l (List.mem_cons_of_mem limit hl)
  small := by
    have hsmall := h.small
    rw [List.map_cons, List.sum_cons] at hsmall
    omega

theorem alphas_taken (getter : Getter) (c : UInt8) (limits : List Limit) :
    (taken getter c limits).map (·.alpha) = limits.map (·.alpha) := by
  rw [taken, List.map_map]
  refine List.map_congr_left fun limit _ => ?_
  rw [Function.comp_apply]
  split
  · exact alpha_decrement getter limit
  · rfl

/-- A letter is open if its counter allows one. -/
theorem Counters.left_pos (h : Counters limits) {limit : Limit} (hlimit : limit ∈ limits)
    (hin : c ∈ limit.alpha) : c ∈ opened getter limits ↔ 0 < left getter limit := by
  rw [mem_opened, GeneratePasswordAction.left_pos (h.range limit hlimit getter)]
  constructor
  · rintro ⟨limit', hlimit', hopen, hin'⟩
    rwa [Lib.eq_of_mem h.distinct hlimit hlimit' hin hin']
  · exact fun hopen => ⟨limit, hlimit, hopen, hin⟩

theorem Counters.taken (h : Counters limits) (getter : Getter) (c : UInt8) :
    Counters (taken getter c limits) where
  distinct := by
    rw [Distinct, alphas_taken]
    exact h.distinct
  nonempty limit' hlimit' := by
    obtain ⟨limit, hlimit, rfl⟩ := List.mem_map.mp hlimit'
    split
    · rw [alpha_decrement]
      exact h.nonempty limit hlimit
    · exact h.nonempty limit hlimit
  range limit' hlimit' getter' := by
    obtain ⟨limit, hlimit, rfl⟩ := List.mem_map.mp hlimit'
    split
    · by_cases hsame : getter = getter'
      · rw [← hsame, get_decrement]
        exact toInt32_bounds _
      · rw [get_decrement_other hsame]
        exact h.range limit hlimit getter'
    · exact h.range limit hlimit getter'
  small := by
    have hlengths : (GeneratePasswordAction.taken getter c limits).map (·.alpha.length) =
        limits.map (·.alpha.length) := by
      have hmap := congrArg (List.map List.length) (alphas_taken getter c limits)
      rw [List.map_map, List.map_map] at hmap
      exact hmap
    rw [hlengths]
    exact h.small

theorem length_opened_lt (h : Counters limits) (getter : Getter) :
    (opened getter limits).length < 2 ^ 32 := by
  refine lt_of_le_of_lt ?_ h.small
  rw [length_opened]
  apply List.sum_le_sum
  intro limit _
  unfold calcSizeFor
  split
  · exact le_refl _
  · exact Nat.zero_le _

/-! ### Words that are drawn -/

/-- The word has no more letters of an alphabet than its counter allows. -/
structure Drawn (getter : Getter) (limits : List Limit) (w : Bytes) : Prop where
  letters : Over (limits.map (·.alpha)) w
  counts : ∀ limit ∈ limits, tally limit.alpha w ≤ left getter limit

theorem drawn_nil (getter : Getter) (limits : List Limit) : Drawn getter limits [] where
  letters _ ha := nomatch ha
  counts _ _ := Nat.zero_le _

/-- **A word is drawn if its first letter is open and the others are drawn then.** -/
theorem drawn_cons (h : Counters limits) {w : Bytes} : Drawn getter limits (c :: w) ↔
    c ∈ opened getter limits ∧ Drawn getter (taken getter c limits) w := by
  have hleft (hc : c ∈ opened getter limits) {limit : Limit} (hlimit : limit ∈ limits) :
      left getter (if c ∈ limit.alpha then getter.decrement limit else limit) =
        left getter limit - if c ∈ limit.alpha then 1 else 0 := by
    split
    · next hin => exact left_decrement ((h.left_pos hlimit hin).mp hc)
    · rfl
  have halpha (limit : Limit) :
      (if c ∈ limit.alpha then getter.decrement limit else limit).alpha = limit.alpha := by
    split
    · exact alpha_decrement getter limit
    · rfl
  constructor
  · rintro ⟨hletters, hcounts⟩
    have hopened : c ∈ opened getter limits := by
      obtain ⟨alphabet, halphabet, hin⟩ := hletters c List.mem_cons_self
      obtain ⟨limit, hlimit, rfl⟩ := List.mem_map.mp halphabet
      have hcount := hcounts limit hlimit
      rw [Lib.tally_cons, if_pos hin] at hcount
      exact (h.left_pos hlimit hin).mpr (by omega)
    refine ⟨hopened, ?_, fun limit' hlimit' => ?_⟩
    · rw [alphas_taken]
      exact fun a ha => hletters a (List.mem_cons_of_mem c ha)
    · obtain ⟨limit, hlimit, rfl⟩ := List.mem_map.mp hlimit'
      have hcount := hcounts limit hlimit
      rw [Lib.tally_cons] at hcount
      rw [hleft hopened hlimit, halpha]
      omega
  · rintro ⟨hopened, hletters, hcounts⟩
    rw [alphas_taken] at hletters
    constructor
    · obtain ⟨limit, hlimit, -, hin⟩ := mem_opened.mp hopened
      exact List.forall_mem_cons.mpr ⟨⟨_, List.mem_map_of_mem hlimit, hin⟩, hletters⟩
    · intro limit hlimit
      have hcount := hcounts _ (List.mem_map_of_mem hlimit)
      rw [hleft hopened hlimit, halpha] at hcount
      rw [Lib.tally_cons]
      by_cases hin : c ∈ limit.alpha
      · have hpos : 0 < left getter limit := (h.left_pos hlimit hin).mp hopened
        rw [if_pos hin] at hcount ⊢
        omega
      · rw [if_neg hin] at hcount ⊢
        exact hcount

/-- The other counters are not changed. -/
theorem drawn_taken_other {getter' : Getter} (hne : getter ≠ getter') {w : Bytes} :
    Drawn getter' (taken getter c limits) w ↔ Drawn getter' limits w := by
  have hleft (limit : Limit) : left getter' (if c ∈ limit.alpha then getter.decrement limit else limit)
      = left getter' limit := by
    split
    · exact left_decrement_other hne limit
    · rfl
  have halpha (limit : Limit) :
      (if c ∈ limit.alpha then getter.decrement limit else limit).alpha = limit.alpha := by
    split
    · exact alpha_decrement getter limit
    · rfl
  constructor
  · rintro ⟨hletters, hcounts⟩
    rw [alphas_taken] at hletters
    refine ⟨hletters, fun limit hlimit => ?_⟩
    have hcount := hcounts _ (List.mem_map_of_mem hlimit)
    rwa [hleft, halpha] at hcount
  · rintro ⟨hletters, hcounts⟩
    refine ⟨(alphas_taken getter c limits).symm ▸ hletters, fun limit' hlimit' => ?_⟩
    obtain ⟨limit, hlimit, rfl⟩ := List.mem_map.mp hlimit'
    rw [hleft, halpha]
    exact hcounts limit hlimit

/-! ### Room -/

/-- How many letters can be drawn. -/
def capacity (getter : Getter) (limits : List Limit) : ℕ := (limits.map (left getter)).sum

theorem capacity_taken_other {getter' : Getter} (hne : getter ≠ getter') (c : UInt8)
    (limits : List Limit) : capacity getter' (taken getter c limits) = capacity getter' limits := by
  rw [capacity, taken, List.map_map, capacity]
  congr 1
  refine List.map_congr_left fun limit _ => ?_
  rw [Function.comp_apply]
  split
  · exact left_decrement_other hne limit
  · rfl

/-- A letter takes one place. -/
theorem Counters.capacity_taken (h : Counters limits) (hc : c ∈ opened getter limits) :
    capacity getter (GeneratePasswordAction.taken getter c limits) + 1 = capacity getter limits := by
  induction limits with
  | nil => cases hc
  | cons limit rest ih =>
    have hfirst := (List.pairwise_cons.mp h.distinct).1
    rw [taken_cons]
    by_cases hin : c ∈ limit.alpha
    · have hother : GeneratePasswordAction.taken getter c rest = rest :=
        taken_of_notMem fun limit' hlimit' hmem =>
          hfirst limit'.alpha (List.mem_map_of_mem hlimit') hin hmem
      have hpos := (h.left_pos List.mem_cons_self hin).mp hc
      rw [if_pos hin, hother, capacity, capacity, List.map_cons, List.map_cons, List.sum_cons,
        List.sum_cons, left_decrement hpos]
      omega
    · have hrest : c ∈ opened getter rest := by
        obtain ⟨limit', hlimit', hopen, hin'⟩ := mem_opened.mp hc
        rcases List.mem_cons.mp hlimit' with rfl | hlimit'
        · exact absurd hin' hin
        · exact mem_opened.mpr ⟨limit', hlimit', hopen, hin'⟩
      have hcapacity := ih h.rest hrest
      rw [capacity, capacity] at hcapacity
      rw [if_neg hin, capacity, capacity, List.map_cons, List.map_cons, List.sum_cons,
        List.sum_cons, ← hcapacity]
      omega

theorem Counters.opened_ne_nil (h : Counters limits) :
    opened getter limits ≠ [] ↔ 0 < capacity getter limits := by
  constructor
  · intro hne
    obtain ⟨c, hc⟩ := List.exists_mem_of_ne_nil _ hne
    have hcapacity := h.capacity_taken hc
    omega
  · intro hpos hnil
    have hzero : capacity getter limits = 0 := by
      apply List.sum_eq_zero
      intro n hn
      obtain ⟨limit, hlimit, rfl⟩ := List.mem_map.mp hn
      obtain ⟨c, hc⟩ := List.exists_mem_of_ne_nil _ (h.nonempty limit hlimit)
      have hopened : c ∈ opened getter limits ↔ 0 < left getter limit := h.left_pos hlimit hc
      rw [hnil] at hopened
      exact Nat.eq_zero_of_not_pos (hopened.not.mp List.not_mem_nil)
    omega

/-- **A word of any length that there is room for**, with as many letters of one alphabet as its
counter allows. -/
theorem exists_drawn (h : Counters limits) {limit : Limit} (hlimit : limit ∈ limits) {n : ℕ}
    (hn : n ≤ capacity getter limits) : ∃ w : Bytes, w.length = n ∧ Drawn getter limits w
      ∧ tally limit.alpha w = min (left getter limit) n := by
  induction n generalizing limits limit with
  | zero => exact ⟨[], rfl, drawn_nil getter limits, (Nat.min_zero _).symm⟩
  | succ n ih =>
    have hstep {c : UInt8} (hc : c ∈ opened getter limits) :
        ∃ w : Bytes, w.length = n ∧ Drawn getter (taken getter c limits) w
          ∧ tally limit.alpha w =
            min (left getter (if c ∈ limit.alpha then getter.decrement limit else limit)) n := by
      have hcapacity := h.capacity_taken hc
      obtain ⟨w, hlength, hdrawn, htally⟩ :=
        ih (h.taken getter c) (List.mem_map_of_mem hlimit) (by omega)
      refine ⟨w, hlength, hdrawn, ?_⟩
      rw [← htally]
      split
      · rw [alpha_decrement]
      · rfl
    by_cases hleft : 0 < left getter limit
    · obtain ⟨c, hin⟩ := List.exists_mem_of_ne_nil _ (h.nonempty limit hlimit)
      have hc := (h.left_pos hlimit hin).mpr hleft
      obtain ⟨w, hlength, hdrawn, htally⟩ := hstep hc
      rw [if_pos hin, left_decrement hleft] at htally
      refine ⟨c :: w, congrArg (· + 1) hlength, (drawn_cons h).mpr ⟨hc, hdrawn⟩, ?_⟩
      rw [Lib.tally_cons, if_pos hin, htally]
      omega
    · have hne := h.opened_ne_nil.mpr (show 0 < capacity getter limits by omega)
      obtain ⟨c, hc⟩ := List.exists_mem_of_ne_nil _ hne
      have hnotin : c ∉ limit.alpha := fun hin => hleft ((h.left_pos hlimit hin).mp hc)
      obtain ⟨w, hlength, hdrawn, htally⟩ := hstep hc
      rw [if_neg hnotin] at htally
      refine ⟨c :: w, congrArg (· + 1) hlength, (drawn_cons h).mpr ⟨hc, hdrawn⟩, ?_⟩
      rw [Lib.tally_cons, if_neg hnotin, htally]
      omega

/-! ## The first loop -/

/-- The part of the limits that the `i`-th letter is picked from. -/
def phase (m i : ℕ) : Getter := if (i : ℤ) < (m : ℤ) then .min else .max

variable {m i n : ℕ} {result w : Bytes}

theorem phase_min (h : i < m) : phase m i = .min := if_pos (Int.ofNat_lt.mpr h)

theorem phase_max (h : ¬ i < m) : phase m i = .max := if_neg fun hlt => h (Int.ofNat_lt.mp hlt)

/-- The letters of both phases are drawn from their counters. -/
structure Picked (m i : ℕ) (limits : List Limit) (w : Bytes) : Prop where
  first : Drawn .min limits (w.take (m - i))
  second : Drawn .max limits (w.drop (m - i))

theorem picked_nil (m i : ℕ) (limits : List Limit) : Picked m i limits [] where
  first := by
    rw [List.take_nil]
    exact drawn_nil .min limits
  second := by
    rw [List.drop_nil]
    exact drawn_nil .max limits

/-- **The first letter is open in its phase**, and the others are picked from what is left. -/
theorem picked_cons (h : Counters limits) : Picked m i limits (c :: w) ↔
    c ∈ opened (phase m i) limits ∧ Picked m (i + 1) (taken (phase m i) c limits) w := by
  by_cases hphase : i < m
  · have hsub : m - i = m - (i + 1) + 1 := by omega
    have hne : Getter.min ≠ Getter.max := fun heq => nomatch heq
    rw [phase_min hphase]
    constructor
    · rintro ⟨hfirst, hsecond⟩
      rw [hsub, List.take_succ_cons] at hfirst
      rw [hsub, List.drop_succ_cons] at hsecond
      obtain ⟨hopened, hrest⟩ := (drawn_cons h).mp hfirst
      exact ⟨hopened, hrest, (drawn_taken_other hne).mpr hsecond⟩
    · rintro ⟨hopened, hfirst, hsecond⟩
      constructor
      · rw [hsub, List.take_succ_cons]
        exact (drawn_cons h).mpr ⟨hopened, hfirst⟩
      · rw [hsub, List.drop_succ_cons]
        exact (drawn_taken_other hne).mp hsecond
  · have hzero : m - i = 0 := by omega
    have hzero' : m - (i + 1) = 0 := by omega
    rw [phase_max hphase]
    constructor
    · rintro ⟨-, hsecond⟩
      rw [hzero, List.drop_zero] at hsecond
      obtain ⟨hopened, hrest⟩ := (drawn_cons h).mp hsecond
      refine ⟨hopened, ?_, ?_⟩
      · rw [hzero', List.take_zero]
        exact drawn_nil .min _
      · rw [hzero', List.drop_zero]
        exact hrest
    · rintro ⟨hopened, -, hsecond⟩
      rw [hzero', List.drop_zero] at hsecond
      constructor
      · rw [hzero, List.take_zero]
        exact drawn_nil .min _
      · rw [hzero, List.drop_zero]
        exact (drawn_cons h).mpr ⟨hopened, hsecond⟩

/-- The counters allow all letters to come. -/
structure Room (m i n : ℕ) (limits : List Limit) : Prop where
  first : min (m - i) n ≤ capacity .min limits
  second : n - (m - i) ≤ capacity .max limits

theorem room_zero (m i : ℕ) (limits : List Limit) : Room m i 0 limits where
  first := by rw [Nat.min_zero]; exact Nat.zero_le _
  second := by rw [Nat.zero_sub]; exact Nat.zero_le _

/-- There is room for a letter in its phase, and for the others then. -/
theorem room_succ (h : Counters limits) (hc : c ∈ opened (phase m i) limits) :
    Room m i (n + 1) limits ↔ Room m (i + 1) n (taken (phase m i) c limits) := by
  have hcapacity := h.capacity_taken hc
  by_cases hphase : i < m
  · rw [phase_min hphase] at hcapacity ⊢
    have hne : Getter.min ≠ Getter.max := fun heq => nomatch heq
    have hother : capacity .max (taken .min c limits) = capacity .max limits :=
      capacity_taken_other hne c limits
    constructor
    · rintro ⟨hfirst, hsecond⟩
      constructor <;> omega
    · rintro ⟨hfirst, hsecond⟩
      constructor <;> omega
  · rw [phase_max hphase] at hcapacity ⊢
    constructor
    · rintro ⟨-, hsecond⟩
      constructor <;> omega
    · rintro ⟨-, hsecond⟩
      constructor <;> omega

theorem Room.opened (hroom : Room m i (n + 1) limits) (h : Counters limits) :
    opened (phase m i) limits ≠ [] := by
  obtain ⟨hfirst, hsecond⟩ := hroom
  by_cases hphase : i < m
  · rw [phase_min hphase]
    exact h.opened_ne_nil.mpr (by omega)
  · rw [phase_max hphase]
    exact h.opened_ne_nil.mpr (by omega)

/-- **Whatever is drawn**, the loop ends with letters that are picked. -/
theorem fill_answers (M : Machine P) (h : Counters limits) (hroom : Room m i n limits)
    (result : Bytes) :
    Answers M (fun r => ∃ w, r = result ++ w ∧ w.length = n ∧ Picked m i limits w)
      (fill M m i n limits result) := by
  induction n generalizing i limits result with
  | zero => exact answers_pure ⟨[], (List.append_nil _).symm, rfl, picked_nil m i limits⟩
  | succ n ih =>
    refine (iterate_answers M h.distinct (hroom.opened h)).bind ?_
    rintro _ ⟨c, hc, rfl⟩
    refine (ih (h.taken _ c) ((room_succ h hc).mp hroom) (result ++ [c])).mono ?_
    rintro r ⟨w, rfl, hlength, hpicked⟩
    exact ⟨c :: w, by rw [List.append_assoc, List.singleton_append], congrArg (· + 1) hlength,
      (picked_cons h).mpr ⟨hc, hpicked⟩⟩

/-- **Without room the loop divides by zero**, whatever is drawn. -/
theorem fill_divides (M : Machine P) (h : Counters limits) (hroom : ¬ Room m i n limits)
    (result : Bytes) : Divides M (fill M m i n limits result) := by
  induction n generalizing i limits result with
  | zero => exact absurd (room_zero m i limits) hroom
  | succ n ih =>
    by_cases hopened : opened (phase m i) limits = []
    · exact (iterate_divides M hopened).bind
    · refine (iterate_answers M h.distinct hopened).divides ?_
      rintro _ ⟨c, hc, rfl⟩
      exact ih (h.taken _ c) (fun hrest => hroom ((room_succ h hc).mpr hrest)) (result ++ [c])

/-- A letter that a draw picks, and then the rest of the loop. -/
theorem fill_cons (h : Counters limits) {x : UInt32} {draws : List UInt32}
    (hx : (opened (phase m i) limits)[x.toNat % (opened (phase m i) limits).length]? = some c)
    (hrest : Yields (P := P)
      (fun M => fill M m (i + 1) n (taken (phase m i) c limits) (result ++ [c])) draws
      (result ++ [c] ++ w)) :
    Yields (P := P) (fun M => fill M m i (n + 1) limits result) (x :: draws) (result ++ c :: w) := by
  rw [List.append_assoc, List.singleton_append] at hrest
  exact (iterate_yields h.distinct hx).bind
    (f := fun M r => fill M m (i + 1) n r.1 (result ++ r.2)) hrest

/-- A number below is its own remainder. -/
theorem pick_of_lt {k size : ℕ} (hk : k < size) (hsize : size < 2 ^ 32) :
    (UInt32.ofNat k).toNat % size = k := by
  rw [UInt32.toNat_ofNat_of_lt' (by simpa using hk.trans hsize), Nat.mod_eq_of_lt hk]

/-- **Every word that is picked is drawn** from some numbers. -/
theorem fill_reaches (result : Bytes) (h : Counters limits) (hpicked : Picked m i limits w) :
    ∃ draws : List UInt32, draws.length = w.length
      ∧ Yields (P := P) (fun M => fill M m i w.length limits result) draws (result ++ w) := by
  induction w generalizing i limits result with
  | nil => exact ⟨[], rfl, by rw [List.append_nil]; exact yields_pure _⟩
  | cons c w ih =>
    obtain ⟨hc, hrest⟩ := (picked_cons h).mp hpicked
    obtain ⟨k, hk, hget⟩ := List.mem_iff_getElem.mp hc
    obtain ⟨draws, hlength, hyields⟩ := ih _ (h.taken _ c) hrest
    refine ⟨UInt32.ofNat k :: draws, congrArg (· + 1) hlength, fill_cons h ?_ hyields⟩
    rw [pick_of_lt hk (length_opened_lt h _), List.getElem?_eq_getElem hk, hget]

/-- Letters of the one phase, and letters of the other one behind them. -/
theorem picked_append {v : Bytes} (hfirst : Drawn .min limits w) (hsecond : Drawn .max limits v)
    (hw : w.length = min m n) (hv : v.length = n - m) : Picked m 0 limits (w ++ v) := by
  rcases Nat.le_total m n with hle | hle
  · rw [min_eq_left hle] at hw
    constructor
    · rw [Nat.sub_zero, List.take_left' hw]
      exact hfirst
    · rw [Nat.sub_zero, List.drop_left' hw]
      exact hsecond
  · rw [Nat.sub_eq_zero_of_le hle] at hv
    rw [min_eq_right hle] at hw
    rw [List.length_eq_zero_iff.mp hv, List.append_nil]
    constructor
    · rw [List.take_of_length_le (by omega)]
      exact hfirst
    · rw [List.drop_of_length_le (by omega)]
      exact drawn_nil .max limits

/-! ## The second loop -/

/-- A letter that a draw moves to the password, and then the rest of the loop. -/
theorem shuffle_cons {x : UInt32} {draws : List UInt32} {password : Bytes}
    (hx : result[x.toNat % result.length]? = some c)
    (hrest : Yields (P := P) (fun M => shuffle M n (result.eraseIdx (x.toNat % result.length))
      (password ++ [c])) draws (password ++ [c] ++ w)) :
    Yields (P := P) (fun M => shuffle M (n + 1) result password) (x :: draws)
      (password ++ c :: w) := by
  rw [List.append_assoc, List.singleton_append] at hrest
  have hne : result.length ≠ 0 := fun hzero =>
    List.ne_nil_of_mem (List.mem_of_getElem? hx) (List.length_eq_zero_iff.mp hzero)
  exact (yields_urandom x).bind ((yields_modulo hne).bind ((yields_index hx).bind hrest))

/-- Whatever is drawn, the password has the letters of the result. -/
theorem shuffle_answers (M : Machine P) (password : Bytes) (h : result.length = n) :
    Answers M (fun r => ∃ w, r = password ++ w ∧ w.Perm result) (shuffle M n result password) := by
  induction n generalizing result password with
  | zero =>
    cases List.length_eq_zero_iff.mp h
    exact answers_pure ⟨[], (List.append_nil _).symm, .nil⟩
  | succ n ih =>
    refine (answers_urandom M).bind fun x _ =>
      (answers_modulo (h ▸ Nat.succ_ne_zero n)).bind fun pick hpick => ?_
    have hlt : pick < result.length := hpick ▸ Nat.mod_lt x.toNat (h ▸ Nat.succ_pos n)
    refine (answers_index (List.getElem?_eq_getElem hlt)).bind fun c hc => ?_
    have herase : (result.eraseIdx pick).length = n := by
      rw [List.length_eraseIdx_of_lt hlt, h]
      rfl
    refine (ih (password ++ [c]) herase).mono ?_
    rintro r ⟨w, rfl, hperm⟩
    refine ⟨c :: w, by rw [List.append_assoc, List.singleton_append], ?_⟩
    rw [hc]
    exact (hperm.cons _).trans (List.getElem_cons_eraseIdx_perm hlt)

/-- **Every order is drawn** from some numbers. -/
theorem shuffle_reaches (password : Bytes) (hperm : w.Perm result) (hsmall : w.length < 2 ^ 32) :
    ∃ draws : List UInt32, draws.length = w.length
      ∧ Yields (P := P) (fun M => shuffle M w.length result password) draws (password ++ w) := by
  induction w generalizing result password with
  | nil => exact ⟨[], rfl, by rw [List.append_nil]; exact yields_pure _⟩
  | cons c w ih =>
    obtain ⟨k, hk, hget⟩ := List.mem_iff_getElem.mp (hperm.mem_iff.mp List.mem_cons_self)
    have hpick := pick_of_lt hk (hperm.length_eq ▸ hsmall)
    have hrest : w.Perm (result.eraseIdx k) := by
      have hcons := hperm.trans (List.getElem_cons_eraseIdx_perm hk).symm
      rw [hget] at hcons
      exact hcons.cons_inv
    obtain ⟨draws, hlength, hyields⟩ := ih _ hrest (lt_trans (Nat.lt_succ_self _) hsmall)
    refine ⟨UInt32.ofNat k :: draws, congrArg (· + 1) hlength, shuffle_cons ?_ ?_⟩
    · rw [hpick, List.getElem?_eq_getElem hk, hget]
    · rw [hpick]
      exact hyields

/-! ## Both loops -/

/-- The password of both loops. -/
def generate (M : Machine P) (m n : ℕ) (limits : List Limit) : Body P Bytes := do
  let result ← fill M m 0 n limits []
  shuffle M n result []

/-- Whatever is drawn, the letters of the password are picked. -/
theorem generate_answers (M : Machine P) (h : Counters limits) (hroom : Room m 0 n limits) :
    Answers M (fun password => password.length = n ∧ ∃ w', w'.Perm password ∧ Picked m 0 limits w')
      (generate M m n limits) := by
  refine (fill_answers M h hroom []).bind ?_
  intro result ⟨w', hresult, hlength, hpicked⟩
  rw [List.nil_append] at hresult
  subst hresult
  refine (shuffle_answers M [] hlength).mono ?_
  intro password ⟨w, hpassword, hperm⟩
  rw [List.nil_append] at hpassword
  subst hpassword
  exact ⟨hperm.length_eq.trans hlength, result, hperm.symm, hpicked⟩

theorem generate_divides (M : Machine P) (h : Counters limits) (hroom : ¬ Room m 0 n limits) :
    Divides M (generate M m n limits) :=
  (fill_divides M h hroom []).bind

/-- Every order of letters that are picked is the password of some draws. -/
theorem generate_reaches {w' : Bytes} (h : Counters limits) (hpicked : Picked m 0 limits w')
    (hperm : w'.Perm w) (hsmall : w.length < 2 ^ 32) : ∃ draws : List UInt32,
    Yields (P := P) (fun M => generate M m w.length limits) draws w := by
  obtain ⟨draws, -, hfill⟩ := fill_reaches (P := P) [] h hpicked
  obtain ⟨draws', -, hshuffle⟩ := shuffle_reaches (P := P) [] hperm.symm hsmall
  rw [hperm.length_eq] at hfill
  exact ⟨draws ++ draws', hfill.bind hshuffle⟩

end Holchain.Holper.GeneratePasswordAction
