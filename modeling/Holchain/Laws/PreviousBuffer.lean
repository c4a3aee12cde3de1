import Holchain.Laws.BufferSwitcher

/-!
# Laws.PreviousBuffer — where `gotoprev` goes

`prevbufno` is written in front of a switch, and by `pop` too, through an `inc` that goes nowhere: a
`push` behind a switch makes the shown buffer its own previous one. `gotoprev_goes_back` says which
operations have to be left out for `gotoprev` to go back over the last switch.
-/

namespace Holchain.Rc.Vim.BufferSwitcher

variable {s : BufferSwitcher} {op : Operation}

/-! ## What an operation does to the previous buffer -/

/-- The buffer that an operation goes to. -/
def Operation.goal (s : BufferSwitcher) : Operation → Option ℕ
  | .inc k _ => s.curlist[((s.curidx + k) % s.curlist.length).toNat]?.map Entry.bufno
  | .gotoprev _ => s.prevbufno
  | .gotoregister reg _ => s.reglist reg
  | _ => none

/-- What vim answers to it. -/
def Operation.answer : Operation → Option Cursor
  | .inc _ answer => answer
  | .gotoprev answer => answer
  | .gotoregister _ answer => answer
  | _ => none

/-- The operation goes to another buffer, and vim shows it. -/
def Goes (s : BufferSwitcher) (op : Operation) : Prop :=
  ∃ number, op.goal s = some number ∧ number ≠ s.window.number ∧ op.answer ≠ none

/-- The operation writes `prevbufno`. -/
def Writes (s : BufferSwitcher) : Operation → Prop
  | .push => ∃ x ∈ s.curlist, x.bufno ≠ s.window.number
  | .pop => ∃ x ∈ s.curlist, x.bufno ≠ s.window.number
  | .purge => False
  | .inc _ _ => s.curlist ≠ []
  | .gotoprev _ => True
  | .register _ => False
  | .gotoregister _ _ => True

/-- The operation goes to another buffer, or leaves `prevbufno` alone, or finds it as it would
write it. -/
def Meets (s : BufferSwitcher) (op : Operation) : Prop :=
  s.Goes op ∨ ¬ s.Writes op ∨ s.prevbufno = some s.window.number

/-- The shown buffer is another one. -/
def Switches (s : BufferSwitcher) (op : Operation) : Prop :=
  (s.after op).window.number ≠ s.window.number

/-- An operation that goes nowhere and shows nothing. -/
theorem switches_stay (hwindow : (s.after op).window = s.window) (hgoal : op.goal s = none) :
    s.Switches op ↔ s.Goes op := by
  unfold Switches Goes
  rw [hwindow, hgoal]
  exact iff_of_false (fun h => h rfl) nofun

/-- An operation that has vim show its goal. -/
theorem switches_shows (u : BufferSwitcher) (hwindow : u.window = s.window)
    (hafter : s.after op = (u.shows (op.goal s) op.answer).2) : s.Switches op ↔ s.Goes op := by
  unfold Switches Goes
  rw [hafter, ← hwindow]
  cases op.goal s with
  | none => exact iff_of_false (fun h => h rfl) nofun
  | some number =>
    cases op.answer with
    | none => exact iff_of_false (fun h => h rfl) fun ⟨_, _, _, h⟩ => h rfl
    | some cursor =>
      constructor
      · intro h
        exact ⟨number, rfl, h, Option.some_ne_none cursor⟩
      · rintro ⟨number, ⟨⟩, h, -⟩
        exact h

theorem prevbufno_shows (s : BufferSwitcher) (bufno : Option ℕ) (answer : Option Cursor) :
    (s.shows bufno answer).2.prevbufno = s.prevbufno := by
  rw [after_shows]

theorem dropped_eq_nil (s : BufferSwitcher) :
    s.dropped.curlist = [] ↔ ∀ x ∈ s.curlist, x.bufno = s.window.number := by
  rw [dropped, List.filter_eq_nil_iff]
  refine forall₂_congr fun x _ => ?_
  rw [bne_iff_ne, not_not]

theorem window_push (s : BufferSwitcher) : (s.after .push).window = s.window := by
  unfold after
  rw [perform_push]
  exact s.window_pop

theorem prevbufno_push (s : BufferSwitcher) :
    (s.after .push).prevbufno = (s.after .pop).prevbufno := by
  unfold after
  rw [perform_push]
  rfl

theorem prevbufno_pop (s : BufferSwitcher) :
    (s.after .pop).prevbufno = if s.dropped.curlist = [] then s.prevbufno
      else some s.window.number := by
  unfold after
  rw [perform_pop]
  split
  · rfl
  · rfl

theorem goal_inc (h : s.curlist ≠ []) (k : ℤ) (answer : Option Cursor) :
    s.after (.inc k answer) = ((s.turned k).shows ((Operation.inc k answer).goal s) answer).2 := by
  obtain ⟨entry, hentry, hafter⟩ := after_inc (k := k) h answer
  have htarget : s.target k = (s.curidx + k) % s.curlist.length := by
    have hsum : k + (s.curlist.length : ℤ) + s.curidx = s.curidx + k + s.curlist.length := by omega
    rw [target, hsum, Int.add_emod_right]
  have hgoal : (Operation.inc k answer).goal s = some entry.bufno := by
    rw [Operation.goal, ← htarget, hentry]
    rfl
  rw [hgoal]
  exact hafter

/-- An operation switches where it goes to another buffer that vim shows. -/
theorem switches_iff (s : BufferSwitcher) (op : Operation) : s.Switches op ↔ s.Goes op := by
  cases op with
  | push => exact switches_stay s.window_push rfl
  | pop => exact switches_stay s.window_pop rfl
  | purge => exact switches_stay rfl rfl
  | inc k answer =>
    by_cases h : s.curlist = []
    · apply switches_stay
      · rw [after_inc_nil h]
      · rw [Operation.goal, h]
        rfl
    · exact switches_shows (s.turned k) rfl (goal_inc h k answer)
  | gotoprev answer => exact switches_shows s.noted rfl (s.after_gotoprev answer)
  | register reg => exact switches_stay rfl rfl
  | gotoregister reg answer =>
    cases hreg : s.reglist reg with
    | none =>
      apply switches_stay
      · rw [after_unknown hreg]
        rfl
      · exact hreg
    | some elem =>
      have hgoal : (Operation.gotoregister reg answer).goal s = some elem := hreg
      have hafter := after_known hreg answer
      rw [← hgoal] at hafter
      exact switches_shows s.noted rfl hafter

/-- An operation that writes `prevbufno` writes the shown buffer. -/
theorem prevbufno_of_writes (h : s.Writes op) : (s.after op).prevbufno = some s.window.number := by
  cases op with
  | push =>
    obtain ⟨x, hx, hne⟩ := h
    rw [prevbufno_push, prevbufno_pop, if_neg fun hnil => hne (s.dropped_eq_nil.mp hnil x hx)]
  | pop =>
    obtain ⟨x, hx, hne⟩ := h
    rw [prevbufno_pop, if_neg fun hnil => hne (s.dropped_eq_nil.mp hnil x hx)]
  | purge => exact absurd h id
  | inc k answer =>
    rw [goal_inc h, prevbufno_shows]
    rfl
  | gotoprev answer =>
    rw [after_gotoprev, prevbufno_shows]
    rfl
  | register reg => exact absurd h id
  | gotoregister reg answer =>
    cases hreg : s.reglist reg with
    | none =>
      rw [after_unknown hreg]
      rfl
    | some elem =>
      rw [after_known hreg, prevbufno_shows]
      rfl

theorem prevbufno_of_not_writes (h : ¬ s.Writes op) : (s.after op).prevbufno = s.prevbufno := by
  have hdropped (hnone : ¬ ∃ x ∈ s.curlist, x.bufno ≠ s.window.number) :
      s.dropped.curlist = [] := by
    apply s.dropped_eq_nil.mpr
    intro x hx
    by_contra hne
    exact hnone ⟨x, hx, hne⟩
  cases op with
  | push => rw [prevbufno_push, prevbufno_pop, if_pos (hdropped h)]
  | pop => rw [prevbufno_pop, if_pos (hdropped h)]
  | purge => rfl
  | inc k answer => rw [after_inc_nil (not_not.mp h)]
  | gotoprev answer => exact absurd trivial h
  | register reg => rfl
  | gotoregister reg answer => exact absurd trivial h

theorem Goes.writes (h : s.Goes op) : s.Writes op := by
  obtain ⟨number, hgoal, -⟩ := h
  cases op with
  | push => exact absurd hgoal nofun
  | pop => exact absurd hgoal nofun
  | purge => exact absurd hgoal nofun
  | inc k answer =>
    intro hnil
    rw [Operation.goal, hnil] at hgoal
    exact absurd hgoal nofun
  | gotoprev answer => trivial
  | register reg => exact absurd hgoal nofun
  | gotoregister reg answer => trivial

/-- What the condition says of one operation. -/
theorem meets_iff (s : BufferSwitcher) (op : Operation) :
    s.Meets op ↔ (¬ s.Switches op → (s.after op).prevbufno = s.prevbufno) := by
  unfold Meets
  rw [switches_iff]
  constructor
  · rintro (hgoes | hquiet | hsame) hstays
    · exact absurd hgoes hstays
    · exact prevbufno_of_not_writes hquiet
    · by_cases hwrites : s.Writes op
      · exact (prevbufno_of_writes hwrites).trans hsame.symm
      · exact prevbufno_of_not_writes hwrites
  · intro h
    by_cases hgoes : s.Goes op
    · exact .inl hgoes
    · by_cases hwrites : s.Writes op
      · exact .inr (.inr ((h hgoes).symm.trans (prevbufno_of_writes hwrites)))
      · exact .inr (.inl hwrites)

/-! ## Runs -/

/-- The state behind a run. -/
def afterAll (s : BufferSwitcher) (ops : List Operation) : BufferSwitcher := ops.foldl after s

/-- The buffer that was shown before the last switch of a run. -/
def left (s : BufferSwitcher) : List Operation → Option ℕ
  | [] => none
  | op :: ops => ((s.after op).left ops).or
      (if (s.after op).window.number = s.window.number then none else some s.window.number)

/-- Along a run only a switch changes where `gotoprev` goes; so it goes back over the last one, and
a second `gotoprev` returns. -/
structure GoesBack (s : BufferSwitcher) (ops : List Operation) : Prop where
  stays : ∀ past op, (past ++ [op]).IsPrefix ops → ¬ (s.afterAll past).Switches op →
    ((s.afterAll past).after op).prevbufno = (s.afterAll past).prevbufno
  goes : ∀ past number there back, past.IsPrefix ops → s.left past = some number →
    let before := s.afterAll past
    let behind := before.after (.gotoprev (some there))
    behind.window.number = number ∧
      (behind.after (.gotoprev (some back))).window.number = before.window.number

theorem afterAll_concat (s : BufferSwitcher) (ops : List Operation) (op : Operation) :
    s.afterAll (ops ++ [op]) = (s.afterAll ops).after op := List.foldl_concat ..

theorem left_concat (ops : List Operation) (s : BufferSwitcher) (op : Operation) :
    s.left (ops ++ [op]) = (if (s.afterAll (ops ++ [op])).window.number
        = (s.afterAll ops).window.number then none
      else some (s.afterAll ops).window.number).or (s.left ops) := by
  induction ops generalizing s with
  | nil => exact (Option.or_none).symm
  | cons first ops ih =>
    have hnext := ih (s.after first)
    rw [List.cons_append, left, hnext, Option.or_assoc]
    rfl

/-- `gotoprev` shows the previous buffer, which is then the one that it came from. -/
theorem gotoprev_back {number : ℕ} (h : s.prevbufno = some number) (there back : Cursor) :
    (s.after (.gotoprev (some there))).window.number = number ∧
      ((s.after (.gotoprev (some there))).after (.gotoprev (some back))).window.number
        = s.window.number := by
  have hthere : s.after (.gotoprev (some there)) = { s.noted with window := ⟨number, there⟩ } := by
    rw [after_gotoprev, h]
    rfl
  rw [hthere]
  refine ⟨rfl, ?_⟩
  rw [after_gotoprev]
  rfl

/-- Where no other operation has changed it, `prevbufno` is the buffer before the last switch. -/
theorem prevbufno_of_left {ops : List Operation}
    (hstays : ∀ past op, (past ++ [op]).IsPrefix ops → ¬ (s.afterAll past).Switches op →
      ((s.afterAll past).after op).prevbufno = (s.afterAll past).prevbufno)
    {past : List Operation} {number : ℕ} (hpast : past.IsPrefix ops)
    (hleft : s.left past = some number) : (s.afterAll past).prevbufno = some number := by
  induction past using List.reverseRecOn generalizing number with
  | nil => exact absurd hleft nofun
  | append_singleton past op ih =>
    rw [left_concat, afterAll_concat] at hleft
    rw [afterAll_concat]
    by_cases hsame : ((s.afterAll past).after op).window.number = (s.afterAll past).window.number
    · rw [if_pos hsame, Option.none_or] at hleft
      rw [hstays past op hpast (not_not.mpr hsame)]
      exact ih ((List.prefix_append past [op]).trans hpast) hleft
    · rw [if_neg hsame, Option.some_or] at hleft
      rw [← hleft]
      exact prevbufno_of_writes (((switches_iff _ op).mp hsame).writes)

/-- `gotoprev` goes back over the last switch, all along a run, where each operation of it goes to
another buffer, or leaves `prevbufno` alone, or finds the shown buffer there, and only then. -/
theorem gotoprev_goes_back (s : BufferSwitcher) (ops : List Operation) :
    s.GoesBack ops ↔
      ∀ past op, (past ++ [op]).IsPrefix ops → (s.afterAll past).Meets op := by
  constructor
  · intro h past op hpast
    exact (meets_iff _ op).mpr (h.stays past op hpast)
  · intro h
    have hstays (past : List Operation) (op : Operation) (hpast : (past ++ [op]).IsPrefix ops) :=
      (meets_iff _ op).mp (h past op hpast)
    refine ⟨hstays, ?_⟩
    intro past number there back hpast hleft
    exact gotoprev_back (prevbufno_of_left hstays hpast hleft) there back

/-- Two buffers are pushed, and `inc` shows the first of them again. A `push` there, and `gotoprev`
goes nowhere. -/
theorem push_forgets : ∃ s, system.Reachable s ∧ s.window.number = 2 ∧
    s.left [.inc 1 (some ⟨1, 0⟩), .push] = some 2 ∧
    (s.afterAll [.inc 1 (some ⟨1, 0⟩), .push, .gotoprev (some ⟨1, 0⟩)]).window.number = 1 ∧
    ¬ s.GoesBack [.inc 1 (some ⟨1, 0⟩), .push] := by
  let history : List Event := [.operation .push, .moved ⟨2, ⟨7, 3⟩⟩, .operation .push]
  have hrun : ∃ s, system.run (initial ⟨1, ⟨1, 0⟩⟩) history = some s ∧ s.window.number = 2 ∧
      s.left [.inc 1 (some ⟨1, 0⟩), .push] = some 2 ∧
      (s.afterAll [.inc 1 (some ⟨1, 0⟩), .push, .gotoprev (some ⟨1, 0⟩)]).window.number = 1 :=
    ⟨_, rfl, rfl, rfl, rfl⟩
  obtain ⟨s, hrun, hshown, hleft, hprev⟩ := hrun
  refine ⟨s, Lib.System.Reachable.run (.init ⟨_, rfl⟩) hrun, hshown, hleft, hprev, ?_⟩
  intro h
  have hback := (h.goes _ 2 ⟨1, 0⟩ ⟨1, 0⟩ (List.prefix_refl _) hleft).1
  exact absurd (hprev.symm.trans hback) (by decide)

end Holchain.Rc.Vim.BufferSwitcher
