import Mathlib.Algebra.Order.Ring.Int
import Mathlib.Data.List.Rotate
import Holchain.Rc.BufferSwitcher

/-!
# Laws.BufferSwitcher — turning through the list

Each buffer is in the list once, and after `push`, `pop` and `inc` the index is one of the list's,
wherever it was before: `inc` brings it back by its remainder. So no operation indexes out of the
list, and `inc` turns through it (`buffers_turn`).
-/

namespace Holchain.Rc.Vim.BufferSwitcher

variable {s t : BufferSwitcher} {k : ℤ} {answer : Option Cursor}

/-! ## What the methods do -/

/-- Where `inc` sets the index. -/
def target (s : BufferSwitcher) (k : ℤ) : ℤ := (k + s.curlist.length + s.curidx) % s.curlist.length

/-- The shown buffer is the previous one from now on. -/
def noted (s : BufferSwitcher) : BufferSwitcher := { s with prevbufno := some s.window.number }

/-- What `inc` does to the variables. -/
def turned (s : BufferSwitcher) (k : ℤ) : BufferSwitcher := { s.noted with curidx := s.target k }

/-- The list without the shown buffer. -/
def dropped (s : BufferSwitcher) : BufferSwitcher :=
  { s with curlist := s.curlist.filter fun x => x.bufno != s.window.number }

/-- The shown buffer as an element of the list. -/
def current (s : BufferSwitcher) : Entry :=
  ⟨s.window.number, s.window.cursor.line, s.window.cursor.col⟩

/-- The buffer is shown, or vim raises. -/
def shows (s : BufferSwitcher) : Option ℕ → Option Cursor → Except Error Unit × BufferSwitcher
  | some number, some cursor => (.ok (), { s with window := ⟨number, cursor⟩ })
  | some _, none => (.error .vim, s)
  | none, _ => (.error .vim, s)

theorem target_bounds (s : BufferSwitcher) (k : ℤ) (h : s.curlist ≠ []) :
    0 ≤ s.target k ∧ s.target k < s.curlist.length := by
  have hpos : (0 : ℤ) < s.curlist.length := Int.natCast_pos.mpr (List.length_pos_of_ne_nil h)
  exact ⟨Int.emod_nonneg _ hpos.ne', Int.emod_lt_of_pos _ hpos⟩

theorem run_buffer (s : BufferSwitcher) (bufno : Option ℕ) (answer : Option Cursor) :
    (buffer bufno answer).run.run s = s.shows bufno answer := by
  cases bufno with
  | none => rfl
  | some number =>
    cases answer with
    | none => rfl
    | some cursor => rfl

/-- Only what is shown changes. -/
theorem after_shows (s : BufferSwitcher) (bufno : Option ℕ) (answer : Option Cursor) :
    (s.shows bufno answer).2 = { s with window := (s.shows bufno answer).2.window } := by
  cases bufno with
  | none => rfl
  | some number =>
    cases answer with
    | none => rfl
    | some cursor => rfl

theorem curlist_shows (s : BufferSwitcher) (bufno : Option ℕ) (answer : Option Cursor) :
    (s.shows bufno answer).2.curlist = s.curlist := by
  rw [after_shows]

theorem curidx_shows (s : BufferSwitcher) (bufno : Option ℕ) (answer : Option Cursor) :
    (s.shows bufno answer).2.curidx = s.curidx := by
  rw [after_shows]

theorem shows_ne_index (s : BufferSwitcher) (bufno : Option ℕ) (answer : Option Cursor) :
    (s.shows bufno answer).1 ≠ .error .index := by
  cases bufno with
  | none => exact fun heq => Error.noConfusion (Except.error.inj heq)
  | some number =>
    cases answer with
    | none => exact fun heq => Error.noConfusion (Except.error.inj heq)
    | some cursor => exact nofun

theorem subscript_of_bounds {xs : List Entry} {i : ℤ} (hlow : 0 ≤ i) (hhigh : i < xs.length) :
    ∃ x, xs[i.toNat]? = some x ∧ subscript xs i = pure x := by
  have hi : i.toNat < xs.length := by omega
  refine ⟨xs[i.toNat], List.getElem?_eq_getElem hi, ?_⟩
  have hsame : (if i < 0 then i + xs.length else i) = i := if_neg (not_lt.mpr hlow)
  unfold subscript
  rw [hsame, if_neg (not_lt.mpr hlow), List.getElem?_eq_getElem hi]

theorem run_inc_nil (h : s.curlist = []) (goto : Bool) :
    (inc k goto answer).run.run s = (.ok (), s) := by
  obtain ⟨list⟩ := s
  cases h
  rfl

theorem perform_inc_nil (h : s.curlist = []) : s.perform (.inc k answer) = (.ok (), s) :=
  run_inc_nil h true

theorem run_inc_still (h : s.curlist ≠ []) :
    (inc k false answer).run.run s = (.ok (), s.turned k) := by
  obtain ⟨list⟩ := s
  cases list with
  | nil => exact absurd rfl h
  | cons entry rest => rfl

/-- `inc` shows the buffer at its target. -/
theorem perform_inc (h : s.curlist ≠ []) (answer : Option Cursor) :
    ∃ entry, s.curlist[(s.target k).toNat]? = some entry ∧
      s.perform (.inc k answer) = (s.turned k).shows (some entry.bufno) answer := by
  obtain ⟨hlow, hhigh⟩ := s.target_bounds k h
  obtain ⟨entry, hentry, hsubscript⟩ := subscript_of_bounds hlow hhigh
  have hrun : s.perform (.inc k answer) = (do
      let elem ← subscript s.curlist (s.target k)
      buffer (some elem.bufno) answer : Method Unit).run.run (s.turned k) := by
    obtain ⟨list⟩ := s
    cases list with
    | nil => exact absurd rfl h
    | cons first rest => rfl
  refine ⟨entry, hentry, ?_⟩
  rw [hrun, hsubscript]
  exact run_buffer (s.turned k) (some entry.bufno) answer

/-- `pop` drops the shown buffer, and turns what is left by nothing. -/
theorem perform_pop (s : BufferSwitcher) :
    s.perform .pop = (.ok (), if s.dropped.curlist = [] then s.dropped else s.dropped.turned 0) := by
  have hrun : s.perform .pop = (inc 0 false none).run.run s.dropped := rfl
  rw [hrun]
  by_cases h : s.dropped.curlist = []
  · rw [run_inc_nil h, if_pos h]
  · rw [run_inc_still h, if_neg h]

theorem perform_push (s : BufferSwitcher) :
    s.perform .push = (.ok (), { s.after .pop with
      curidx := (s.after .pop).curlist.length
      curlist := (s.after .pop).curlist ++ [(s.after .pop).current] }) := by
  have hok : (s.perform .pop).1 = .ok () := by rw [perform_pop]
  have hpop : pop.run.run s = (.ok (), s.after .pop) := Prod.ext hok rfl
  unfold perform Operation.method push
  dsimp only
  rw [ExceptT.run_bind, StateT.run_bind, hpop]
  rfl

@[simp] theorem curlist_pop (s : BufferSwitcher) : (s.after .pop).curlist = s.dropped.curlist := by
  unfold after
  rw [perform_pop]
  dsimp only
  split
  · rfl
  · rfl

@[simp] theorem window_pop (s : BufferSwitcher) : (s.after .pop).window = s.window := by
  unfold after
  rw [perform_pop]
  dsimp only
  split
  · rfl
  · rfl

@[simp] theorem curlist_push (s : BufferSwitcher) :
    (s.after .push).curlist = s.dropped.curlist ++ [s.current] := by
  unfold after
  rw [perform_push]
  simp only [curlist_pop, current, window_pop]

theorem curidx_push (s : BufferSwitcher) : (s.after .push).curidx = s.dropped.curlist.length := by
  unfold after
  rw [perform_push]
  simp only [curlist_pop]

theorem perform_gotoprev (s : BufferSwitcher) (answer : Option Cursor) :
    s.perform (.gotoprev answer) = s.noted.shows s.prevbufno answer :=
  run_buffer s.noted s.prevbufno answer

theorem run_noted (s : BufferSwitcher) (next : BufferSwitcher → Method Unit) :
    (do let s ← get
        set { s with prevbufno := some s.window.number }
        next s : Method Unit).run.run s = (next s).run.run s.noted :=
  rfl

/-- An unknown register is noted and not shown. -/
theorem perform_unknown {reg : String} (h : s.reglist reg = none) (answer : Option Cursor) :
    s.perform (.gotoregister reg answer) = (.ok (), s.noted) := by
  apply (run_noted s _).trans
  rw [h]
  rfl

theorem perform_known {reg : String} {elem : ℕ} (h : s.reglist reg = some elem)
    (answer : Option Cursor) :
    s.perform (.gotoregister reg answer) = s.noted.shows (some elem) answer := by
  apply (run_noted s _).trans
  rw [h]
  exact run_buffer s.noted (some elem) answer

theorem after_gotoprev (s : BufferSwitcher) (answer : Option Cursor) :
    s.after (.gotoprev answer) = (s.noted.shows s.prevbufno answer).2 :=
  congrArg Prod.snd (s.perform_gotoprev answer)

theorem after_unknown {reg : String} (h : s.reglist reg = none) (answer : Option Cursor) :
    s.after (.gotoregister reg answer) = s.noted :=
  congrArg Prod.snd (perform_unknown h answer)

theorem after_known {reg : String} {elem : ℕ} (h : s.reglist reg = some elem)
    (answer : Option Cursor) :
    s.after (.gotoregister reg answer) = (s.noted.shows (some elem) answer).2 :=
  congrArg Prod.snd (perform_known h answer)

theorem after_inc_nil (h : s.curlist = []) : s.after (.inc k answer) = s :=
  congrArg Prod.snd (perform_inc_nil h)

theorem after_inc (h : s.curlist ≠ []) (answer : Option Cursor) :
    ∃ entry, s.curlist[(s.target k).toNat]? = some entry ∧
      s.after (.inc k answer) = ((s.turned k).shows (some entry.bufno) answer).2 := by
  obtain ⟨entry, hentry, hrun⟩ := perform_inc h answer
  exact ⟨entry, hentry, congrArg Prod.snd hrun⟩

theorem curidx_inc (h : s.curlist ≠ []) : (s.after (.inc k answer)).curidx = s.target k := by
  obtain ⟨entry, -, hafter⟩ := after_inc h answer
  rw [hafter]
  exact curidx_shows (s.turned k) (some entry.bufno) answer

@[simp] theorem curlist_inc (s : BufferSwitcher) (k : ℤ) (answer : Option Cursor) :
    (s.after (.inc k answer)).curlist = s.curlist := by
  by_cases h : s.curlist = []
  · rw [after_inc_nil h]
  · obtain ⟨entry, -, hafter⟩ := after_inc h answer
    rw [hafter]
    exact curlist_shows (s.turned k) (some entry.bufno) answer

/-! ## What is selected -/

/-- The index is one of the list's. -/
def Selects (s : BufferSwitcher) : Prop := 0 ≤ s.curidx ∧ s.curidx < s.curlist.length

/-- The entry at the index. -/
def selected (s : BufferSwitcher) : Option Entry := s.curlist[s.curidx.toNat]?

/-- The operations that place the index. -/
inductive Operation.Places : Operation → Prop
  | push : Places .push
  | pop : Places .pop
  | inc (k : ℤ) (answer : Option Cursor) : Places (.inc k answer)

theorem Selects.ne_nil (h : s.Selects) : s.curlist ≠ [] := by
  intro hnil
  obtain ⟨hlow, hhigh⟩ := h
  rw [hnil] at hhigh
  exact absurd hlow (not_le.mpr hhigh)

theorem selects_inc (h : s.curlist ≠ []) : (s.after (.inc k answer)).Selects := by
  unfold Selects
  rw [curidx_inc h, curlist_inc]
  exact s.target_bounds k h

theorem selects_pop (h : (s.after .pop).curlist ≠ []) : (s.after .pop).Selects := by
  rw [curlist_pop] at h
  have hafter : s.after .pop = s.dropped.turned 0 :=
    (congrArg Prod.snd s.perform_pop).trans (if_neg h)
  rw [hafter]
  exact s.dropped.target_bounds 0 h

theorem selects_push (s : BufferSwitcher) : (s.after .push).Selects := by
  unfold Selects
  rw [curidx_push, curlist_push, List.length_append]
  exact ⟨Int.natCast_nonneg _, Int.ofNat_lt.mpr (Nat.lt_succ_self _)⟩

/-- `push` selects the shown buffer. -/
theorem selected_push (s : BufferSwitcher) : (s.after .push).selected = some s.current := by
  unfold selected
  rw [curidx_push, curlist_push, Int.toNat_natCast, List.getElem?_concat_length]

/-- `inc` shows what it selects. -/
theorem selected_inc (h : s.curlist ≠ []) (k : ℤ) (cursor : Cursor) :
    (s.after (.inc k (some cursor))).selected.map Entry.bufno
      = some (s.after (.inc k (some cursor))).window.number := by
  obtain ⟨entry, hentry, hafter⟩ := after_inc h (some cursor)
  unfold selected
  rw [curidx_inc h, curlist_inc, hentry, hafter]
  rfl

/-! ## Turning -/

/-- `inc(1)` for each of vim's answers. -/
def turn (s : BufferSwitcher) : List (Option Cursor) → BufferSwitcher
  | [] => s
  | answer :: answers => (s.after (.inc 1 answer)).turn answers

/-- The states behind each of them. -/
def turns (s : BufferSwitcher) : List (Option Cursor) → List BufferSwitcher
  | [] => []
  | answer :: answers => s.after (.inc 1 answer) :: (s.after (.inc 1 answer)).turns answers

theorem curlist_turn (answers : List (Option Cursor)) (s : BufferSwitcher) :
    (s.turn answers).curlist = s.curlist := by
  induction answers generalizing s with
  | nil => rfl
  | cons answer answers ih => exact (ih _).trans (s.curlist_inc 1 answer)

theorem getElem?_turns (answers : List (Option Cursor)) (s : BufferSwitcher) {i : ℕ}
    (hi : i < answers.length) : (s.turns answers)[i]? = some (s.turn (answers.take (i + 1))) := by
  induction answers generalizing s i with
  | nil => exact absurd hi (Nat.not_lt_zero i)
  | cons answer answers ih =>
    cases i with
    | zero => rfl
    | succ i => exact ih _ (Nat.lt_of_succ_lt_succ hi)

theorem length_turns (answers : List (Option Cursor)) (s : BufferSwitcher) :
    (s.turns answers).length = answers.length := by
  induction answers generalizing s with
  | nil => rfl
  | cons answer answers ih => exact congrArg Nat.succ (ih _)

/-- Each turn moves the index by one, around the list. -/
theorem curidx_turn (answers : List (Option Cursor)) {s : BufferSwitcher} (h : s.Selects) :
    (s.turn answers).curidx = (s.curidx + answers.length) % s.curlist.length := by
  induction answers generalizing s with
  | nil =>
    rw [List.length_nil, Int.natCast_zero, Int.add_zero]
    exact (Int.emod_eq_of_lt h.1 h.2).symm
  | cons answer answers ih =>
    have hnext : (s.after (.inc 1 answer)).Selects := selects_inc h.ne_nil
    have hturn := ih hnext
    rw [curidx_inc h.ne_nil, curlist_inc, target, Int.emod_add_emod] at hturn
    have hsum : 1 + (s.curlist.length : ℤ) + s.curidx + answers.length
        = s.curidx + (answers.length + 1) + s.curlist.length := by omega
    rw [hsum, Int.add_emod_right] at hturn
    exact hturn

theorem selected_turn (answers : List (Option Cursor)) (h : s.Selects) :
    (s.turn answers).selected
      = s.curlist[(s.curidx.toNat + answers.length) % s.curlist.length]? := by
  obtain ⟨c, hc⟩ := Int.eq_ofNat_of_zero_le h.1
  have hidx : (s.turn answers).curidx.toNat
      = (s.curidx.toNat + answers.length) % s.curlist.length := by
    rw [curidx_turn answers h, hc, Int.toNat_natCast]
    norm_cast
  rw [selected, hidx, curlist_turn]

/-- What the turns of a round select is the list, rotated. -/
theorem selected_turns {answers : List (Option Cursor)} (h : s.Selects)
    (hlength : answers.length = s.curlist.length) :
    (s.turns answers).map selected = (s.curlist.rotate (s.curidx.toNat + 1)).map some := by
  apply List.ext_getElem?
  intro i
  rw [List.getElem?_map, List.getElem?_map]
  by_cases hi : i < s.curlist.length
  · have hanswers : i < answers.length := hi.trans_eq hlength.symm
    have htake : (answers.take (i + 1)).length = i + 1 := List.length_take_of_le hanswers
    have hmod : i + (s.curidx.toNat + 1) = s.curidx.toNat + (i + 1) := by omega
    have hlt : (s.curidx.toNat + (i + 1)) % s.curlist.length < s.curlist.length :=
      Nat.mod_lt _ (Nat.zero_lt_of_lt hi)
    rw [getElem?_turns answers s hanswers, List.getElem?_rotate hi, hmod, Option.map_some,
      selected_turn _ h, htake, List.getElem?_eq_getElem hlt]
    rfl
  · have hout : s.curlist.length ≤ i := not_lt.mp hi
    rw [List.getElem?_eq_none (by rwa [length_turns, hlength]),
      List.getElem?_eq_none (by rwa [List.length_rotate])]
    rfl

/-- `inc(k)` and then `inc(-k)` select the entry again. -/
theorem curidx_inc_neg (h : s.Selects) (k : ℤ) (there back : Option Cursor) :
    ((s.after (.inc k there)).after (.inc (-k) back)).curidx = s.curidx := by
  have hnext : (s.after (.inc k there)).curlist ≠ [] := by
    rw [curlist_inc]
    exact h.ne_nil
  rw [curidx_inc hnext, target, curidx_inc h.ne_nil, curlist_inc, target]
  have hsum : -k + (s.curlist.length : ℤ) + (k + s.curlist.length + s.curidx)
      = s.curidx + s.curlist.length + s.curlist.length := by omega
  rw [Int.add_emod_emod, hsum, Int.add_emod_right, Int.add_emod_right]
  exact Int.emod_eq_of_lt h.1 h.2

/-! ## Every history -/

/-- Each buffer is in the list once. -/
def Distinct (s : BufferSwitcher) : Prop := (s.curlist.map Entry.bufno).Nodup

theorem distinct_dropped (h : s.Distinct) : s.dropped.Distinct :=
  h.sublist (List.filter_sublist.map Entry.bufno)

theorem distinct_push (h : s.Distinct) : (s.after .push).Distinct := by
  unfold Distinct
  rw [curlist_push, List.map_append, List.nodup_append]
  refine ⟨distinct_dropped h, List.nodup_singleton _, ?_⟩
  intro number hnumber shown hshown heq
  obtain ⟨entry, hentry, hbufno⟩ := List.mem_map.mp hnumber
  have hother := (List.mem_filter.mp hentry).2
  rw [hbufno, heq, List.mem_singleton.mp hshown] at hother
  exact absurd rfl (bne_iff_ne.mp hother)

/-- The operations that place no index leave the list alone, or clear it. -/
theorem distinct_after (h : s.Distinct) (op : Operation) : (s.after op).Distinct := by
  cases op with
  | push => exact distinct_push h
  | pop =>
    unfold Distinct
    rw [curlist_pop]
    exact distinct_dropped h
  | purge => exact List.nodup_nil
  | inc k answer =>
    unfold Distinct
    rw [curlist_inc]
    exact h
  | gotoprev answer =>
    unfold Distinct
    rw [after_gotoprev, curlist_shows]
    exact h
  | register reg => exact h
  | gotoregister reg answer =>
    unfold Distinct
    cases hreg : s.reglist reg with
    | none =>
      rw [after_unknown hreg]
      exact h
    | some elem =>
      rw [after_known hreg, curlist_shows]
      exact h

theorem Reachable.distinct (h : system.Reachable s) : s.Distinct := by
  refine h.invariant ?_ ?_
  · rintro s ⟨window, rfl⟩
    exact List.nodup_nil
  · intro s t event hs hstep
    cases event with
    | operation op =>
      cases hstep
      exact distinct_after hs op
    | moved window =>
      cases hstep
      exact hs

/-- No operation indexes out of the list. -/
theorem perform_ne_index (s : BufferSwitcher) (op : Operation) :
    (s.perform op).1 ≠ .error .index := by
  cases op with
  | push =>
    rw [perform_push]
    exact nofun
  | pop =>
    rw [perform_pop]
    exact nofun
  | purge => exact nofun
  | inc k answer =>
    by_cases h : s.curlist = []
    · rw [perform_inc_nil h]
      exact nofun
    · obtain ⟨entry, -, hrun⟩ := perform_inc (k := k) h answer
      rw [hrun]
      exact shows_ne_index (s.turned k) (some entry.bufno) answer
  | gotoprev answer =>
    rw [perform_gotoprev]
    exact shows_ne_index s.noted s.prevbufno answer
  | register reg => exact nofun
  | gotoregister reg answer =>
    cases hreg : s.reglist reg with
    | none =>
      rw [perform_unknown hreg]
      exact nofun
    | some elem =>
      rw [perform_known hreg]
      exact shows_ne_index s.noted (some elem) answer

theorem selects_after {op : Operation} (hop : op.Places) (h : (s.after op).curlist ≠ []) :
    (s.after op).Selects := by
  cases hop with
  | push => exact selects_push s
  | pop => exact selects_pop h
  | inc k answer =>
    rw [curlist_inc] at h
    exact selects_inc h

/-- A round of turns begins and ends at the same entry. -/
theorem curidx_round {answers : List (Option Cursor)} (h : s.Selects)
    (hlength : answers.length = s.curlist.length) : (s.turn answers).curidx = s.curidx := by
  rw [curidx_turn answers h, hlength, Int.add_emod_right]
  exact Int.emod_eq_of_lt h.1 h.2

/-- Where vim shows every buffer, each turn shows what it selects. -/
theorem number_turns (cursors : List Cursor) (h : s.curlist ≠ []) :
    (s.turns (cursors.map some)).map (fun t => some t.window.number)
      = (s.turns (cursors.map some)).map fun t => t.selected.map Entry.bufno := by
  induction cursors generalizing s with
  | nil => rfl
  | cons cursor cursors ih =>
    have hnext : (s.after (.inc 1 (some cursor))).curlist ≠ [] := by
      rw [curlist_inc]
      exact h
    exact congrArg₂ List.cons (selected_inc h 1 cursor).symm (ih hnext)

/-- Where vim shows every buffer, a round shows each of the list's. -/
theorem number_round {cursors : List Cursor} (h : s.Selects)
    (hlength : cursors.length = s.curlist.length) :
    ((s.turns (cursors.map some)).map fun t => t.window.number).Perm
      (s.curlist.map Entry.bufno) := by
  have hanswers : (cursors.map some).length = s.curlist.length :=
    (List.length_map some).trans hlength
  have hnumbers : ((s.turns (cursors.map some)).map fun t => t.window.number).map some
      = ((s.curlist.rotate (s.curidx.toNat + 1)).map Entry.bufno).map some := by
    calc ((s.turns (cursors.map some)).map fun t => t.window.number).map some
        = (s.turns (cursors.map some)).map fun t => some t.window.number := by
          rw [List.map_map]
          rfl
      _ = ((s.turns (cursors.map some)).map selected).map (Option.map Entry.bufno) := by
          rw [number_turns cursors h.ne_nil, List.map_map]
          rfl
      _ = ((s.curlist.rotate (s.curidx.toNat + 1)).map Entry.bufno).map some := by
          rw [selected_turns h hanswers, List.map_map, List.map_map]
          rfl
  rw [List.map_injective_iff.mpr (Option.some_injective ℕ) hnumbers]
  exact (List.rotate_perm s.curlist _).map Entry.bufno

/-- In every state that the operations and the user reach, each buffer is in the list once, no
operation indexes out of the list, `push`, `pop` and `inc` leave the index in it, `push` puts the
shown buffer last and selects it, and where an entry is selected a round of `inc(1)` visits every
buffer and comes back, as `inc(-k)` does behind `inc(k)`. -/
theorem buffers_turn (h : system.Reachable s) :
    (s.curlist.map Entry.bufno).Nodup ∧
      (∀ op, (s.perform op).1 ≠ .error .index) ∧
      (∀ op : Operation, op.Places → (s.after op).curlist ≠ [] → (s.after op).Selects) ∧
      ((s.after .push).curlist.getLast? = some s.current ∧
        (s.after .push).selected = some s.current) ∧
      (s.Selects →
        (∀ answers : List (Option Cursor), answers.length = s.curlist.length →
          ((s.turns answers).map selected).Perm (s.curlist.map some) ∧
            (s.turn answers).curlist = s.curlist ∧ (s.turn answers).curidx = s.curidx) ∧
        (∀ cursors : List Cursor, cursors.length = s.curlist.length →
          ((s.turns (cursors.map some)).map fun t => t.window.number).Perm
            (s.curlist.map Entry.bufno)) ∧
        ∀ k there back,
          ((s.after (.inc k there)).after (.inc (-k) back)).curlist = s.curlist ∧
            ((s.after (.inc k there)).after (.inc (-k) back)).curidx = s.curidx) := by
  refine ⟨Reachable.distinct h, s.perform_ne_index, fun op => selects_after, ⟨?_, ?_⟩, ?_⟩
  · rw [curlist_push, List.getLast?_concat]
  · exact s.selected_push
  · intro hs
    refine ⟨?_, fun cursors => number_round hs, ?_⟩
    · intro answers hlength
      refine ⟨?_, curlist_turn answers s, curidx_round hs hlength⟩
      rw [selected_turns hs hlength]
      exact (List.rotate_perm s.curlist _).map some
    · intro k there back
      refine ⟨?_, curidx_inc_neg hs k there back⟩
      rw [curlist_inc, curlist_inc]

/-- Two buffers are pushed, the first of them twice. -/
theorem buffers_turn_two : ∃ s, system.Reachable s ∧ s.curlist.map Entry.bufno = [2, 1] ∧
    ((s.turns [none, some ⟨1, 0⟩]).map selected).Perm (s.curlist.map some) ∧
    ((s.after (.inc (-5) none)).after (.inc (- -5) none)).curidx = 1 := by
  let history : List Event := [.operation .push, .moved ⟨2, ⟨7, 3⟩⟩, .operation .push,
    .moved ⟨1, ⟨4, 0⟩⟩, .operation .push]
  have hrun : ∃ s, system.run (initial ⟨1, ⟨1, 0⟩⟩) history = some s ∧
      s.curlist = [⟨2, 7, 3⟩, ⟨1, 4, 0⟩] ∧ s.curidx = 1 := ⟨_, rfl, rfl, rfl⟩
  obtain ⟨s, hrun, hlist, hidx⟩ := hrun
  have hreachable : system.Reachable s := Lib.System.Reachable.run (.init ⟨_, rfl⟩) hrun
  obtain ⟨-, -, -, -, hturn⟩ := buffers_turn hreachable
  have hselects : s.Selects := by
    unfold Selects
    rw [hlist, hidx]
    decide
  obtain ⟨hround, -, hback⟩ := hturn hselects
  have hlength : [none, some (Cursor.mk 1 0)].length = s.curlist.length := by
    rw [hlist]
    rfl
  refine ⟨s, hreachable, ?_, (hround _ hlength).1, (hback (-5) none none).2.trans hidx⟩
  rw [hlist]
  rfl

end Holchain.Rc.Vim.BufferSwitcher
