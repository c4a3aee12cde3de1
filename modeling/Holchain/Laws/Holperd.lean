import Holchain.Lib.JsonLaws
import Holchain.Python.Holperd

/-!
# Laws.Holperd — timers, streams and replies

What a step does to the timers is said once (`Move`): it leaves them alone, adds one, cancels one,
or lets one wake up; and three times it drops a timer without freeing its id. Where no step does
that, the ids in `Timer.timers` are those of the timers that handlers have in hand.
-/

namespace Holchain.Python

open Lib (Str Json text)

variable {F : Type} {env : Env F} {s t u : State F} {c : Conn}

/-! ## What the parts of a step leave alone -/

section Fields

variable (env : Env F) (s : State F) (c : Conn) (so se : Stream) (t : Str)

@[simp] theorem write_timers : (write t s).timers = s.timers := rfl

@[simp] theorem write_record : (write t s).record = s.record := rfl

@[simp] theorem write_phase : (write t s).phase = s.phase := rfl

@[simp] theorem log_timers : (log env s).timers = s.timers := rfl

@[simp] theorem log_record : (log env s).record = s.record := rfl

@[simp] theorem log_phase : (log env s).phase = s.phase := rfl

@[simp] theorem redirect_timers : (redirect c s).timers = s.timers := rfl

@[simp] theorem redirect_record : (redirect c s).record = s.record := rfl

@[simp] theorem redirect_phase : (redirect c s).phase = s.phase := rfl

@[simp] theorem finish_timers : (finish c so se s).timers = s.timers := rfl

@[simp] theorem finish_record : (finish c so se s).record = s.record := rfl

@[simp] theorem finish_phase : (finish c so se s).phase = Function.update s.phase c .ended := rfl

variable (msg : Json F) (code : ℤ) (awaiting : Phase)

@[simp] theorem sendAndClose_timers :
    (sendAndClose env c msg code awaiting s).timers = s.timers := rfl

@[simp] theorem sendAndClose_record :
    (sendAndClose env c msg code awaiting s).record = s.record := rfl

@[simp] theorem sendAndClose_phase :
    (sendAndClose env c msg code awaiting s).phase = Function.update s.phase c awaiting := rfl

end Fields

/-- Nothing happens to the timers, and the handler of `c` has none in hand. -/
structure Quiet (c : Conn) (s t : State F) : Prop where
  timers : t.timers = s.timers
  record : t.record = s.record
  phase : ∃ p : Phase, p.task = none ∧ t.phase = Function.update s.phase c p

theorem quiet_send (msg : Json F) (code : ℤ) {awaiting : Phase} (h : awaiting.task = none) :
    Quiet c s (sendAndClose env c msg code awaiting s) :=
  ⟨rfl, rfl, awaiting, h, rfl⟩

theorem quiet_finish (so se : Stream) : Quiet c s (finish c so se s) :=
  ⟨rfl, rfl, .ended, rfl, rfl⟩

/-- A line that is logged before does not matter. -/
theorem Quiet.behind_log (h : Quiet c (log env s) t) : Quiet c s t :=
  ⟨h.timers, h.record, h.phase⟩

theorem quiet_failed (so se : Stream) (loggable : Bool) :
    Quiet c s (failed env c so se loggable s) := by
  cases loggable with
  | true => exact (quiet_send _ _ rfl).behind_log
  | false => exact (quiet_finish so se).behind_log

/-- Without a task in hand a handler has none behind its command. -/
theorem quiet_conclude (env : Env F) (c : Conn) (so se : Stream) (s : State F) (outcome : Outcome F) :
    Quiet c s (conclude env c so se none s outcome) := by
  cases outcome with
  | returned value code =>
    rw [conclude]
    split
    · exact quiet_failed so se _
    · split
      · split
        · exact (quiet_failed so se _).behind_log
        · exact (quiet_send _ code rfl).behind_log
      · exact (quiet_failed so se _).behind_log
  | exited => exact quiet_send _ 0 rfl
  | userError msg =>
    rw [conclude]
    split
    · exact (quiet_send _ (-1) rfl).behind_log
    · exact (quiet_finish so se).behind_log
  | raised loggable => exact quiet_failed so se loggable

/-- No text of the source has a surrogate. -/
theorem loggable_ofText (t : List Char) : loggable (.ofText t) = true := by
  rw [loggable, List.all_eq_true]
  intro p hp
  obtain ⟨a, -, rfl⟩ := List.mem_map.mp hp
  have hvalid : a.toNat.isValidChar := a.valid
  have hhigh : Lib.isHigh a.toNat = false := by
    rw [Bool.eq_false_iff]
    intro h
    have hbounds := Lib.isHigh_iff.mp h
    rcases hvalid with hlow | hlarge
    · omega
    · omega
  have hlow : Lib.isLow a.toNat = false := by
    rw [Bool.eq_false_iff]
    intro h
    have hbounds := Lib.isLow_iff.mp h
    rcases hvalid with hlow | hlarge
    · omega
    · omega
  rw [hhigh, hlow]
  rfl

/-! ## What a command does -/

/-- What a command and the reply to it do to the timers. -/
inductive Command (c : Conn) (s t : State F) : Prop
  | quiet : Quiet c s t → Command c s t
  | added (task : Task) (so se : Stream) : newid s.timers = some task.id →
      t.timers = s.timers.insert task.id true →
      t.record = Function.update s.record c
        (some { cancelled := false, woken := false, spoken := 0 }) →
      t.phase = Function.update s.phase c (.answering so se (some task)) → Command c s t
  | cancelled (id : ℕ) : id ∈ s.timers → t.timers = s.timers.insert id false →
      (t.record = fun c' => (s.record c').map (Record.cancel id (s.phase c').task)) →
      (∃ p : Phase, p.task = none ∧ t.phase = Function.update s.phase c p) → Command c s t

/-- `add` takes an id that is free, or there is none. -/
theorem add_cases (c : Conn) (seconds say : Str) (s : State F) :
    (∃ msg, newid s.timers = none ∧ add c seconds say s = (s, .userError msg, none))
      ∨ ∃ id, newid s.timers = some id ∧ add c seconds say s =
        ({ s with
            timers := s.timers.insert id true
            record := Function.update s.record c
              (some { cancelled := false, woken := false, spoken := 0 }) },
          .returned (.of (Json.intText id) (.int id)) 0,
          some { id, duration := seconds, say }) := by
  unfold add
  cases hnew : newid s.timers with
  | none => exact .inl ⟨_, rfl, rfl⟩
  | some id => exact .inr ⟨id, rfl, rfl⟩

/-- `cancel` finds the timer, or nothing is changed. -/
theorem cancel_cases (env : Env F) (timerId : Str) (s : State F) :
    (∃ id : ℕ, env.int timerId = some (id : ℤ) ∧ id ∈ s.timers ∧ cancel env timerId s =
        ({ s with
            timers := s.timers.insert id false
            record := fun c => (s.record c).map (Record.cancel id (s.phase c).task) },
          .returned (.of "True".toList (.bool true)) 0))
      ∨ ((∀ id : ℕ, env.int timerId = some (id : ℤ) → id ∉ s.timers)
        ∧ (cancel env timerId s = (s, .raised true)
          ∨ ∃ msg, cancel env timerId s = (s, .userError (.ofText msg)))) := by
  unfold cancel
  cases hint : env.int timerId with
  | none => exact .inr ⟨fun id hid => (nomatch hid), .inl rfl⟩
  | some n =>
    by_cases hn : isTimer s.timers n = true
    · left
      cases n with
      | ofNat id =>
        have hmem : id ∈ s.timers := of_decide_eq_true hn
        exact ⟨id, rfl, hmem, if_pos hn⟩
      | negSucc k => exact absurd hn Bool.false_ne_true
    · right
      refine ⟨?_, .inr ⟨_, if_neg hn⟩⟩
      intro id hid hmem
      rw [Option.some.inj hid] at hn
      exact hn (decide_eq_true hmem)

/-- The reply to `add`. -/
theorem conclude_of (so se : Stream) (task : Option Task) (s : State F) (t : List Char) (v : Json F)
    (code : ℤ) : conclude env c so se task s (.returned (.of t v) code) =
      sendAndClose env c v code (.answering so se task) (log env s) :=
  if_pos (loggable_ofText t)

theorem command_invoke (args : List (Json F)) (behaviour : Behaviour F) (so se : Stream) :
    Command c s (conclude env c so se (invoke env c args behaviour s).2.2
      (invoke env c args behaviour s).1 (invoke env c args behaviour s).2.1) := by
  unfold invoke
  cases env.route args with
  | add seconds say =>
    rcases add_cases c seconds say s with ⟨msg, -, heq⟩ | ⟨id, hnew, heq⟩
    · simp only [heq]
      exact .quiet (quiet_conclude env c so se s _)
    · simp only [heq, conclude_of]
      exact .added { id, duration := seconds, say } so se hnew rfl rfl rfl
  | cancel timerId =>
    rcases cancel_cases env timerId s with ⟨id, -, hmem, heq⟩ | ⟨-, heq | ⟨msg, heq⟩⟩
    · simp only [heq, conclude_of]
      exact .cancelled id hmem rfl rfl ⟨_, rfl, rfl⟩
    · simp only [heq]
      exact .quiet (quiet_conclude env c so se s _)
    · simp only [heq]
      exact .quiet (quiet_conclude env c so se s _)
  | other =>
    obtain ⟨htimers, hrecord, hphase⟩ :=
      quiet_conclude env c so se (write behaviour.printed s) behaviour.outcome
    exact .quiet ⟨htimers, hrecord, hphase⟩

/-- What is not about the timers does not matter. -/
theorem Command.of_same {s' : State F} (h : Command c s' t) (htimers : s'.timers = s.timers)
    (hrecord : s'.record = s.record) (hphase : s'.phase = s.phase) : Command c s t := by
  cases h with
  | quiet hquiet =>
    obtain ⟨htimers', hrecord', p, hp, hphase'⟩ := hquiet
    exact .quiet ⟨htimers'.trans htimers, hrecord'.trans hrecord, p, hp, hphase ▸ hphase'⟩
  | added task so se hnew htimers' hrecord' hphase' =>
    exact .added task so se (htimers ▸ hnew) (htimers ▸ htimers') (hrecord ▸ hrecord')
      (hphase ▸ hphase')
  | cancelled id hmem htimers' hrecord' hphase' =>
    rw [hrecord, hphase] at hrecord'
    exact .cancelled id (htimers ▸ hmem) (htimers ▸ htimers') hrecord' (hphase ▸ hphase')

theorem command_connected (command : List UInt8) (behaviour : Behaviour F) :
    Command c s (connected env c command behaviour s) := by
  unfold connected
  cases env.loads command with
  | none => exact .quiet (quiet_send _ _ rfl).behind_log.behind_log
  | some v =>
    simp only
    split
    · exact .quiet ⟨rfl, rfl, .ended, rfl, rfl⟩
    · exact .quiet (quiet_send _ _ rfl).behind_log.behind_log
    · exact (command_invoke _ behaviour s.stdout s.stderr).of_same rfl rfl rfl

/-! ## What a step does -/

/-- A timer is dropped with its id still taken: its response does not go out, or its duration is
refused. -/
def Drops (env : Env F) (task : Task) (c : Conn) (l : Label F) : Prop :=
  l = .disconnected c ∨ l = .delivered c ∧ env.sleeps task.duration = false

/-- What a step does to the timers. -/
inductive Move (env : Env F) (s t : State F) (l : Label F) (c : Conn) : Prop
  | quiet : (s.phase c).task = none → s.phase c ≠ .ended → Quiet c s t → Move env s t l c
  | command : s.phase c = .reading → Command c s t → Move env s t l c
  | slept (so se : Stream) (task : Task) : (s.phase c).task = some task →
      t.timers = s.timers → t.record = s.record →
      t.phase = Function.update s.phase c (.sleeping so se task) → Move env s t l c
  | dropped (task : Task) : (s.phase c).task = some task → Drops env task c l →
      Quiet c s t → Move env s t l c
  | woke (so se : Stream) (task : Task) (speech : Speech) :
      s.phase c = .sleeping so se task → l = .wake c speech → t = wakeUp env c so se task speech s →
      Move env s t l c

theorem Move.quiet_of {l : Label F} {p : Phase} (hphase : s.phase c = p) (htask : p.task = none)
    (hp : p ≠ .ended) (h : Quiet c s t) : Move env s t l c := by
  subst hphase
  exact .quiet htask hp h

theorem move_delivered (h : step env s (.delivered c) = some t) : Move env s t (.delivered c) c := by
  unfold step at h
  cases hphase : s.phase c with
  | absent => simp only [hphase] at h; cases h
  | reading => simp only [hphase] at h; cases h
  | sleeping so se task => simp only [hphase] at h; cases h
  | ended => simp only [hphase] at h; cases h
  | rejecting =>
    simp only [hphase] at h
    cases h
    exact .quiet_of hphase rfl Phase.noConfusion ⟨rfl, rfl, .ended, rfl, rfl⟩
  | excusing so se =>
    simp only [hphase] at h
    cases h
    exact .quiet_of hphase rfl Phase.noConfusion ⟨rfl, rfl, .ended, rfl, rfl⟩
  | answering so se task =>
    simp only [hphase] at h
    cases task with
    | none =>
      cases h
      exact .quiet_of hphase rfl Phase.noConfusion ⟨rfl, rfl, .ended, rfl, rfl⟩
    | some task =>
      cases h
      have htask : (s.phase c).task = some task := by rw [hphase]; rfl
      cases hsleeps : env.sleeps task.duration with
      | true =>
        rw [runTimer]
        simp only [hsleeps, if_true]
        exact .slept so se task htask rfl rfl rfl
      | false =>
        rw [runTimer]
        simp only [hsleeps, Bool.false_eq_true, if_false]
        exact .dropped task htask (.inr ⟨rfl, hsleeps⟩) ⟨rfl, rfl, .ended, rfl, rfl⟩

theorem move_disconnected (h : step env s (.disconnected c) = some t) :
    Move env s t (.disconnected c) c := by
  unfold step at h
  cases hphase : s.phase c with
  | absent => simp only [hphase] at h; cases h
  | reading => simp only [hphase] at h; cases h
  | sleeping so se task => simp only [hphase] at h; cases h
  | ended => simp only [hphase] at h; cases h
  | rejecting =>
    simp only [hphase] at h
    cases h
    exact .quiet_of hphase rfl Phase.noConfusion ⟨rfl, rfl, .ended, rfl, rfl⟩
  | excusing so se =>
    simp only [hphase] at h
    cases h
    exact .quiet_of hphase rfl Phase.noConfusion (quiet_finish so se)
  | answering so se task =>
    simp only [hphase] at h
    cases h
    cases task with
    | none =>
      exact .quiet_of hphase rfl Phase.noConfusion (quiet_failed so se true)
    | some task =>
      have htask : (s.phase c).task = some task := by rw [hphase]; rfl
      exact .dropped task htask (.inl rfl) (quiet_failed so se true)

/-- Every step is one of these. -/
theorem move_of_step {l : Label F} (h : step env s l = some t) : Move env s t l l.conn := by
  cases l with
  | connect c =>
    unfold step at h
    cases hphase : s.phase c with
    | absent =>
      simp only [hphase] at h
      cases h
      exact .quiet_of hphase rfl Phase.noConfusion ⟨rfl, rfl, .reading, rfl, rfl⟩
    | _ => simp only [hphase] at h; cases h
  | read c command behaviour =>
    unfold step at h
    cases hphase : s.phase c with
    | reading =>
      simp only [hphase] at h
      cases h
      exact .command hphase ((command_connected command behaviour).of_same rfl rfl rfl)
    | _ => simp only [hphase] at h; cases h
  | delivered c => exact move_delivered h
  | disconnected c => exact move_disconnected h
  | wake c speech =>
    unfold step at h
    cases hphase : s.phase c with
    | sleeping so se task =>
      simp only [hphase] at h
      cases h
      exact .woke so se task speech hphase rfl rfl
    | _ => simp only [hphase] at h; cases h

theorem wakeUp_phase (so se : Stream) (task : Task) (speech : Speech) (s : State F) :
    (wakeUp env c so se task speech s).phase = Function.update s.phase c .ended := by
  unfold wakeUp
  dsimp only
  split
  · rfl
  · rfl
  · split
    · rfl
    · rfl

/-- A step is seen at one connection only. -/
theorem phase_of_step {l : Label F} (h : step env s l = some t) (hc : c ≠ l.conn) :
    t.phase c = s.phase c := by
  have hupdate : ∃ p, t.phase = Function.update s.phase l.conn p := by
    cases move_of_step h with
    | quiet _ _ hquiet =>
      obtain ⟨p, -, hphase⟩ := hquiet.phase
      exact ⟨p, hphase⟩
    | command _ hcommand =>
      cases hcommand with
      | quiet hquiet =>
        obtain ⟨p, -, hphase⟩ := hquiet.phase
        exact ⟨p, hphase⟩
      | added task so se _ _ _ hphase => exact ⟨_, hphase⟩
      | cancelled id _ _ _ hphase =>
        obtain ⟨p, -, hphase⟩ := hphase
        exact ⟨p, hphase⟩
    | slept so se task _ _ _ hphase => exact ⟨_, hphase⟩
    | dropped task _ _ hquiet =>
      obtain ⟨p, -, hphase⟩ := hquiet.phase
      exact ⟨p, hphase⟩
    | woke so se task speech _ _ ht =>
      rw [ht]
      exact ⟨.ended, wakeUp_phase so se task speech s⟩
  obtain ⟨p, hphase⟩ := hupdate
  rw [hphase, Function.update_of_ne hc]

/-- Connections that have no part in a run. -/
theorem phase_of_run {ls : List (Label F)} (h : (system env).run s ls = some t)
    (hc : ∀ l ∈ ls, c ≠ l.conn) : t.phase c = s.phase c := by
  refine Lib.System.run_preserves (I := fun t => t.phase c = s.phase c) ?_ rfl h
  intro l hl u v hu hstep
  rw [phase_of_step hstep (hc l hl), hu]

/-- A timer whose flag is off is freed, and nothing is said. -/
theorem wakeUp_cancelled {task : Task} (h : s.timers.lookup task.id = some false) (so se : Stream)
    (speech : Speech) : wakeUp env c so se task speech s =
      finish c so se (log env { s with
        timers := s.timers.erase task.id
        record := Function.update s.record c ((s.record c).map (Record.wake false)) }) := by
  unfold wakeUp
  simp only [h]

theorem wakeUp_missing {task : Task} (h : s.timers.lookup task.id = none) (so se : Stream)
    (speech : Speech) : wakeUp env c so se task speech s =
      finish c so se (log env { s with
        record := Function.update s.record c ((s.record c).map (Record.wake false)) }) := by
  unfold wakeUp
  simp only [h]

/-- Any other one speaks and is freed, if nothing is raised. -/
theorem wakeUp_ran {task : Task} (h : s.timers.lookup task.id = some true) (so se : Stream) :
    wakeUp env c so se task .ran s =
      finish c so se (log env { s with
        timers := s.timers.erase task.id
        record := Function.update s.record c ((s.record c).map (Record.wake true)) }) := by
  unfold wakeUp
  simp only [h]

/-! ## Timers in hand -/

/-- The handler of `c` has a timer with this id in hand. -/
def Holds (s : State F) (c : Conn) (id : ℕ) : Prop := ∃ task, (s.phase c).task = some task ∧ task.id = id

theorem holds_iff {task : Task} (h : (s.phase c).task = some task) {id : ℕ} :
    Holds s c id ↔ task.id = id := by
  unfold Holds
  rw [h]
  constructor
  · rintro ⟨task', htask, hid⟩
    rwa [← Option.some.inj htask] at hid
  · intro hid
    exact ⟨task, rfl, hid⟩

theorem not_holds (h : (s.phase c).task = none) {id : ℕ} : ¬ Holds s c id := by
  rintro ⟨task, htask, -⟩
  exact nomatch h.symm.trans htask

theorem holds_update {p : Phase} {c' : Conn} (hphase : t.phase = Function.update s.phase c p)
    (hne : c' ≠ c) : (t.phase c').task = (s.phase c').task := by
  rw [hphase, Function.update_of_ne hne]

/-- A step that only puts one handler elsewhere, with the same timer in hand. -/
theorem task_update {p : Phase} (hphase : t.phase = Function.update s.phase c p)
    (hp : p.task = (s.phase c).task) (c' : Conn) : (t.phase c').task = (s.phase c').task := by
  by_cases hc : c' = c
  · rw [hc, hphase, Function.update_self, hp]
  · exact holds_update hphase hc

/-! ## Every id is freed -/

/-- No step leaves an id behind. -/
def Frees (env : Env F) (s : State F) : Label F → Prop
  | .delivered c => ∀ task, (s.phase c).task = some task → env.sleeps task.duration = true
  | .disconnected c => (s.phase c).task = none
  | .wake c speech => ∀ task, (s.phase c).task = some task →
      s.timers.lookup task.id = some true → speech = .ran
  | _ => True

/-- Every id that is taken is that of a timer in hand. -/
def Taken (s : State F) : Prop := ∀ id ∈ s.timers, ∃ c, Holds s c id

theorem Taken.of_same (h : Taken s) (htimers : t.timers = s.timers)
    (htask : ∀ c, (t.phase c).task = (s.phase c).task) : Taken t := by
  intro id hid
  rw [htimers] at hid
  obtain ⟨c, task, hc, hid⟩ := h id hid
  exact ⟨c, task, (htask c).trans hc, hid⟩

theorem Quiet.task (h : Quiet c s t) (hc : (s.phase c).task = none) (c' : Conn) :
    (t.phase c').task = (s.phase c').task := by
  obtain ⟨-, -, p, hp, hphase⟩ := h
  exact task_update hphase (hp.trans hc.symm) c'

/-- A step of one handler. -/
theorem Taken.elsewhere {p : Phase} (h : Taken s) (hphase : t.phase = Function.update s.phase c p)
    (hids : ∀ id ∈ t.timers, Holds t c id ∨ id ∈ s.timers ∧ ¬ Holds s c id) : Taken t := by
  intro id hid
  rcases hids id hid with hc | ⟨hold, hnot⟩
  · exact ⟨c, hc⟩
  · obtain ⟨c', task, htask, hid⟩ := h id hold
    have hne : c' ≠ c := fun heq => hnot (heq ▸ ⟨task, htask, hid⟩)
    exact ⟨c', task, (holds_update hphase hne).trans htask, hid⟩

theorem Taken.woke (h : Taken s) {task : Task} (htask : (s.phase c).task = some task)
    (hphase : t.phase = Function.update s.phase c .ended)
    (hids : ∀ id ∈ t.timers, id ≠ task.id ∧ id ∈ s.timers) : Taken t := by
  refine h.elsewhere hphase fun id hid => ?_
  obtain ⟨hne, hold⟩ := hids id hid
  exact .inr ⟨hold, fun hs => hne ((holds_iff htask).mp hs).symm⟩

theorem Taken.command (h : Taken s) (hnone : (s.phase c).task = none) (hcommand : Command c s t) :
    Taken t := by
  cases hcommand with
  | quiet hquiet => exact h.of_same hquiet.timers (hquiet.task hnone)
  | added task so se _ htimers _ hphase =>
    have htask : (t.phase c).task = some task := by
      rw [hphase, Function.update_self]
      rfl
    refine h.elsewhere hphase fun id hid => ?_
    rw [htimers, AList.mem_insert] at hid
    rcases hid with rfl | hid
    · exact .inl ((holds_iff htask).mpr rfl)
    · exact .inr ⟨hid, not_holds hnone⟩
  | cancelled id hmem htimers _ hphase =>
    obtain ⟨p, hp, hphase⟩ := hphase
    have htask := task_update hphase (hp.trans hnone.symm)
    intro id' hid'
    rw [htimers, AList.mem_insert] at hid'
    have hid : id' ∈ s.timers := hid'.elim (fun heq => heq ▸ hmem) fun hmem => hmem
    obtain ⟨c', task', hc', hid⟩ := h id' hid
    exact ⟨c', task', (htask c').trans hc', hid⟩

theorem Taken.move {l : Label F} (h : Taken s) (hl : Frees env s l) (hmove : Move env s t l c) :
    Taken t := by
  cases hmove with
  | quiet hc _ hquiet => exact h.of_same hquiet.timers (hquiet.task hc)
  | slept so se task htask htimers _ hphase =>
    exact h.of_same htimers (task_update hphase htask.symm)
  | dropped task htask hdrops _ =>
    rcases hdrops with rfl | ⟨rfl, hsleeps⟩
    · exact nomatch hl.symm.trans htask
    · exact absurd ((hl task htask).symm.trans hsleeps) Bool.noConfusion
  | command hc hcommand => exact h.command (by rw [hc]; rfl) hcommand
  | woke so se task speech hc hl' ht =>
    subst hl'
    have htask : (s.phase c).task = some task := by rw [hc]; rfl
    cases hlookup : s.timers.lookup task.id with
    | none =>
      rw [ht, wakeUp_missing hlookup]
      refine h.woke htask rfl fun id hid => ⟨?_, hid⟩
      rintro rfl
      exact AList.lookup_eq_none.mp hlookup hid
    | some flag =>
      cases flag with
      | false =>
        rw [ht, wakeUp_cancelled hlookup]
        exact h.woke htask rfl fun id hid => AList.mem_erase.mp hid
      | true =>
        rw [hl task htask hlookup] at ht
        rw [ht, wakeUp_ran hlookup]
        exact h.woke htask rfl fun id hid => AList.mem_erase.mp hid

theorem taken_of_reach (h : (system env).Reach (Frees env) s) : Taken s := by
  apply Lib.System.Reach.invariant _ _ h
  · rintro s rfl
    exact fun id hid => absurd hid (AList.notMem_empty id)
  · exact fun s t l hs hl hstep => hs.move hl (move_of_step hstep)

theorem newid_none {timers : AList fun _ : ℕ => Bool} (h : newid timers = none) {id : ℕ}
    (hid : id < 10000) : id ∈ timers := by
  have hall := List.find?_eq_none.mp h id (List.mem_range.mpr hid)
  simpa using hall

theorem eq_empty_of_forall_notMem {timers : AList fun _ : ℕ => Bool} (h : ∀ id, id ∉ timers) :
    timers = ∅ := by
  apply AList.ext
  cases hentries : timers.entries with
  | nil => rfl
  | cons e entries =>
    have hmem : e.1 ∈ timers := by
      rw [AList.mem_keys, AList.keys, hentries]
      exact List.mem_cons_self
    exact absurd hmem (h e.1)

/-- **Ids do not stay taken** where no step leaves one behind: without an active handler there are
no timers, and none can be added only while ten thousand are running. -/
theorem timers_are_freed (h : (system env).Reach (Frees env) s) :
    ((∀ c, s.phase c = .absent ∨ s.phase c = .ended) → s.timers = ∅)
      ∧ ∀ c seconds say, (∃ msg task, (add c seconds say s).2 = (.userError msg, task)) →
        ∀ id < 10000, ∃ c', Holds s c' id := by
  have htaken := taken_of_reach h
  constructor
  · intro hidle
    have hempty : ∀ id, id ∉ s.timers := by
      intro id hid
      obtain ⟨c, task, htask, -⟩ := htaken id hid
      rcases hidle c with hc | hc
      · rw [hc] at htask
        exact nomatch htask
      · rw [hc] at htask
        exact nomatch htask
    exact eq_empty_of_forall_notMem hempty
  · rintro c seconds say ⟨msg, task, hadd⟩ id hid
    rcases add_cases c seconds say s with ⟨_, hnew, -⟩ | ⟨id', -, heq⟩
    · exact htaken id (newid_none hnew hid)
    · rw [heq] at hadd
      exact nomatch hadd

/-! ## What becomes of a timer -/

/-- The program runs, responses go out and durations are numbers. -/
def Served (env : Env F) (s : State F) : Label F → Prop
  | .delivered c => ∀ task, (s.phase c).task = some task → env.sleeps task.duration = true
  | .disconnected _ => False
  | .wake _ speech => speech = .ran
  | _ => True

/-- A record of a timer in hand, or of one that is through with its task. -/
def Record.Fits (r : Record) (p : Phase) : Prop :=
  (p.task ≠ none ∧ r.woken = false ∧ r.spoken = 0)
    ∨ (p = .ended ∧ r.woken = true ∧ r.spoken = (!r.cancelled).toNat)

/-- `Timer.timers`, the records and the timers in hand. -/
structure Kept (s : State F) : Prop where
  apart {c c' : Conn} {id : ℕ} : Holds s c id → Holds s c' id → c = c'
  flag (id : ℕ) (flag : Bool) : s.timers.lookup id = some flag ↔
    ∃ c, Holds s c id ∧ ∃ r, s.record c = some r ∧ flag = !r.cancelled
  recorded (c : Conn) (h : (s.phase c).task ≠ none) : s.record c ≠ none
  fits (c : Conn) (r : Record) : s.record c = some r → r.Fits (s.phase c)

theorem Kept.mem_iff (h : Kept s) (id : ℕ) : id ∈ s.timers ↔ ∃ c, Holds s c id := by
  rw [← AList.lookup_isSome, Option.isSome_iff_exists]
  constructor
  · rintro ⟨flag, hflag⟩
    obtain ⟨c, hc, -⟩ := (h.flag id flag).mp hflag
    exact ⟨c, hc⟩
  · rintro ⟨c, hc⟩
    have htask : (s.phase c).task ≠ none := by
      obtain ⟨task, htask, -⟩ := hc
      rw [htask]
      exact Option.some_ne_none task
    obtain ⟨r, hr⟩ := Option.ne_none_iff_exists'.mp (h.recorded c htask)
    exact ⟨!r.cancelled, (h.flag id _).mpr ⟨c, hc, r, hr, rfl⟩⟩

theorem holds_congr (htask : ∀ c, (t.phase c).task = (s.phase c).task) (c : Conn) (id : ℕ) :
    Holds t c id ↔ Holds s c id := by
  unfold Holds
  rw [htask]

/-- A step that puts a handler without a record, or one with the same timer in hand, elsewhere. -/
theorem Kept.of_same (h : Kept s) (htimers : t.timers = s.timers) (hrecord : t.record = s.record)
    (htask : ∀ c, (t.phase c).task = (s.phase c).task)
    (hended : ∀ c, s.phase c = .ended → t.phase c = .ended) : Kept t where
  apart hc hc' := h.apart ((holds_congr htask _ _).mp hc) ((holds_congr htask _ _).mp hc')
  flag id flag := by
    rw [htimers, h.flag id flag, hrecord]
    simp only [holds_congr htask]
  recorded c hc := by
    rw [htask] at hc
    rw [hrecord]
    exact h.recorded c hc
  fits c r hr := by
    rw [hrecord] at hr
    rcases h.fits c r hr with ⟨hne, hr⟩ | ⟨hc, hr⟩
    · exact .inl ⟨by rwa [htask], hr⟩
    · exact .inr ⟨hended c hc, hr⟩

theorem ended_update {p : Phase} (hphase : t.phase = Function.update s.phase c p)
    (hc : s.phase c ≠ .ended) (c' : Conn) (hc' : s.phase c' = .ended) : t.phase c' = .ended := by
  have hne : c' ≠ c := by
    rintro rfl
    exact hc hc'
  rw [hphase, Function.update_of_ne hne, hc']

theorem Kept.quiet (h : Kept s) (hquiet : Quiet c s t) (htask : (s.phase c).task = none)
    (hc : s.phase c ≠ .ended) : Kept t := by
  obtain ⟨p, -, hphase⟩ := hquiet.phase
  exact h.of_same hquiet.timers hquiet.record (hquiet.task htask) (ended_update hphase hc)

theorem newid_free {timers : AList fun _ : ℕ => Bool} {id : ℕ} (h : newid timers = some id) :
    id ∉ timers := by
  have hfree := List.find?_some h
  exact of_decide_eq_true hfree

/-- Nothing happens to another handler. -/
structure Elsewhere (c : Conn) (s t : State F) : Prop where
  phase {c' : Conn} (hne : c' ≠ c) : t.phase c' = s.phase c'
  record {c' : Conn} (hne : c' ≠ c) : t.record c' = s.record c'

theorem Elsewhere.of_update {p : Phase} {r : Option Record}
    (hphase : t.phase = Function.update s.phase c p)
    (hrecord : t.record = Function.update s.record c r) : Elsewhere c s t where
  phase hne := by rw [hphase, Function.update_of_ne hne]
  record hne := by rw [hrecord, Function.update_of_ne hne]

theorem Elsewhere.holds (h : Elsewhere c s t) {c' : Conn} (hne : c' ≠ c) {id : ℕ} :
    Holds t c' id ↔ Holds s c' id := by
  unfold Holds
  rw [h.phase hne]

/-- The flag of a timer that the handler does not have in hand. -/
theorem Elsewhere.flagged (h : Elsewhere c s t) {id : ℕ} (hs : ¬ Holds s c id)
    (ht : ¬ Holds t c id) (flag : Bool) :
    (∃ c', Holds t c' id ∧ ∃ r, t.record c' = some r ∧ flag = !r.cancelled) ↔
      ∃ c', Holds s c' id ∧ ∃ r, s.record c' = some r ∧ flag = !r.cancelled := by
  constructor
  · rintro ⟨c', hc', r, hr, hflag⟩
    have hne : c' ≠ c := fun heq => ht (heq ▸ hc')
    exact ⟨c', (h.holds hne).mp hc', r, (h.record hne).symm.trans hr, hflag⟩
  · rintro ⟨c', hc', r, hr, hflag⟩
    have hne : c' ≠ c := fun heq => hs (heq ▸ hc')
    exact ⟨c', (h.holds hne).mpr hc', r, (h.record hne).trans hr, hflag⟩

/-- A step of one handler: what is asked is asked of it and of the ids it has in hand before or
afterwards. -/
theorem Kept.elsewhere (h : Kept s) (helse : Elsewhere c s t)
    (hapart : ∀ c' id, c' ≠ c → Holds s c' id → ¬ Holds t c id)
    (hflag : ∀ id flag, Holds s c id ∨ Holds t c id → (t.timers.lookup id = some flag ↔
      Holds t c id ∧ ∃ r, t.record c = some r ∧ flag = !r.cancelled))
    (hlookup : ∀ id, ¬ Holds s c id → ¬ Holds t c id → t.timers.lookup id = s.timers.lookup id)
    (hrecorded : (t.phase c).task ≠ none → t.record c ≠ none)
    (hfits : ∀ r, t.record c = some r → r.Fits (t.phase c)) : Kept t where
  apart {c₁ c₂ id} h₁ h₂ := by
    by_cases hc₁ : c₁ = c
    · by_cases hc₂ : c₂ = c
      · rw [hc₁, hc₂]
      · exact (hapart c₂ id hc₂ ((helse.holds hc₂).mp h₂) (hc₁ ▸ h₁)).elim
    · by_cases hc₂ : c₂ = c
      · exact (hapart c₁ id hc₁ ((helse.holds hc₁).mp h₁) (hc₂ ▸ h₂)).elim
      · exact h.apart ((helse.holds hc₁).mp h₁) ((helse.holds hc₂).mp h₂)
  flag id flag := by
    by_cases hid : Holds s c id ∨ Holds t c id
    · rw [hflag id flag hid]
      constructor
      · exact fun hc => ⟨c, hc⟩
      · rintro ⟨c', hc', hr⟩
        have heq : c' = c := by
          by_contra hne
          have hold := (helse.holds hne).mp hc'
          exact hid.elim (fun hs => hne (h.apart hold hs)) (hapart c' id hne hold)
        exact heq ▸ ⟨hc', hr⟩
    · obtain ⟨hs, ht⟩ := not_or.mp hid
      rw [hlookup id hs ht, h.flag id flag, helse.flagged hs ht]
  recorded c' hc' := by
    by_cases hcc : c' = c
    · subst hcc
      exact hrecorded hc'
    · rw [helse.phase hcc] at hc'
      rw [helse.record hcc]
      exact h.recorded c' hc'
  fits c' r hr := by
    by_cases hcc : c' = c
    · subst hcc
      exact hfits r hr
    · rw [helse.record hcc] at hr
      rw [helse.phase hcc]
      exact h.fits c' r hr

/-- A timer with an id that is free. -/
theorem Kept.added (h : Kept s) {task : Task} {so se : Stream} (hnew : newid s.timers = some task.id)
    (htimers : t.timers = s.timers.insert task.id true)
    (hrecord : t.record = Function.update s.record c
      (some { cancelled := false, woken := false, spoken := 0 }))
    (hphase : t.phase = Function.update s.phase c (.answering so se (some task)))
    (hnone : (s.phase c).task = none) : Kept t := by
  have htask : (t.phase c).task = some task := by
    rw [hphase, Function.update_self]
    rfl
  have hr : t.record c = some { cancelled := false, woken := false, spoken := 0 } := by
    rw [hrecord, Function.update_self]
  refine h.elsewhere (.of_update hphase hrecord) ?_ ?_ ?_ ?_ ?_
  · intro c' id _ hold hnew'
    rw [(holds_iff htask).mp hnew'] at hnew
    exact newid_free hnew ((h.mem_iff id).mpr ⟨c', hold⟩)
  · intro id flag hid
    have heq : task.id = id := hid.elim (fun hs => absurd hs (not_holds hnone)) (holds_iff htask).mp
    rw [htimers, ← heq, AList.lookup_insert, hr]
    constructor
    · exact fun hflag => ⟨(holds_iff htask).mpr rfl, _, rfl, (Option.some.inj hflag).symm⟩
    · rintro ⟨-, r, hr, hflag⟩
      rw [hflag, ← Option.some.inj hr]
      rfl
  · intro id _ hid
    have hne : id ≠ task.id := fun heq => hid ((holds_iff htask).mpr heq.symm)
    rw [htimers, AList.lookup_insert_ne hne]
  · rw [hr]
    exact fun _ => Option.some_ne_none _
  · intro r hr'
    rw [hr] at hr'
    cases hr'
    left
    rw [htask]
    exact ⟨Option.some_ne_none task, rfl, rfl⟩

theorem Record.Fits.cancel {r : Record} {p : Phase} (h : r.Fits p) (id : ℕ) :
    (Record.cancel id p.task r).Fits p := by
  rcases h with ⟨hne, hwoken, hspoken⟩ | ⟨hended, hwoken, hspoken⟩
  · left
    refine ⟨hne, ?_, ?_⟩
    · unfold Record.cancel
      split <;> exact hwoken
    · unfold Record.cancel
      split <;> exact hspoken
  · right
    have hnone : Record.cancel id p.task r = r := by
      rw [hended]
      rfl
    rw [hnone]
    exact ⟨hended, hwoken, hspoken⟩

theorem cancel_of_holds {id' : ℕ} (h : Holds s c id') (id : ℕ) (r : Record) :
    Record.cancel id (s.phase c).task r = if id' = id then { r with cancelled := true } else r := by
  obtain ⟨task, htask, hid⟩ := h
  rw [Record.cancel, htask, Option.map_some, hid]
  simp only [Option.some.injEq]

/-- A flag that is turned off. -/
theorem Kept.cancelled (h : Kept s) {id : ℕ} (hid : id ∈ s.timers)
    (htimers : t.timers = s.timers.insert id false)
    (hrecord : t.record = fun c' => (s.record c').map (Record.cancel id (s.phase c').task))
    (htask : ∀ c, (t.phase c).task = (s.phase c).task)
    (hended : ∀ c, s.phase c = .ended → t.phase c = .ended) : Kept t := by
  have hholds := holds_congr htask
  have hcancel (c' : Conn) (r : Record) : t.record c' = some r ↔
      ∃ r', s.record c' = some r' ∧ Record.cancel id (s.phase c').task r' = r := by
    rw [hrecord]
    exact Option.map_eq_some_iff
  refine ⟨?_, ?_, ?_, ?_⟩
  · intro c₁ c₂ id' h₁ h₂
    exact h.apart ((hholds _ _).mp h₁) ((hholds _ _).mp h₂)
  · intro id' flag
    rw [htimers]
    by_cases heq : id' = id
    · subst heq
      rw [AList.lookup_insert]
      constructor
      · intro hflag
        obtain ⟨c', hc'⟩ := (h.mem_iff id').mp hid
        have htask' : (s.phase c').task ≠ none := fun hnone => not_holds hnone hc'
        obtain ⟨r, hr⟩ := Option.ne_none_iff_exists'.mp (h.recorded c' htask')
        refine ⟨c', (hholds _ _).mpr hc', _, (hcancel c' _).mpr ⟨r, hr, rfl⟩, ?_⟩
        rw [cancel_of_holds hc', if_pos rfl, ← Option.some.inj hflag]
        rfl
      · rintro ⟨c', hc', r, hr, hflag⟩
        obtain ⟨r', -, hr⟩ := (hcancel c' r).mp hr
        rw [cancel_of_holds ((hholds _ _).mp hc'), if_pos rfl] at hr
        rw [hflag, ← hr]
        rfl
    · rw [AList.lookup_insert_ne heq, h.flag id' flag]
      constructor
      · rintro ⟨c', hc', r, hr, hflag⟩
        refine ⟨c', (hholds _ _).mpr hc', r, (hcancel c' r).mpr ⟨r, hr, ?_⟩, hflag⟩
        rw [cancel_of_holds hc', if_neg heq]
      · rintro ⟨c', hc', r, hr, hflag⟩
        obtain ⟨r', hr', hr⟩ := (hcancel c' r).mp hr
        rw [cancel_of_holds ((hholds _ _).mp hc'), if_neg heq] at hr
        exact ⟨c', (hholds _ _).mp hc', r, hr ▸ hr', hflag⟩
  · intro c' hc'
    rw [htask] at hc'
    obtain ⟨r, hr⟩ := Option.ne_none_iff_exists'.mp (h.recorded c' hc')
    rw [(hcancel c' _).mpr ⟨r, hr, rfl⟩]
    exact Option.some_ne_none _
  · intro c' r hr
    obtain ⟨r', hr', rfl⟩ := (hcancel c' r).mp hr
    rcases (h.fits c' r' hr').cancel id with ⟨hne, hfits⟩ | ⟨hc', hfits⟩
    · exact .inl ⟨by rwa [htask], hfits⟩
    · exact .inr ⟨hended c' hc', hfits⟩

/-- A timer that is up. -/
theorem Kept.woke (h : Kept s) {task : Task} {flag : Bool} {so se : Stream}
    (hphase : s.phase c = .sleeping so se task) (hlookup : s.timers.lookup task.id = some flag)
    (htimers : t.timers = s.timers.erase task.id)
    (hrecord : t.record = Function.update s.record c ((s.record c).map (Record.wake flag)))
    (hended : t.phase = Function.update s.phase c .ended) : Kept t := by
  have htask : (s.phase c).task = some task := by rw [hphase]; rfl
  have hself : Holds s c task.id := (holds_iff htask).mpr rfl
  have hend : t.phase c = .ended := by rw [hended, Function.update_self]
  have hnone : (t.phase c).task = none := by rw [hend]; rfl
  refine h.elsewhere (.of_update hended hrecord) (fun _ _ _ _ => not_holds hnone) ?_ ?_ ?_ ?_
  · intro id flag' hid
    have heq : task.id = id := hid.elim (holds_iff htask).mp fun ht => absurd ht (not_holds hnone)
    rw [htimers, ← heq, AList.lookup_erase]
    exact ⟨fun hflag => (nomatch hflag), fun hc => absurd hc.1 (not_holds hnone)⟩
  · intro id hid _
    have hne : id ≠ task.id := fun heq => hid ((holds_iff htask).mpr heq.symm)
    rw [htimers, AList.lookup_erase_ne hne]
  · exact fun hne => absurd hnone hne
  · intro r hr
    rw [hrecord, Function.update_self] at hr
    obtain ⟨r', hr', rfl⟩ := Option.map_eq_some_iff.mp hr
    obtain ⟨c', hc', r'', hr'', hflag⟩ := (h.flag task.id flag).mp hlookup
    rw [h.apart hc' hself, hr'] at hr''
    have hrr : r' = r'' := Option.some.inj hr''
    rcases h.fits c r' hr' with ⟨-, -, hspoken⟩ | ⟨hsleeps, -⟩
    · refine .inr ⟨hend, rfl, ?_⟩
      show r'.spoken + flag.toNat = (!r'.cancelled).toNat
      rw [hspoken, hflag, hrr, Nat.zero_add]
    · rw [hphase] at hsleeps
      exact nomatch hsleeps

theorem Kept.move {l : Label F} (h : Kept s) (hl : Served env s l) (hmove : Move env s t l c) :
    Kept t := by
  cases hmove with
  | quiet hnone hc hquiet => exact h.quiet hquiet hnone hc
  | slept so se task htask htimers hrecord hphase =>
    have hc : s.phase c ≠ .ended := by
      intro hended
      rw [hended] at htask
      exact nomatch htask
    exact h.of_same htimers hrecord (task_update hphase htask.symm) (ended_update hphase hc)
  | dropped task htask hdrops _ =>
    rcases hdrops with rfl | ⟨rfl, hsleeps⟩
    · exact hl.elim
    · exact nomatch (hl task htask).symm.trans hsleeps
  | command hreading hcommand =>
    have hnone : (s.phase c).task = none := by rw [hreading]; rfl
    have hc : s.phase c ≠ .ended := by rw [hreading]; exact Phase.noConfusion
    cases hcommand with
    | quiet hquiet => exact h.quiet hquiet hnone hc
    | added task so se hnew htimers hrecord hphase =>
      exact h.added hnew htimers hrecord hphase hnone
    | cancelled id hid htimers hrecord hphase =>
      obtain ⟨p, hp, hphase⟩ := hphase
      exact h.cancelled hid htimers hrecord (task_update hphase (hp.trans hnone.symm))
        (ended_update hphase hc)
  | woke so se task speech hphase hl' ht =>
    subst hl'
    have htask : (s.phase c).task = some task := by rw [hphase]; rfl
    have hmem : task.id ∈ s.timers := (h.mem_iff task.id).mpr ⟨c, task, htask, rfl⟩
    obtain ⟨flag, hlookup⟩ := Option.isSome_iff_exists.mp (AList.lookup_isSome.mpr hmem)
    cases flag with
    | false =>
      rw [ht, wakeUp_cancelled hlookup]
      exact h.woke hphase hlookup rfl rfl rfl
    | true =>
      have hran : speech = .ran := hl
      rw [ht, hran, wakeUp_ran hlookup]
      exact h.woke hphase hlookup rfl rfl rfl

theorem kept_of_reach (h : (system env).Reach (Served env) s) : Kept s := by
  apply Lib.System.Reach.invariant _ _ h
  · rintro s rfl
    refine ⟨?_, ?_, ?_, ?_⟩
    · rintro c c' id ⟨task, htask, -⟩
      exact nomatch htask
    · intro id flag
      constructor
      · exact fun hflag => nomatch hflag
      · rintro ⟨c, ⟨task, htask, -⟩, -⟩
        exact nomatch htask
    · exact fun c hc => absurd rfl hc
    · exact fun c r hr => nomatch hr
  · exact fun s t l hs hl hstep => hs.move hl (move_of_step hstep)

/-- A cancel succeeds for the ids that are taken. -/
theorem cancel_returns (env : Env F) (timerId : Str) (s : State F) :
    (∃ value code, (cancel env timerId s).2 = .returned value code) ↔
      ∃ id : ℕ, env.int timerId = some (id : ℤ) ∧ id ∈ s.timers := by
  rcases cancel_cases env timerId s with ⟨id, hint, hid, heq⟩ | ⟨hnone, heq | ⟨msg, heq⟩⟩
  · rw [heq]
    exact ⟨fun _ => ⟨id, hint, hid⟩, fun _ => ⟨_, _, rfl⟩⟩
  · rw [heq]
    constructor
    · rintro ⟨value, code, hreturned⟩
      exact nomatch hreturned
    · rintro ⟨id, hint, hid⟩
      exact absurd hid (hnone id hint)
  · rw [heq]
    constructor
    · rintro ⟨value, code, hreturned⟩
      exact nomatch hreturned
    · rintro ⟨id, hint, hid⟩
      exact absurd hid (hnone id hint)

/-- **Every timer speaks once, or not at all if it is cancelled before it is up**, where responses
go out, durations are numbers and the program runs. No two timers in hand have one id, these ids are
the keys of `Timer.timers`, and they are what can be cancelled. -/
theorem timers_speak_once (h : (system env).Reach (Served env) s) :
    (∀ c c' id, Holds s c id → Holds s c' id → c = c')
      ∧ (∀ id, id ∈ s.timers ↔ ∃ c, Holds s c id)
      ∧ (∀ c r, s.record c = some r →
        (r.cancelled = true → r.spoken = 0)
        ∧ (s.phase c = .ended → r.cancelled = false → r.spoken = 1)
        ∧ (r.woken = false → r.spoken = 0))
      ∧ ∀ timerId, (∃ value code, (cancel env timerId s).2 = .returned value code) ↔
        ∃ c, ∃ id : ℕ, env.int timerId = some (id : ℤ) ∧ Holds s c id := by
  have hkept := kept_of_reach h
  refine ⟨fun c c' id => hkept.apart, hkept.mem_iff, ?_, ?_⟩
  · intro c r hr
    rcases hkept.fits c r hr with ⟨htask, hwoken, hspoken⟩ | ⟨hended, hwoken, hspoken⟩
    · refine ⟨fun _ => hspoken, ?_, fun _ => hspoken⟩
      intro hended
      rw [hended] at htask
      exact absurd rfl htask
    · refine ⟨?_, ?_, ?_⟩
      · intro hcancelled
        rw [hspoken, hcancelled]
        rfl
      · intro _ hcancelled
        rw [hspoken, hcancelled]
        rfl
      · exact fun hnot => nomatch hwoken.symm.trans hnot
  · intro timerId
    rw [cancel_returns]
    constructor
    · rintro ⟨id, hint, hid⟩
      obtain ⟨c, hc⟩ := (hkept.mem_iff id).mp hid
      exact ⟨c, id, hint, hc⟩
    · rintro ⟨c, id, hint, hc⟩
      exact ⟨id, hint, (hkept.mem_iff id).mpr ⟨c, hc⟩⟩

/-! ## A server -/

/-- A text of digits as a number. -/
def digits (t : Str) : Option ℤ :=
  let cs := t.points.map Char.ofNat
  if cs ≠ [] ∧ cs.all Char.isDigit = true then some (Json.ofDigits cs) else none

/-- `timer add` and `timer cancel`. -/
def routeTimer : List (Json Unit) → Routed
  | [.str group, .str name, .str seconds, .str say] =>
    if group = text "timer" ∧ name = text "add" then .add seconds say else .other
  | [.str group, .str name, .str timerId] =>
    if group = text "timer" ∧ name = text "cancel" then .cancel timerId else .other
  | _ => .other

/-- The surroundings of a server that is sent ASCII texts and whole numbers. -/
def plainEnv : Env Unit where
  floats := Json.noFloats
  loads command := Json.loads Json.noFloats (command.map fun b => Char.ofNat b.toNat)
  route := routeTimer
  int := digits
  sleeps t := (digits t).isSome
  lines _ := text "\n"

/-- A command that does not matter. -/
def silent : Behaviour Unit where
  printed := text ""
  outcome := .exited

/-- The bytes of an ASCII text. -/
def bytes (s : String) : List UInt8 := s.toList.map fun c => c.val.toUInt8

instance : DecidableRel (Served (F := F) env) := fun s l =>
  match l with
  | .connect _ => .isTrue trivial
  | .read _ _ _ => .isTrue trivial
  | .disconnected _ => .isFalse id
  | .wake _ speech => inferInstanceAs (Decidable (speech = .ran))
  | .delivered c =>
    decidable_of_iff (((s.phase c).task.all fun task => env.sleeps task.duration) = true) (by
      rw [Option.all_eq_true]
      exact ⟨fun h task htask => h task htask, fun h task htask => h task htask⟩)

/-- A timer that is added, cancelled before it sleeps, and up. -/
def cancelledTimer : List (Label Unit) :=
  [.connect 0, .connect 1, .read 0 (bytes "[\"timer\",\"add\",\"1\",\"hi\"]") silent,
    .read 1 (bytes "[\"timer\",\"cancel\",\"0\"]") silent, .delivered 0, .delivered 1, .wake 0 .ran]

theorem cancelledTimer_run : ∃ s, (system plainEnv).runIf (Served plainEnv) .start cancelledTimer = some s
    ∧ s.record 0 = some { cancelled := true, woken := true, spoken := 0 }
    ∧ s.phase 0 = .ended ∧ s.phase 1 = .ended := by
  have hrun : ((system plainEnv).runIf (Served plainEnv) .start cancelledTimer).map
      (fun s => (s.record 0, s.phase 0, s.phase 1)) =
      some (some { cancelled := true, woken := true, spoken := 0 }, .ended, .ended) := by
    decide +kernel
  obtain ⟨s, hs, heq⟩ := Option.map_eq_some_iff.mp hrun
  obtain ⟨hrecord, hphase⟩ := Prod.mk.inj heq
  exact ⟨s, hs, hrecord, (Prod.mk.inj hphase).1, (Prod.mk.inj hphase).2⟩

/-- It does not speak. -/
theorem timers_speak_once_cancelled : ∃ s r,
    (system plainEnv).run .start cancelledTimer = some s ∧ s.record 0 = some r ∧ r.spoken = 0 := by
  obtain ⟨s, hrun, hrecord, -⟩ := cancelledTimer_run
  obtain ⟨-, -, hrecords, -⟩ := timers_speak_once (Lib.System.Reach.runIf (.init rfl) hrun)
  exact ⟨s, _, Lib.System.run_of_runIf hrun, hrecord, (hrecords 0 _ hrecord).1 rfl⟩

theorem Served.frees {l : Label F} (h : Served env s l) : Frees env s l := by
  cases l with
  | connect c => trivial
  | read c command behaviour => trivial
  | delivered c => exact h
  | disconnected c => exact h.elim
  | wake c speech => exact fun _ _ _ => h

/-- Two connections that are through with their handlers, and no others. -/
theorem idle_of_run {ls : List (Label F)} (h : (system env).run .start ls = some t)
    (hls : ∀ l ∈ ls, l.conn = 0 ∨ l.conn = 1) (hzero : t.phase 0 = .ended)
    (hone : t.phase 1 = .absent ∨ t.phase 1 = .ended) (c : Conn) :
    t.phase c = .absent ∨ t.phase c = .ended := by
  by_cases hc0 : c = 0
  · rw [hc0]
    exact .inr hzero
  · by_cases hc1 : c = 1
    · rw [hc1]
      exact hone
    · left
      refine phase_of_run h fun l hl => ?_
      rcases hls l hl with heq | heq
      · rw [heq]
        exact hc0
      · rw [heq]
        exact hc1

/-- Its id is free again. -/
theorem timers_are_freed_cancelled : ∃ s,
    (system plainEnv).run .start cancelledTimer = some s ∧ s.timers = ∅ := by
  obtain ⟨s, hrun, -, hzero, hone⟩ := cancelledTimer_run
  have hreach : (system plainEnv).Reach (Frees plainEnv) s :=
    (Lib.System.Reach.runIf (.init rfl) hrun).mono fun _ _ => Served.frees
  have hrun' := Lib.System.run_of_runIf hrun
  refine ⟨s, hrun', (timers_are_freed hreach).1 (idle_of_run hrun' ?_ hzero (.inr hone))⟩
  decide

/-- A timer whose duration is no number. -/
def refusedTimer : List (Label Unit) :=
  [.connect 0, .read 0 (bytes "[\"timer\",\"add\",\"abc\",\"hi\"]") silent, .delivered 0]

/-- Its id stays taken. -/
theorem id_stays_taken : ¬ ∀ s, (system plainEnv).Reachable s →
    (∀ c, s.phase c = .absent ∨ s.phase c = .ended) → s.timers = ∅ := by
  intro hall
  have hrun : ((system plainEnv).run .start refusedTimer).map
      (fun s => (s.phase 0, s.phase 1, decide (0 ∈ s.timers))) = some (.ended, .absent, true) := by
    decide +kernel
  obtain ⟨s, hs, heq⟩ := Option.map_eq_some_iff.mp hrun
  obtain ⟨hzero, heq⟩ := Prod.mk.inj heq
  obtain ⟨hone, htaken⟩ := Prod.mk.inj heq
  have hempty := hall s (Lib.System.Reachable.run (.init rfl) hs)
    (idle_of_run hs (by decide) hzero (.inl hone))
  rw [hempty] at htaken
  exact absurd htaken (by decide)

end Holchain.Python
