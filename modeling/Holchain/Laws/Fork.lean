import Mathlib.Data.List.Basic
import Holchain.Holper.Fork

/-!
# Laws.Fork — which processes run the worker's code

A forked child leaves the worker's code by `execv` alone: where that fails, the exception takes it
to the handler of `runSingle` and on to the worker loop, beside the daemon. `NoExecvFails` is the
condition on a run under which this does not happen (`only_daemon_works`); then the daemon answers
every request once, and with an error where a pipe or the fork failed.
-/

namespace Holchain.Holper.Fork

/-! ## The moves -/

/-- A call that only goes on to another place for the same request. -/
inductive Advance : Code → Code → Prop
  | next {requestId : Int} {script script' : Script} :
      Advance (.actOn requestId script) (.actOn requestId script')
  | throws {requestId : Int} {script : Script} {what : Bytes} :
      Advance (.actOn requestId script) (.caught requestId what)
  | returns {requestId : Int} {script : Script} {value : Json} :
      Advance (.actOn requestId script) (.finish_ requestId value 0)
  | handles {requestId : Int} {what : Bytes} :
      Advance (.caught requestId what) (.finish_ requestId (.string (cStr what)) (-1))

/-- What one step of a process does. -/
inductive Step (s : State) (pid : Pid) (outcome : Outcome) : State → Prop
  | take {work : Work} {works : List Work} : (s.processes pid).code = .getWork →
      (s.processes pid).works = work :: works →
      Step s pid outcome { s with
        processes := Function.update s.processes pid
          { s.processes pid with code := .actOn work.requestId work.script, works } }
  | forks {requestId : Int} {args : List Bytes} {next : Pid → Script} :
      (s.processes pid).code = .actOn requestId (.spawn args next) →
      Step s pid outcome ((s.fork pid requestId args).goto pid (.actOn requestId (next (s.forked + 1))))
  | notForked {requestId : Int} {args : List Bytes} {next : Pid → Script} {what : Bytes} :
      (s.processes pid).code = .actOn requestId (.spawn args next) →
      Step s pid outcome { s.goto pid (.caught requestId what) with
        unexecuted := requestId :: s.unexecuted }
  | execs {requestId : Int} {args : List Bytes} :
      (s.processes pid).code = .execv requestId args → Step s pid outcome (s.goto pid (.program args))
  | notExecuted {requestId : Int} {args : List Bytes} {error : Bytes} {what : Bytes} :
      (s.processes pid).code = .execv requestId args → outcome = .fails (.execv error) →
      Step s pid outcome { s.goto pid (.caught requestId what) with
        unexecuted := requestId :: s.unexecuted }
  | reaps {requestId : Int} {sub : Pid} {next : Bytes → Bytes → Script} {script : Script} :
      (s.processes pid).code = .actOn requestId (.finish sub next) →
      Step s pid outcome ({ s with
        processes := Function.update s.processes sub { s.processes sub with parent := none } }.goto
          pid (.actOn requestId script))
  | advances {code : Code} : Advance (s.processes pid).code code → Step s pid outcome (s.goto pid code)
  | answers {requestId : Int} {value : Json} {code : Int} :
      (s.processes pid).code = .finish_ requestId value code →
      Step s pid outcome { s.goto pid .getWork with
        answers := s.answers ++ [{ process := pid, requestId, value, code }] }
  | ends {args : List Bytes} : (s.processes pid).code = .program args →
      Step s pid outcome (s.goto pid .ended)

theorem Step.of_stepProcess {s t : State} {pid : Pid} {outcome : Outcome}
    (h : stepProcess s pid outcome = some t) : Step s pid outcome t := by
  unfold stepProcess at h
  split at h
  · rename_i hcode
    split at h
    · cases h
    · rename_i hworks
      cases h
      exact .take hcode hworks
  · rename_i hcode
    cases h
    exact .forks hcode
  · rename_i hcode
    split at h
    · cases h
      exact .notForked hcode
    · cases h
  · rename_i hcode
    cases h
    exact .execs hcode
  · rename_i hcode
    cases h
    exact .notExecuted hcode rfl
  · rename_i hcode
    cases h
    exact .advances (hcode ▸ .next)
  · rename_i hcode
    cases h
    exact .advances (hcode ▸ .throws)
  · rename_i hcode
    split at h
    · cases h
      exact .reaps hcode
    · cases h
  · rename_i hcode
    split at h
    · cases h
    · cases h
      exact .advances (hcode ▸ .throws)
  · rename_i hcode
    cases h
    exact .advances (hcode ▸ .throws)
  · rename_i hcode
    cases h
    exact .advances (hcode ▸ .returns)
  · rename_i hcode
    cases h
    exact .advances (hcode ▸ .handles)
  · rename_i hcode
    cases h
    exact .answers hcode
  · rename_i hcode
    cases h
    exact .ends hcode
  · cases h

/-! ## Where a step leaves the processes -/

variable {s t : State} {pid q : Pid} {outcome : Outcome}

@[simp] theorem goto_self (s : State) (pid : Pid) (code : Code) :
    (s.goto pid code).processes pid = { s.processes pid with code } :=
  Function.update_self ..

theorem goto_of_ne (s : State) (code : Code) (h : q ≠ pid) :
    (s.goto pid code).processes q = s.processes q :=
  Function.update_of_ne h ..

theorem fork_of_ne (s : State) (pid : Pid) (requestId : Int) (args : List Bytes)
    (h : q ≠ s.forked + 1) : (s.fork pid requestId args).processes q = s.processes q :=
  Function.update_of_ne h ..

theorem Advance.inWorker {code code' : Code} (h : Advance code code') : code'.inWorker = true := by
  cases h <;> rfl

/-- A process in the worker's code stays there. -/
theorem Step.inWorker (h : Step s pid outcome t) (hw : (s.processes pid).code.inWorker = true) :
    (t.processes pid).code.inWorker = true := by
  cases h with
  | take => simp only [Function.update_self, Code.inWorker]
  | forks | notForked | notExecuted | reaps | answers => simp only [goto_self, Code.inWorker]
  | advances hadv =>
    simp only [goto_self]
    exact hadv.inWorker
  | execs hcode | ends hcode =>
    rw [hcode] at hw
    cases hw

/-- A process outside comes back by a failed `execv` alone. -/
theorem Step.outside (h : Step s pid outcome t) (hw : (s.processes pid).code.inWorker = false)
    (hok : ∀ error, outcome ≠ .fails (.execv error)) :
    ∃ code, code.inWorker = false ∧ t = s.goto pid code := by
  cases h with
  | take hcode _ | forks hcode | notForked hcode | reaps hcode | answers hcode =>
    rw [hcode] at hw
    cases hw
  | advances hadv =>
    generalize (s.processes pid).code = code at hadv hw
    cases hadv <;> cases hw
  | execs hcode => exact ⟨_, rfl, rfl⟩
  | ends hcode => exact ⟨_, rfl, rfl⟩
  | notExecuted _ houtcome => exact absurd houtcome (hok _)

/-- Another process is where it was, or forked by this step. -/
theorem Step.code_of_ne (h : Step s pid outcome t) (hq : q ≠ pid) :
    (t.processes q).code = (s.processes q).code
      ∨ q ≠ 0 ∧ (t.processes q).code.inWorker = false := by
  cases h with
  | take => exact .inl (congrArg Process.code (Function.update_of_ne hq ..))
  | notForked | execs | notExecuted | advances | answers | ends =>
    exact .inl (congrArg Process.code (goto_of_ne _ _ hq))
  | @forks requestId args _ hcode =>
    rw [goto_of_ne _ _ hq]
    by_cases hnew : q = s.forked + 1
    · subst hnew
      refine .inr ⟨Nat.succ_ne_zero _, ?_⟩
      simp only [State.fork, Function.update_self, Code.inWorker]
    · exact .inl (congrArg Process.code (fork_of_ne s pid requestId args hnew))
  | @reaps _ sub _ _ hcode =>
    rw [goto_of_ne _ _ hq]
    by_cases hsub : q = sub
    · subst hsub
      exact .inl (by simp only [Function.update_self])
    · exact .inl (congrArg Process.code (Function.update_of_ne hsub ..))

/-! ## The invariant -/

/-- The request that a process is at. -/
def Code.underway : Code → List Int
  | .actOn requestId _ => [requestId]
  | .caught requestId _ => [requestId]
  | .finish_ requestId _ _ => [requestId]
  | _ => []

/-- The process is about to answer the request with an error. -/
def Code.Failing (requestId : Int) : Code → Prop
  | .caught requestId' _ => requestId' = requestId
  | .finish_ requestId' _ code => requestId' = requestId ∧ code = -1
  | _ => False

theorem Advance.underway {code code' : Code} (h : Advance code code') :
    code'.underway = code.underway := by
  cases h <;> rfl

theorem Advance.failing {code code' : Code} {requestId : Int} (h : Advance code code')
    (hf : code.Failing requestId) : code'.Failing requestId := by
  cases h with
  | next | throws | returns => cases hf
  | handles => exact ⟨hf, rfl⟩

/-- What the daemon does for its requests. -/
structure Serving (s : State) : Prop where
  /-- every request is answered, under way or waiting, once and in order -/
  conserved : s.answers.map (·.requestId) ++ (s.processes 0).code.underway
    ++ (s.processes 0).works.map (·.requestId) = s.arrived
  /-- where the program could not be executed, the answer is an error -/
  unexecuted : ∀ requestId ∈ s.unexecuted,
    (∃ a ∈ s.answers, a.requestId = requestId ∧ a.code = -1)
      ∨ (s.processes 0).code.Failing requestId

/-- What holds in every state of a run in which no `execv` fails. -/
structure Inv (s : State) : Prop where
  daemon : (s.processes 0).code.inWorker = true
  parentless : (s.processes 0).parent = none
  children : ∀ pid, pid ≠ 0 → (s.processes pid).code.inWorker = false
  answers : ∀ a ∈ s.answers, a.process = 0
  serving : Serving s

theorem inv_start : Inv { processes := Function.update (fun _ => {}) 0 { code := .getWork } } where
  daemon := rfl
  parentless := rfl
  children := by
    intro pid hne
    dsimp only
    rw [Function.update_of_ne hne]
    rfl
  answers := nofun
  serving := ⟨rfl, nofun⟩

/-- A step of the daemon serves its requests. -/
theorem Serving.step (h : Serving s) (hw : (s.processes 0).code.inWorker = true)
    (hstep : Step s 0 outcome t) : Serving t := by
  obtain ⟨hconserved, hunexecuted⟩ := h
  cases hstep with
  | @take work works hcode hworks =>
    rw [hcode] at hconserved hunexecuted
    refine ⟨?_, fun r hr => .inl ((hunexecuted r hr).resolve_right id)⟩
    simp only [Function.update_self, Code.underway]
    rw [← hconserved, hworks]
    simp only [Code.underway, List.append_nil, List.map_cons, List.append_assoc,
      List.singleton_append]
  | @forks requestId args next hcode =>
    rw [hcode] at hconserved hunexecuted
    refine ⟨?_, fun r hr => .inl ((hunexecuted r hr).resolve_right id)⟩
    simp only [goto_self, fork_of_ne s 0 requestId args (Nat.succ_ne_zero s.forked).symm]
    exact hconserved
  | notForked hcode =>
    rw [hcode] at hconserved hunexecuted
    refine ⟨?_, fun r hr => ?_⟩
    · simp only [goto_self]
      exact hconserved
    · simp only [goto_self]
      rcases List.mem_cons.mp hr with rfl | hr
      · exact .inr rfl
      · exact .inl ((hunexecuted r hr).resolve_right id)
  | execs hcode | notExecuted hcode _ | ends hcode =>
    rw [hcode] at hw
    cases hw
  | @reaps requestId sub next script hcode =>
    rw [hcode] at hconserved hunexecuted
    refine ⟨?_, fun r hr => .inl ((hunexecuted r hr).resolve_right id)⟩
    have hworks : (Function.update s.processes sub { s.processes sub with parent := none } 0).works
        = (s.processes 0).works := by
      by_cases hsub : 0 = sub
      · subst hsub
        rw [Function.update_self]
      · rw [Function.update_of_ne hsub]
    simp only [goto_self, hworks]
    exact hconserved
  | advances hadv =>
    refine ⟨?_, fun r hr => ?_⟩
    · simp only [goto_self, hadv.underway]
      exact hconserved
    · simp only [goto_self]
      exact (hunexecuted r hr).imp_right hadv.failing
  | @answers requestId value code hcode =>
    rw [hcode] at hconserved hunexecuted
    refine ⟨?_, fun r hr => .inl ?_⟩
    · refine Eq.trans ?_ hconserved
      simp only [goto_self, Code.underway, List.map_append, List.map_cons, List.map_nil,
        List.append_nil]
    · rcases hunexecuted r hr with ⟨a, ha, heq⟩ | ⟨rfl, rfl⟩
      · exact ⟨a, List.mem_append_left _ ha, heq⟩
      · exact ⟨_, List.mem_append_right _ List.mem_cons_self, rfl, rfl⟩

/-- A step of the daemon leaves it without a parent. -/
theorem Step.parentless (h : Step s 0 outcome t) (hp : (s.processes 0).parent = none) :
    (t.processes 0).parent = none := by
  cases h with
  | take => simp only [Function.update_self, hp]
  | forks =>
    simp only [goto_self, fork_of_ne s 0 _ _ (Nat.succ_ne_zero s.forked).symm, hp]
  | notForked | execs | notExecuted | advances | answers | ends => simp only [goto_self, hp]
  | @reaps _ sub _ _ _ =>
    rw [goto_self]
    by_cases hsub : 0 = sub
    · subst hsub
      simp only [Function.update_self]
    · simp only [Function.update_of_ne hsub, hp]

/-- A step of the daemon answers in its own name. -/
theorem Step.answers_daemon (h : Step s 0 outcome t) (ha : ∀ a ∈ s.answers, a.process = 0) :
    ∀ a ∈ t.answers, a.process = 0 := by
  cases h with
  | answers hcode =>
    intro a hmem
    rcases List.mem_append.mp hmem with hmem | hmem
    · exact ha a hmem
    · rw [List.mem_singleton.mp hmem]
  | take | forks | notForked | execs | notExecuted | reaps | advances | ends => exact ha

theorem Inv.step (h : Inv s) (hstep : Step s pid outcome t)
    (hok : ∀ error, outcome ≠ .fails (.execv error)) : Inv t := by
  obtain ⟨hdaemon, hparentless, hchildren, hanswers, hserving⟩ := h
  by_cases hpid : pid = 0
  · subst hpid
    refine ⟨hstep.inWorker hdaemon, hstep.parentless hparentless, fun q hq => ?_,
      hstep.answers_daemon hanswers, hserving.step hdaemon hstep⟩
    rcases hstep.code_of_ne hq with hsame | ⟨_, hnew⟩
    · rw [hsame]
      exact hchildren q hq
    · exact hnew
  · obtain ⟨code, hcode, rfl⟩ := hstep.outside (hchildren pid hpid) hok
    have hzero : (s.goto pid code).processes 0 = s.processes 0 := goto_of_ne s code (Ne.symm hpid)
    refine ⟨?_, ?_, fun q hq => ?_, hanswers, ⟨?_, ?_⟩⟩
    · rw [hzero]
      exact hdaemon
    · rw [hzero]
      exact hparentless
    · by_cases hqp : q = pid
      · subst hqp
        rw [goto_self]
        exact hcode
      · rw [goto_of_ne s code hqp]
        exact hchildren q hq
    · rw [hzero]
      exact hserving.conserved
    · rw [hzero]
      exact hserving.unexecuted

/-- A work comes in. -/
theorem Inv.arrive (h : Inv s) (work : Work) (hstep : system.step s (.arrive work) = some t) :
    Inv t := by
  obtain ⟨hdaemon, hparentless, hchildren, hanswers, ⟨hconserved, hunexecuted⟩⟩ := h
  cases hstep
  refine ⟨?_, ?_, fun q hq => ?_, hanswers, ⟨?_, ?_⟩⟩
  · simp only [Function.update_self, hdaemon]
  · simp only [Function.update_self, hparentless]
  · simp only [Function.update_of_ne hq]
    exact hchildren q hq
  · simp only [Function.update_self, List.map_append, List.map_cons, List.map_nil]
    rw [← List.append_assoc, hconserved]
  · simp only [Function.update_self]
    exact hunexecuted

/-- No `execv` fails. -/
def NoExecvFails (_ : State) (l : Label) : Prop :=
  ∀ pid error, l ≠ .step pid (.fails (.execv error))

theorem Inv.reach (h : system.Reach NoExecvFails s) : Inv s := by
  refine h.invariant (fun s hs => ?_) (fun s t l hi hok hstep => ?_)
  · rw [hs]
    exact inv_start
  · cases l with
    | arrive work => exact hi.arrive work hstep
    | step pid outcome =>
      refine hi.step (Step.of_stepProcess hstep) fun error heq => hok pid error ?_
      rw [heq]

/-! ## Where nothing moves any more -/

/-- The labels of what comes from outside. -/
def Arrives (l : Label) : Prop := ∃ work, l = .arrive work

/-- A process outside the worker's code that does not move has ended. -/
theorem ended_of_still (hw : (s.processes pid).code.inWorker = false)
    (hstill : stepProcess s pid .goes = none) : (s.processes pid).code.isEnded = true := by
  cases hcode : (s.processes pid).code with
  | ended => rfl
  | getWork | actOn | caught | finish_ =>
    rw [hcode] at hw
    cases hw
  | execv | program =>
    simp only [stepProcess, hcode, reduceCtorEq] at hstill

/-- A script that does not go on waits for a child that has not ended. -/
theorem waits_of_still {requestId : Int} {script : Script}
    (hcode : (s.processes pid).code = .actOn requestId script)
    (hstill : ∀ outcome, stepProcess s pid outcome = none) :
    ∃ sub, (s.processes sub).parent = some pid ∧ (s.processes sub).code.isEnded = false := by
  cases script with
  | spawn | write | threw | returned =>
    have hgoes := hstill .goes
    simp only [stepProcess, hcode, reduceCtorEq] at hgoes
  | finish sub next =>
    have hfails := hstill (.fails (.waitpid []))
    have houtput := hstill (.output [] [])
    simp only [stepProcess, hcode, ite_eq_left_iff, reduceCtorEq, imp_false, not_not] at hfails
    simp only [stepProcess, hcode, hfails, true_and, ite_eq_right_iff, reduceCtorEq, imp_false,
      Bool.not_eq_true] at houtput
    exact ⟨sub, hfails, houtput⟩

/-- **Where nothing moves, everything is done**: the daemon waits for work and has none, and its
children have ended. -/
theorem Inv.quiescent (h : Inv s) (hq : system.Quiescent Arrives s) :
    (s.processes 0).code = .getWork ∧ (s.processes 0).works = []
      ∧ ∀ pid, pid ≠ 0 → (s.processes pid).code.isEnded = true := by
  have hstill (pid : Pid) (outcome : Outcome) : stepProcess s pid outcome = none :=
    hq (.step pid outcome) (fun hout => by obtain ⟨work, hl⟩ := hout; cases hl)
  have hended (pid : Pid) (hpid : pid ≠ 0) : (s.processes pid).code.isEnded = true :=
    ended_of_still (h.children pid hpid) (hstill pid .goes)
  have hgoes := hstill 0 .goes
  have hw := h.daemon
  cases hcode : (s.processes 0).code with
  | getWork =>
    cases hworks : (s.processes 0).works with
    | nil => exact ⟨rfl, rfl, hended⟩
    | cons work works => simp only [stepProcess, hcode, hworks, reduceCtorEq] at hgoes
  | actOn requestId script =>
    obtain ⟨sub, hparent, hrunning⟩ := waits_of_still hcode (hstill 0)
    have hsub : sub ≠ 0 := by
      intro hzero
      rw [hzero, h.parentless] at hparent
      cases hparent
    rw [hended sub hsub] at hrunning
    cases hrunning
  | caught | finish_ => simp only [stepProcess, hcode, reduceCtorEq] at hgoes
  | execv | program | ended =>
    rw [hcode] at hw
    cases hw

/-- The daemon never leaves the worker's code. -/
theorem daemon_inWorker (h : system.Reachable s) : (s.processes 0).code.inWorker = true := by
  refine Lib.System.Reachable.invariant (I := fun s => (s.processes 0).code.inWorker = true)
    (fun s hs => ?_) (fun s t l hi hstep => ?_) h
  · rw [hs]
    rfl
  · cases l with
    | arrive work =>
      cases hstep
      simp only [Function.update_self, hi]
    | step pid outcome =>
      have hstep := Step.of_stepProcess hstep
      by_cases hpid : 0 = pid
      · subst hpid
        exact hstep.inWorker hi
      · rcases hstep.code_of_ne hpid with hsame | ⟨hne, _⟩
        · rw [hsame]
          exact hi
        · exact absurd rfl hne

/-- A failed `execv` takes a child to the handler. -/
theorem execv_fails {error : Bytes}
    (h : stepProcess s pid (.fails (.execv error)) = some t) :
    ∃ requestId args, (s.processes pid).code = .execv requestId args
      ∧ (t.processes pid).code = .caught requestId (Failure.execv error).what := by
  cases hcode : (s.processes pid).code with
  | execv requestId args =>
    simp only [stepProcess, hcode, Option.some.injEq] at h
    subst h
    exact ⟨requestId, args, rfl, by simp only [goto_self]⟩
  | actOn requestId script =>
    cases script with
    | spawn =>
      simp only [stepProcess, hcode, Failure.inConstructor, Bool.false_eq_true, if_false,
        reduceCtorEq] at h
    | write | finish | threw | returned => simp only [stepProcess, hcode, reduceCtorEq] at h
  | getWork | caught | finish_ | program | ended =>
    simp only [stepProcess, hcode, reduceCtorEq] at h

/-- **Only the daemon works**, in every run in which no `execv` fails: its children are on their
way to the requested program, run it, or have ended. Every request is answered once, by the
daemon, in order, and with an error where the program could not be executed; nothing stops before
that. The first failed `execv` puts a second process into the worker's code. -/
theorem only_daemon_works {s : State} (hs : system.Reach NoExecvFails s) :
    ((∀ pid, (s.processes pid).code.inWorker = true ↔ pid = 0)
      ∧ (∀ a ∈ s.answers, a.process = 0)
      ∧ s.answers.map (·.requestId) ++ (s.processes 0).code.underway
        ++ (s.processes 0).works.map (·.requestId) = s.arrived
      ∧ (system.Quiescent Arrives s →
        s.answers.map (·.requestId) = s.arrived
        ∧ (∀ requestId ∈ s.unexecuted, ∃ a ∈ s.answers, a.requestId = requestId ∧ a.code = -1)
        ∧ ∀ pid, pid ≠ 0 → (s.processes pid).code.isEnded = true))
    ∧ ∀ t pid error, system.step s (.step pid (.fails (.execv error))) = some t →
      pid ≠ 0 ∧ (t.processes 0).code.inWorker = true ∧ (t.processes pid).code.inWorker = true := by
  have h := Inv.reach hs
  refine ⟨⟨fun pid => ⟨fun hw => ?_, fun heq => heq ▸ h.daemon⟩, h.answers,
    h.serving.conserved, fun hq => ?_⟩, fun t pid error hstep => ?_⟩
  · by_contra hne
    rw [h.children pid hne] at hw
    cases hw
  · obtain ⟨hcode, hworks, hended⟩ := h.quiescent hq
    have hconserved := h.serving.conserved
    have hunexecuted := h.serving.unexecuted
    rw [hcode] at hconserved hunexecuted
    rw [hworks, List.map_nil, List.append_nil] at hconserved
    exact ⟨(List.append_nil _).symm.trans hconserved,
      fun r hr => (hunexecuted r hr).resolve_right id, hended⟩
  · have hdaemon := daemon_inWorker (.step hs.reachable trivial hstep)
    obtain ⟨requestId, args, hcode, hcaught⟩ := execv_fails hstep
    refine ⟨fun hzero => ?_, hdaemon, by rw [hcaught]; rfl⟩
    have hw := h.daemon
    rw [← hzero, hcode] at hw
    cases hw

/-- A password is asked for, and its program takes it and ends. -/
def xselRun : List Label :=
  [.arrive { requestId := 1, script := xsel (lit "secret") }, .step 0 .goes, .step 0 .goes,
    .step 1 .goes, .step 0 .goes, .step 1 .goes, .step 0 (.output [] []), .step 0 .goes,
    .step 0 .goes]

/-- The daemon alone is then in the worker's code, and has answered. -/
theorem only_daemon_works_xsel : ∃ s, system.Reach NoExecvFails s
    ∧ (∀ pid, (s.processes pid).code.inWorker = true ↔ pid = 0)
    ∧ s.answers.map (·.requestId) = [1] := by
  obtain ⟨s, hrun, hcode, hworks, harrived⟩ : ∃ s, system.run
      { processes := Function.update (fun _ => {}) 0 { code := .getWork } } xselRun = some s
      ∧ (s.processes 0).code = .getWork ∧ (s.processes 0).works = [] ∧ s.arrived = [1] :=
    ⟨_, rfl, rfl, rfl, rfl⟩
  have hok : ∀ l ∈ xselRun, ∀ u, NoExecvFails u l := by
    intro l hl u
    simp only [xselRun, List.mem_cons, List.not_mem_nil, or_false] at hl
    rcases hl with rfl | rfl | rfl | rfl | rfl | rfl | rfl | rfl | rfl
      <;> exact fun _ _ hl => by cases hl
  have hreach : system.Reach NoExecvFails s := .run (.init rfl) hok hrun
  obtain ⟨⟨hdaemon, _, hconserved, _⟩, _⟩ := only_daemon_works hreach
  rw [hcode, hworks, harrived, List.map_nil, List.append_nil] at hconserved
  exact ⟨s, hreach, hdaemon, (List.append_nil _).symm.trans hconserved⟩

/-- A password is asked for, and its program is not there. -/
def missingXsel : List Label :=
  [.arrive { requestId := 1, script := xsel (lit "secret") }, .step 0 .goes, .step 0 .goes,
    .step 1 (.fails (.execv (lit "No such file or directory"))), .step 0 .goes, .step 1 .goes,
    .step 1 .goes]

/-- Two processes are then in the worker's code. The request is answered in the child's memory
alone, and the daemon waits for ever for a child that waits for work. -/
theorem missing_program_two_workers : ∃ s, system.Reachable s
    ∧ (s.processes 0).code.inWorker = true ∧ (s.processes 1).code.inWorker = true
    ∧ s.arrived = [1] ∧ (∀ a ∈ s.answers, a.process = 1) ∧ system.Quiescent Arrives s := by
  obtain ⟨s, hrun, hzero, hone, hrest, harrived, hanswers⟩ : ∃ s, system.run
      { processes := Function.update (fun _ => {}) 0 { code := .getWork } } missingXsel = some s
      ∧ (s.processes 0).code = .actOn 1 (.finish 1 fun _ _ => .returned (.string (lit "success")))
      ∧ s.processes 1 = { code := .getWork, parent := some 0 }
      ∧ (∀ n, (s.processes (n + 2)).code = .ended)
      ∧ s.arrived = [1] ∧ s.answers.map (·.process) = [1] :=
    ⟨_, rfl, rfl, rfl, fun _ => rfl, rfl, rfl⟩
  refine ⟨s, .run (.init rfl) hrun, by rw [hzero]; rfl, by rw [hone]; rfl, harrived, ?_, ?_⟩
  · intro a ha
    have hmem : a.process ∈ s.answers.map (·.process) := List.mem_map_of_mem ha
    rw [hanswers] at hmem
    exact List.mem_singleton.mp hmem
  · intro l hl
    cases l with
    | arrive work => exact absurd ⟨work, rfl⟩ hl
    | step pid outcome =>
      show stepProcess s pid outcome = none
      unfold stepProcess
      match pid with
      | 0 =>
        rw [hzero]
        cases outcome with
        | goes => rfl
        | output out err => simp only [hone, Code.isEnded, Bool.false_eq_true, and_false, if_false]
        | fails failure =>
          cases failure with
          | waitpid => simp only [hone, if_true]
          | stdinPipe | stdoutPipe | stderrPipe | fork | execv | write => rfl
      | 1 =>
        rw [hone]
        cases outcome <;> rfl
      | n + 2 => simp only [hrest n]

end Holchain.Holper.Fork
