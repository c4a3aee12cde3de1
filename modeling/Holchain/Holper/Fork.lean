import Mathlib.Logic.Function.Basic
import Holchain.Lib.Transition
import Holchain.Holper.Json

/-!
# Holper.Fork — a worker whose action builds a Subprocess

The processes there are when actions build a `Subprocess`: the daemon, with one of its workers in
`WorkPoolWorker::run`, and what `fork` makes of it. A forked child starts in the same call of the
constructor, with a copy of the memory, and without the daemon's other threads.

An action is a `Script` of its calls on a `Subprocess`. It catches nothing, so an exception ends
in the handler of `runSingle`, in whichever process it was thrown. What the calls come to is
decided by the kernel and part of the label.
-/

namespace Holchain.Holper.Fork

/-- A process number; the daemon's is 0. -/
abbrev Pid := ℕ

/-- The calls that an `actOn` makes. -/
inductive Script where
  /-- `Subprocess sp(args)`: what follows knows its `pid_` -/
  | spawn (args : List Bytes) (next : Pid → Script)
  /-- `sp.write(data)` -/
  | write (data : Bytes) (next : Script)
  /-- `sp.finish(out, err)` -/
  | finish (pid : Pid) (next : Bytes → Bytes → Script)
  | threw (what : Bytes)
  | returned (value : Json)

/-- A `Work`, with what its action does. -/
structure Work where
  requestId : Int
  script : Script

/-- Where a process is. -/
inductive Code where
  /-- in `WorkPoolWorker::run`, before `getWork` returns -/
  | getWork
  /-- in `actOn` -/
  | actOn (requestId : Int) (script : Script)
  /-- in the handler of `runSingle` -/
  | caught (requestId : Int) (what : Bytes)
  /-- in `WorkPoolWorker::run`, before `finish_` -/
  | finish_ (requestId : Int) (value : Json) (code : Int)
  /-- forked, in the constructor before `execv` -/
  | execv (requestId : Int) (args : List Bytes)
  /-- the requested program -/
  | program (args : List Bytes)
  | ended

/-- The code after the constructor, the handler and the worker loop. -/
def Code.inWorker : Code → Bool
  | .getWork => true
  | .actOn _ _ => true
  | .caught _ _ => true
  | .finish_ _ _ _ => true
  | _ => false

/-- `WIFEXITED` or `WIFSIGNALED`. -/
def Code.isEnded : Code → Bool
  | .ended => true
  | _ => false

/-- A process, with the works queued in its memory. `parent` is the process that can wait for it. -/
structure Process where
  code : Code := .ended
  parent : Option Pid := none
  works : List Work := []

/-- A call of `finish_`: the process that made it and what it was given. -/
structure Answer where
  process : Pid
  requestId : Int
  value : Json
  code : Int

/-- The processes. The last fields are records of the run: the requests that came in, and those
whose program could not be executed. -/
structure State where
  processes : Pid → Process
  forked : ℕ := 0
  answers : List Answer := []
  arrived : List Int := []
  unexecuted : List Int := []

/-- The calls that fail, with the text of the error. -/
inductive Failure where
  | stdinPipe (error : Bytes)
  | stdoutPipe (error : Bytes)
  | stderrPipe (error : Bytes)
  | fork (error : Bytes)
  | execv (error : Bytes)
  | write (written size : Int)
  | waitpid (error : Bytes)

/-- The text of the exception. -/
def Failure.what : Failure → Bytes
  | .stdinPipe e => thrown "subprocess.h" 67 (lit "pipe failed: " ++ cStr e)
  | .stdoutPipe e => thrown "subprocess.h" 72 (lit "pipe failed: " ++ cStr e)
  | .stderrPipe e => thrown "subprocess.h" 79 (lit "pipe failed: " ++ cStr e)
  | .fork e => thrown "subprocess.h" 90 (lit "fork failed: " ++ cStr e)
  | .execv e => thrown "subprocess.h" 100 (lit "exec failed: " ++ cStr e)
  | .write written size => thrown "subprocess.h" 114
      (lit "Write attempt failed (" ++ decimal written ++ lit "/" ++ decimal size ++ lit ")")
  | .waitpid e => thrown "subprocess.h" 128 (lit "Waitpid failed: " ++ cStr e)

/-- The calls of the constructor that the parent makes. -/
def Failure.inConstructor : Failure → Bool
  | .stdinPipe _ => true
  | .stdoutPipe _ => true
  | .stderrPipe _ => true
  | .fork _ => true
  | _ => false

/-- What a call comes to. -/
inductive Outcome where
  | goes
  | fails (failure : Failure)
  /-- what `finish` reads of the pipes -/
  | output (out err : Bytes)

/-- What happens next. -/
inductive Label where
  /-- the daemon is sent a work -/
  | arrive (work : Work)
  | step (pid : Pid) (outcome : Outcome)

/-- The process is at another place. -/
def State.goto (s : State) (pid : Pid) (code : Code) : State :=
  { s with processes := Function.update s.processes pid { s.processes pid with code } }

/-- `fork` in `Subprocess::Subprocess`: the child is a copy that goes on to `execv`. -/
def State.fork (s : State) (pid : Pid) (requestId : Int) (args : List Bytes) : State :=
  let child : Process :=
    { s.processes pid with code := .execv requestId args, parent := some pid }
  { s with
    processes := Function.update s.processes (s.forked + 1) child
    forked := s.forked + 1 }

/-- A step of a process. -/
def stepProcess (s : State) (pid : Pid) (outcome : Outcome) : Option State :=
  match (s.processes pid).code, outcome with
  | .getWork, .goes =>
    match (s.processes pid).works with
    | [] => none
    | work :: works =>
      some { s with
        processes := Function.update s.processes pid
          { s.processes pid with code := .actOn work.requestId work.script, works } }
  | .actOn requestId (.spawn args next), .goes =>
    some ((s.fork pid requestId args).goto pid (.actOn requestId (next (s.forked + 1))))
  | .actOn requestId (.spawn _ _), .fails failure =>
    if failure.inConstructor then
      some { s.goto pid (.caught requestId failure.what) with
        unexecuted := requestId :: s.unexecuted }
    else none
  | .execv _ args, .goes => some (s.goto pid (.program args))
  | .execv requestId _, .fails (.execv e) =>
    some { s.goto pid (.caught requestId (Failure.execv e).what) with
      unexecuted := requestId :: s.unexecuted }
  | .actOn requestId (.write _ next), .goes => some (s.goto pid (.actOn requestId next))
  | .actOn requestId (.write _ _), .fails (.write written size) =>
    some (s.goto pid (.caught requestId (Failure.write written size).what))
  | .actOn requestId (.finish sub next), .output out err =>
    -- `waitpid` returns for a child that has ended, once
    if (s.processes sub).parent = some pid ∧ (s.processes sub).code.isEnded then
      some ({ s with
        processes := Function.update s.processes sub { s.processes sub with parent := none } }.goto
          pid (.actOn requestId (next out err)))
    else none
  | .actOn requestId (.finish sub _), .fails (.waitpid e) =>
    if (s.processes sub).parent = some pid then none
    else some (s.goto pid (.caught requestId (Failure.waitpid e).what))
  | .actOn requestId (.threw what), .goes => some (s.goto pid (.caught requestId what))
  | .actOn requestId (.returned value), .goes => some (s.goto pid (.finish_ requestId value 0))
  | .caught requestId what, .goes =>
    some (s.goto pid (.finish_ requestId (.string (cStr what)) (-1)))
  | .finish_ requestId value code, .goes =>
    some { s.goto pid .getWork with
      answers := s.answers ++ [{ process := pid, requestId, value, code }] }
  | .program _, .goes => some (s.goto pid .ended)
  | _, _ => none

/-- All runs: the daemon's worker starts without a work. -/
def system : Lib.System State Label where
  init s := s = { processes := Function.update (fun _ => {}) 0 { code := .getWork } }
  step s
    | .arrive work =>
      some { s with
        processes := Function.update s.processes 0
          { s.processes 0 with works := (s.processes 0).works ++ [work] }
        arrived := s.arrived ++ [work.requestId] }
    | .step pid outcome => stepProcess s pid outcome

/-- `GeneratePasswordAction::actOn`, from where the password is made. -/
def xsel (password : Bytes) : Script :=
  .spawn [lit "/usr/bin/xsel", lit "--input", lit "--clipboard"] fun pid =>
    .write password (.finish pid fun _ _ => .returned (.string (lit "success")))

end Holchain.Holper.Fork
