import Mathlib.Data.List.AList
import Holchain.Lib.Json
import Holchain.Lib.Transition

/-!
# Python.Holperd — the server on one event loop

Every connection is served by a coroutine, `_connected`. They share the timers and `sys.stdout`, and
what one of them does up to its next `await` nothing comes between: reading the command, waiting
until the response has gone out, and the sleep of a timer are where others run. A label is what the
loop resumes a coroutine with.

What is outside of the source is a parameter (`Env`): how JSON is read, what `click` makes of the
arguments, which texts are numbers. What a command does that is none of `Timer` is part of the
label.
-/

namespace Holchain.Python

open Lib (Str Json Floats text)

/-- A connection. -/
abbrev Conn := ℕ

/-- What `sys.stdout` and `sys.stderr` are: the streams of the process, or a `StringIO` that a
handler has put in their place. -/
inductive Stream where
  | original
  | own (c : Conn)
  deriving DecidableEq

/-- What `Timer.add` hands to `_run_timer`: the `extra` of its response. -/
structure Task where
  id : ℕ
  duration : Str
  say : Str
  deriving DecidableEq

/-- Where a handler is. `so` and `se` are the streams that its `finally` block puts back. -/
inductive Phase where
  | absent
  /-- In `reader.read()`. -/
  | reading
  /-- In a `_send_and_close` before the `try`. -/
  | rejecting
  /-- In the `_send_and_close` of a return value, with the task that comes behind it. -/
  | answering (so se : Stream) (task : Option Task)
  /-- In a `_send_and_close` of an `except` clause. -/
  | excusing (so se : Stream)
  /-- In the sleep of `_run_timer`. -/
  | sleeping (so se : Stream) (task : Task)
  | ended
  deriving DecidableEq

/-- The timer that a handler has in hand. -/
def Phase.task : Phase → Option Task
  | .answering _ _ task => task
  | .sleeping _ _ task => some task
  | _ => none

section Commands

variable (F : Type)

/-- A return value: its `str` and its JSON. An error says whether the traceback of the exception
can be logged. -/
structure Value where
  str : Except Bool Str
  json : Except Bool (Json F)

/-- How a command ends. -/
inductive Outcome where
  | returned (value : Value F) (code : ℤ)
  /-- `click.exceptions.Exit`. -/
  | exited
  | userError (msg : Str)
  /-- Any other exception, and whether its traceback can be logged. -/
  | raised (loggable : Bool)

/-- What a command that is none of `Timer` does: what it prints, and how it ends. -/
structure Behaviour where
  printed : Str
  outcome : Outcome F

/-- What `click` makes of a list of arguments. -/
inductive Routed where
  | add (seconds say : Str)
  | cancel (timerId : Str)
  | other

/-- What is not in the source. -/
structure Env where
  floats : Floats F
  /-- `json.loads` on bytes; an error is `none`. -/
  loads : List UInt8 → Option (Json F)
  route : List (Json F) → Routed
  /-- `int` on a text; an error is `none`. -/
  int : Str → Option ℤ
  /-- `asyncio.sleep(float(text))` sleeps, and no error is raised. -/
  sleeps : Str → Bool
  /-- The lines that are logged: each has the time, the process and a message. -/
  lines : ℕ → Str

end Commands

/-- What becomes of a timer. -/
structure Record where
  cancelled : Bool
  woken : Bool
  spoken : ℕ
  deriving DecidableEq

variable {F : Type}

/-- The server: `timers` is `Timer.timers`. The last three fields are not in the program: the
handlers between their redirection and their `finally` block, the latest first, what has become of
the timer that a connection has added, and what a client has sent. -/
structure State (F : Type) where
  stdout : Stream
  stderr : Stream
  /-- What is written to each stream in the place of `sys.stdout`. -/
  written : Stream → Str
  logged : ℕ
  timers : AList fun _ : ℕ => Bool
  phase : Conn → Phase
  replies : Conn → List (List Char)
  closed : Conn → Bool
  opened : List Conn
  record : Conn → Option Record
  input : Conn → Option (List UInt8 × Behaviour F)

/-- Before the first connection. -/
def State.start : State F where
  stdout := .original
  stderr := .original
  written _ := text ""
  logged := 0
  timers := ∅
  phase _ := .absent
  replies _ := []
  closed _ := false
  opened := []
  record _ := none
  input _ := none

/-! ## Timer -/

/-- The first `i` of `range(10000)` that is not taken. -/
def newid (timers : AList fun _ : ℕ => Bool) : Option ℕ :=
  (List.range 10000).find? fun i => i ∉ timers

/-- A return value that is printed and sent without an error. -/
def Value.of (str : List Char) (json : Json F) : Value F where
  str := .ok (.ofText str)
  json := .ok json

/-- `Timer.add`. -/
def add (c : Conn) (seconds say : Str) (s : State F) : State F × Outcome F × Option Task :=
  match newid s.timers with
  | none => (s, .userError (.ofText ("Too many active timers (".toList
      ++ Json.intText s.timers.entries.length ++ ")!".toList)), none)
  | some id =>
    ({ s with
        timers := s.timers.insert id true
        record := Function.update s.record c (some { cancelled := false, woken := false, spoken := 0 }) },
      .returned (.of (Json.intText id) (.int id)) 0, some { id, duration := seconds, say })

/-- `timer_id in Timer.timers`. -/
def isTimer (timers : AList fun _ : ℕ => Bool) : ℤ → Bool
  | .ofNat id => id ∈ timers
  | .negSucc _ => false

/-- The record of a timer when a timer with an id is cancelled. -/
def Record.cancel (id : ℕ) (task : Option Task) (r : Record) : Record :=
  if task.map (·.id) = some id then { r with cancelled := true } else r

/-- `Timer.cancel`. -/
def cancel (env : Env F) (timerId : Str) (s : State F) : State F × Outcome F :=
  match env.int timerId with
  | none => (s, .raised true)
  | some n =>
    if isTimer s.timers n then
      ({ s with
          timers := s.timers.insert n.toNat false
          record := fun c => (s.record c).map (Record.cancel n.toNat (s.phase c).task) },
        .returned (.of "True".toList (.bool true)) 0)
    else (s, .userError (.ofText ("Timer ".toList ++ Json.intText n ++ " not found".toList)))

/-! ## Server -/

/-- `json.dumps({'response': msg, 'code': code})`. -/
def reply (env : Env F) (msg : Json F) (code : ℤ) : List Char :=
  Json.dumps env.floats none false (.obj [(text "response", msg), (text "code", .int code)])

/-- `sys.stdout.write`. -/
def write (t : Str) (s : State F) : State F :=
  { s with written := Function.update s.written s.stdout ((s.written s.stdout).append t) }

/-- `Log()`: one more line. -/
def log (env : Env F) (s : State F) : State F :=
  { write (env.lines s.logged) s with logged := s.logged + 1 }

/-- A line for a file in UTF-8 holds no surrogate. -/
def loggable (t : Str) : Bool := t.points.all fun c => !(Lib.isHigh c || Lib.isLow c)

/-- `_send_and_close` up to its first `await`. -/
def sendAndClose (env : Env F) (c : Conn) (msg : Json F) (code : ℤ) (awaiting : Phase) (s : State F) :
    State F :=
  let s := log env s
  { s with
    replies := Function.update s.replies c (s.replies c ++ [reply env msg code])
    phase := Function.update s.phase c awaiting }

/-- `so = sys.stdout` and what follows, up to the command. -/
def redirect (c : Conn) (s : State F) : State F :=
  { s with
    stdout := .own c
    stderr := .own c
    written := Function.update s.written (.own c) (text "")
    opened := c :: s.opened }

/-- The `finally` block, and the end of the handler. -/
def finish (c : Conn) (so se : Stream) (s : State F) : State F :=
  { s with
    stdout := so
    stderr := se
    phase := Function.update s.phase c .ended
    opened := s.opened.erase c }

/-- The last `except` clause. Where the traceback cannot be logged the clause is left by an error of
its own. -/
def failed (env : Env F) (c : Conn) (so se : Stream) (loggable : Bool) (s : State F) : State F :=
  if loggable then
    sendAndClose env c (.str (text "Command failed")) (-1) (.excusing so se) (log env s)
  else finish c so se (log env s)

/-- What follows the command, up to the next `await`. -/
def conclude (env : Env F) (c : Conn) (so se : Stream) (task : Option Task) (s : State F) :
    Outcome F → State F
  | .returned value code =>
    match value.str with
    | .error b => failed env c so se b s
    | .ok t =>
      let s := log env s
      if loggable t then
        match value.json with
        | .error b => failed env c so se b s
        | .ok v => sendAndClose env c v code (.answering so se task) s
      -- the error of the codec names the character by its number
      else failed env c so se true s
  | .exited => sendAndClose env c (.str (s.written s.stdout)) 0 (.excusing so se) s
  | .userError msg =>
    if loggable msg then sendAndClose env c (.str msg) (-1) (.excusing so se) (log env s)
    else finish c so se (log env s)
  | .raised b => failed env c so se b s

/-- `self.root.make_context` and `self.root.invoke`. -/
def invoke (env : Env F) (c : Conn) (args : List (Json F)) (behaviour : Behaviour F) (s : State F) :
    State F × Outcome F × Option Task :=
  match env.route args with
  | .add seconds say => add c seconds say s
  | .cancel timerId =>
    let (s, outcome) := cancel env timerId s
    (s, outcome, none)
  | .other => (write behaviour.printed s, behaviour.outcome, none)

/-- `len`, which numbers, truth values and `null` do not have. -/
def len : Json F → Option ℕ
  | .str s => some s.points.length
  | .arr items => some items.length
  | .obj members => some members.length
  | _ => none

/-- The items of a list, and of nothing else. -/
def items : Json F → List (Json F)
  | .arr items => items
  | _ => []

/-- `isinstance(command, list)`. -/
def isList : Json F → Bool
  | .arr _ => true
  | _ => false

/-- `len(command) == 0 or not isinstance(command, list)`; `none` where `len` raises. -/
def isInvalid (command : Json F) : Option Bool :=
  (len command).map fun n => n == 0 || !isList command

/-- `_connected` behind the reading of the command. -/
def connected (env : Env F) (c : Conn) (command : List UInt8) (behaviour : Behaviour F)
    (s : State F) : State F :=
  let s := log env s
  match env.loads command with
  | none =>
    sendAndClose env c (.str (text "Command failed to parse")) (-1) .rejecting (log env s)
  | some command =>
    match isInvalid command with
    -- nothing catches the error
    | none => { s with phase := Function.update s.phase c .ended }
    | some true => sendAndClose env c (.str (text "Invalid command")) (-1) .rejecting (log env s)
    | some false =>
      let so := s.stdout
      let se := s.stderr
      let (s, outcome, task) := invoke env c (items command) behaviour (redirect c s)
      conclude env c so se task s outcome

/-- `_run_timer` up to its sleep, or to the error that `_connected` logs. -/
def runTimer (env : Env F) (c : Conn) (so se : Stream) (task : Task) (s : State F) : State F :=
  let s := log env s
  if env.sleeps task.duration then
    { s with phase := Function.update s.phase c (.sleeping so se task) }
  else finish c so se (log env s)

/-- The speech program: it has run, or an error is raised, before it runs or behind it. -/
inductive Speech where
  | ran
  | raised (spoken : Bool)
  deriving DecidableEq

/-- Whether something was said. -/
def Speech.spoken : Speech → Bool
  | .ran => true
  | .raised spoken => spoken

/-- The record of a timer that is up. -/
def Record.wake (spoken : Bool) (r : Record) : Record :=
  { r with woken := true, spoken := r.spoken + spoken.toNat }

/-- `_run_timer` behind its sleep, and the end of the handler. -/
def wakeUp (env : Env F) (c : Conn) (so se : Stream) (task : Task) (speech : Speech) (s : State F) :
    State F :=
  let record (spoken : Bool) : Conn → Option Record :=
    Function.update s.record c ((s.record c).map (Record.wake spoken))
  match s.timers.lookup task.id with
  -- the `KeyError` is logged
  | none => finish c so se (log env { s with record := record false })
  | some false =>
    finish c so se (log env { s with timers := s.timers.erase task.id, record := record false })
  | some true =>
    match speech with
    | .ran =>
      finish c so se (log env { s with timers := s.timers.erase task.id, record := record true })
    | .raised spoken => finish c so se (log env { s with record := record spoken })

/-! ## The event loop -/

/-- What a coroutine is resumed with. -/
inductive Label (F : Type) where
  | connect (c : Conn)
  /-- The client has closed its side: all that it has sent, and what the command will do. -/
  | read (c : Conn) (command : List UInt8) (behaviour : Behaviour F)
  /-- The response has gone out and the connection is closed. -/
  | delivered (c : Conn)
  /-- The client is gone: the waiting raises. -/
  | disconnected (c : Conn)
  /-- The sleep is over. -/
  | wake (c : Conn) (speech : Speech)

/-- The connection whose coroutine is resumed. -/
def Label.conn : Label F → Conn
  | .connect c | .read c _ _ | .delivered c | .disconnected c | .wake c _ => c

/-- The effect of a label. -/
def step (env : Env F) (s : State F) : Label F → Option (State F)
  | .connect c =>
    match s.phase c with
    | .absent => some { s with phase := Function.update s.phase c .reading }
    | _ => none
  | .read c command behaviour =>
    match s.phase c with
    | .reading => some (connected env c command behaviour
        { s with input := Function.update s.input c (some (command, behaviour)) })
    | _ => none
  | .delivered c =>
    let s' := { s with closed := Function.update s.closed c true }
    match s.phase c with
    | .rejecting => some { s' with phase := Function.update s.phase c .ended }
    | .answering so se none => some (finish c so se s')
    | .answering so se (some task) => some (runTimer env c so se task s')
    | .excusing so se => some (finish c so se s')
    | _ => none
  | .disconnected c =>
    match s.phase c with
    | .rejecting => some { s with phase := Function.update s.phase c .ended }
    | .answering so se _ => some (failed env c so se true s)
    | .excusing so se => some (finish c so se s)
    | _ => none
  | .wake c speech =>
    match s.phase c with
    | .sleeping so se task => some (wakeUp env c so se task speech s)
    | _ => none

/-- The server, from its start. -/
def system (env : Env F) : Lib.System (State F) (Label F) where
  init s := s = .start
  step := step env

end Holchain.Python
