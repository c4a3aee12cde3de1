import Holchain.Holper.Text
import Holchain.Lib.Transition
import Mathlib.Logic.Function.Basic

/-!
# Holper.Logger — the logger and its targets

A thread that logs makes a line of the message, if its level is high enough, and writes it to one
target after another. No lock is held meanwhile, so other threads write in between.
-/

namespace Holchain.Holper

/-- `InMemoryLogTarget`. -/
structure InMemoryLogTarget where
  logs : List Bytes
  index : UInt64 := 0
  logCount : UInt64 := 0

namespace InMemoryLogTarget

/-- The constructor. -/
def new (size : UInt64) : InMemoryLogTarget := { logs := List.replicate size.toNat [] }

/-- Methods, without a result where a vector is indexed outside of it. -/
abbrev Method (α : Type) := StateT InMemoryLogTarget Option α

/-- `vec[i]`. -/
def subscript (vec : List Bytes) (i : Nat) : Method Bytes := StateT.lift vec[i]?

/-- `getLogs`. -/
def getLogs : Method (List Bytes) := do
  let target ← get
  let mut vec : List Bytes := []
  if target.index < target.logCount then
    let size := target.logs.length
    vec := vec ++ (← (List.range' target.index.toNat (size - target.index.toNat)).mapM
      (subscript target.logs))
  vec := vec ++ (← (List.range' 0 target.index.toNat).mapM (subscript target.logs))
  return vec

/-- `write`. -/
def write (string : Bytes) : Method Unit := do
  let target ← get
  guard (target.index.toNat < target.logs.length)
  set { target with
    logs := target.logs.set target.index.toNat string
    index := (target.index + 1) % UInt64.ofNat target.logs.length
    logCount := target.logCount + 1 }

/-- What the program does with a target. -/
inductive Operation where
  | write (string : Bytes)
  | getLogs

/-- One operation. -/
def perform : Operation → Method Unit
  | .write string => InMemoryLogTarget.write string
  | .getLogs => do
    let _ ← InMemoryLogTarget.getLogs

end InMemoryLogTarget

namespace Logger

/-- `Logger::Level`. -/
inductive Level where
  | debug
  | info
  | warn
  | mustfix
  | error
  | fatal
  | internal
  deriving DecidableEq

/-- `(int)level`. -/
def Level.toInt : Level → Int
  | .debug => 0
  | .info => 1
  | .warn => 2
  | .mustfix => 3
  | .error => 4
  | .fatal => 5
  | .internal => 6

/-- `levelColors_`. -/
def levelColors : Level → Bytes
  | .debug | .info => lit "\x1b[97m"
  | .warn | .mustfix => lit "\x1b[93m"
  | .error | .fatal => lit "\x1b[91m"
  | .internal => lit "\x1b[95m"

/-- What a line says of its thread. -/
structure Origin where
  /-- `RealTimePoint().str()` -/
  time : Bytes
  pid : Int
  tid : Int
  threadName : Bytes

/-- The line that `_log` writes. -/
def line (origin : Origin) (level : Level) (message : Bytes) : Bytes :=
  origin.time ++ lit " [" ++ decimal origin.pid ++ lit ":" ++ decimal origin.tid ++ lit ":"
    ++ origin.threadName ++ lit "]: " ++ levelColors level ++ message ++ lit "\x1b[0m" ++ lit "\n"

/-- A thread in `_logToTargets`. -/
structure Call where
  line : Bytes
  /-- the target that is written next -/
  next : ℕ

/-- What the targets' files have, and the threads that write to them. -/
structure State (T : Type) where
  files : List Bytes
  calls : T → Option Call

/-- What a thread does. -/
inductive Label (T : Type) where
  /-- it calls `_log` -/
  | log (thread : T) (origin : Origin) (level : Level) (message : Bytes)
  /-- `::write`, which takes that many bytes at most -/
  | write (thread : T) (taken : ℕ)
  /-- `_logToTargets` returns -/
  | done (thread : T)

variable {T : Type} [DecidableEq T]

/-- One step of a thread. -/
def step (verbosity : Level) (s : State T) : Label T → Option (State T)
  | .log thread origin level message =>
    match s.calls thread with
    | some _ => none
    | none =>
      if level.toInt < verbosity.toInt then some s
      else some { s with
        calls := Function.update s.calls thread (some ⟨line origin level message, 0⟩) }
  | .write thread taken =>
    match s.calls thread with
    | none => none
    | some call =>
      if call.next < s.files.length then some {
        files := s.files.modify call.next (· ++ call.line.take taken)
        calls := Function.update s.calls thread (some { call with next := call.next + 1 }) }
      else none
  | .done thread =>
    match s.calls thread with
    | none => none
    | some call =>
      if call.next < s.files.length then none
      else some { s with calls := Function.update s.calls thread none }

/-- Nothing is logged yet; the files may have lines of former runs. -/
def start (files : List Bytes) : State T := { files, calls := fun _ => none }

/-- Threads that log to these files. -/
def system (verbosity : Level) (files : List Bytes) : Lib.System (State T) (Label T) where
  init s := s = start files
  step := step verbosity

end Logger

end Holchain.Holper
