import Holchain.Lib.SemQueue
import Holchain.Holper.Request

/-!
# Holper.WorkPool — the queue between the pool's thread and its workers

`works_` behind `workMutex_` and `workSemaphore_`. The one producer is the WorkPool thread in
`handleMessage`: `LockMutex`, `works_.push`, `~LockMutex`, `sem_post`, whose result is ignored.
The consumers are the workers in `getWork`: `sem_wait`, `LockMutex`, `works_.front`, `works_.pop`,
`~LockMutex`; a worker that has got its work comes back for another one.

Nothing initialises the mutex and the semaphore: the constructor of `WorkPool` starts the workers
and does nothing else, and that of `Thread` initialises the fields of its own mailbox.
-/

namespace Holchain.Holper.WorkPool

open Lib.SemQueue (Mutex)

/-- `SEM_VALUE_MAX`. -/
def semValueMax : Nat := 2 ^ 31 - 1

/-- The queue of a pool with its threads. -/
abbrev State (poolSize : Nat) := Lib.SemQueue.State Unit (Fin poolSize) Work

/-- What the constructors leave behind, where the memory of `workMutex_` and `workSemaphore_`
held these values before. -/
def constructed (poolSize : Nat) (workMutex : Mutex) (workSemaphore : Nat) : State poolSize :=
  { mutex := workMutex, count := workSemaphore }

/-- The WorkPool thread takes a message to `handleMessage`. -/
def handleMessage {poolSize : Nat} (msg : Work) : Lib.SemQueue.Label Unit (Fin poolSize) Work :=
  .send () msg

/-- The next call of `handleMessage`. -/
def handler {poolSize : Nat} : Lib.SemQueue.Label Unit (Fin poolSize) Work := .producer ()

/-- The next call of a worker's `getWork`. -/
def getWork {poolSize : Nat} (id : Fin poolSize) : Lib.SemQueue.Label Unit (Fin poolSize) Work :=
  .consumer id

/-- All runs of a pool. -/
def system (poolSize : Nat) (workMutex : Mutex) (workSemaphore : Nat) :
    Lib.System (State poolSize) (Lib.SemQueue.Label Unit (Fin poolSize) Work) :=
  Lib.SemQueue.system semValueMax (constructed poolSize workMutex workSemaphore)

end Holchain.Holper.WorkPool
