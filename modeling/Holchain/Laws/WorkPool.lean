import Holchain.Holper.WorkPool

/-!
# Laws.WorkPool — what the pool's queue rests on

With the semaphore at 0 the queue is sound, however many workers there are and however their
steps are interleaved (`Lib.SemQueue.Sound.reachable`). The constructors do not put it there, and
any other value breaks the count before a single step: a worker may then be let in to an empty
queue (`front_of_empty`).
-/

namespace Holchain.Holper.WorkPool

open Lib.SemQueue (Mutex Sound)

/-- What the queue is to keep. -/
structure Safe {poolSize : Nat} (s : State poolSize) : Prop where
  /-- the semaphore and the workers between their `sem_wait` and their `pop` are covered -/
  counted : s.count + s.granted ≤ s.items.length
  /-- `front` and `pop` never ran on an empty queue -/
  defined : s.ended ≠ some .undefined
  /-- the works popped so far, each by one worker, are the first ones pushed, in order -/
  order : s.pushed = s.popped.map (·.2) ++ s.items

theorem Safe.of_sound {poolSize : Nat} {s : State poolSize} (h : Sound s) : Safe s where
  counted := le_trans (Nat.le_add_right _ _) h.counted
  defined := h.ordered.defined
  order := h.ordered.order

/-- **When the queue of a pool is safe.** For every pool size and whatever the mutex: every state
of every run is safe if and only if the memory of the semaphore happened to hold 0. -/
theorem reachable_safe_iff (poolSize : Nat) (workMutex : Mutex) (workSemaphore : Nat) :
    (∀ s, (system poolSize workMutex workSemaphore).Reachable s → Safe s)
      ↔ workSemaphore = 0 := by
  constructor
  · intro h
    have hstart := (h (constructed poolSize workMutex workSemaphore) (.init rfl)).counted
    change workSemaphore + _ ≤ 0 at hstart
    omega
  · rintro rfl s h
    exact .of_sound (Sound.reachable (Lib.SemQueue.sound_start workMutex) h)

/-- One worker, and a semaphore that happened to hold 1: it is let in and asks for the front of the
empty queue. -/
theorem front_of_empty :
    ∃ s, (system 1 .free 1).Reachable s ∧ s.ended = some .undefined ∧ ¬ Safe s := by
  obtain ⟨s, hrun, hended⟩ : ∃ s, (system 1 .free 1).run (constructed 1 .free 1)
      [getWork 0, getWork 0, getWork 0] = some s ∧ s.ended = some .undefined := ⟨_, rfl, rfl⟩
  exact ⟨s, Lib.System.Reachable.run (.init rfl) hrun, hended, fun h => h.defined hended⟩

end Holchain.Holper.WorkPool
