import Std.Data.TreeMap.Lemmas
import Holchain.Holper.Command
import Holchain.Holper.Time

/-!
# Holper.Scheduler — the queue of scheduled actions

The `Scheduler` keeps its actions in a multimap by time and, by their ids, the iterators into it.
A multimap is a list of nodes in the order of the keys, where a new node goes behind those of its
key; an iterator is the address of its node. Every operation holds the mutex, so it is one step.
The class is not part of the build yet, and its misspelt names are read as the evident ones.
-/

namespace Holchain.Holper

open Std (TreeMap)

/-- `ScheduledAction`. -/
structure ScheduledAction where
  command : Command
  parameters : Parameters
  index : Nat
  requestId : Int

/-- A node of the multimap, with its address. -/
structure ActionNode where
  self : Nat
  first : TimePoint
  second : ScheduledAction

/-- `Scheduler`. -/
structure Scheduler where
  actionQueue : List ActionNode := []
  actionIndex : TreeMap Nat Nat := ∅

namespace Scheduler

/-- `kMaxQueueSize`. -/
def kMaxQueueSize : Nat := 1000

/-- `std::multimap::insert`. -/
def insertNode (node : ActionNode) : List ActionNode → List ActionNode
  | [] => [node]
  | other :: rest =>
    if node.first < other.first then node :: other :: rest else other :: insertNode node rest

/-- `add`'s loop: the first index that is not in use, or the limit. -/
def searchIndex (actionIndex : TreeMap Nat Nat) : Nat :=
  ((List.range kMaxQueueSize).find? fun newIdx => !actionIndex.contains newIdx).getD kMaxQueueSize

/-- `add`. `now` is the time that `TimePoint()` reads and `self` the address of the new node. -/
def add (now : TimePoint) (self : Nat) (_time : TimePoint) (command : Command)
    (parameters : Parameters) (requestId : Int) (s : Scheduler) :
    Except Bytes Nat × Scheduler := Id.run do
  let mut newIdx := searchIndex s.actionIndex
  -- `if (new_idx = kMaxQueueSize)` assigns, and the value is the condition
  newIdx := kMaxQueueSize
  if newIdx ≠ 0 then
    return (.error (thrown "scheduler.h" 33
      (lit "Already have " ++ decimal kMaxQueueSize ++ lit " timers!")), s)
  let node : ActionNode :=
    { self, first := now, second := { command, parameters, index := newIdx, requestId } }
  return (.ok newIdx,
    { actionQueue := insertNode node s.actionQueue
      actionIndex := s.actionIndex.insertIfNew newIdx self })

/-- `lowest`. -/
def lowest (s : Scheduler) : Option TimePoint := s.actionQueue.head?.map ActionNode.first

/-- `pop`: undefined on an empty queue, and where the id of the action is not in the index. -/
def pop (s : Scheduler) : Option (ScheduledAction × Scheduler) :=
  match s.actionQueue with
  | [] => none
  | node :: rest =>
    if s.actionIndex.contains node.second.index then
      some (node.second,
        { actionQueue := rest, actionIndex := s.actionIndex.erase node.second.index })
    else none

/-! ## Operations -/

/-- A call, with what its environment decides. -/
inductive Op where
  | add (now : TimePoint) (self : Nat) (time : TimePoint) (command : Command)
      (parameters : Parameters) (requestId : Int)
  | pop

/-- What a call returns or throws. -/
inductive Answer where
  | added (id : Nat)
  | threw (what : Bytes)
  | popped (action : ScheduledAction)

/-- Making a call: `none` where it is undefined. -/
def step (s : Scheduler) : Op → Option (Answer × Scheduler)
  | .add now self time command parameters requestId =>
    match s.add now self time command parameters requestId with
    | (.ok id, t) => some (.added id, t)
    | (.error what, t) => some (.threw what, t)
  | .pop => s.pop.map fun (action, t) => (.popped action, t)

end Scheduler

end Holchain.Holper
