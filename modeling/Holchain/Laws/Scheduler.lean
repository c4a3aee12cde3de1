import Holchain.Lib.PriorityQueue
import Holchain.Holper.Scheduler

/-!
# Laws.Scheduler — the Scheduler as a bounded priority queue

`Linked` ties the two containers of a `Scheduler` together: the queue is in order, and the index
leads from each id in use to the node that carries it. `pending` is the priority queue it stands
for. `pop` and `lowest` are those of `Lib.PriorityQueue` in every linked state; `add` is not, since
it throws in every state. `refines_iff` says which sequences of calls do not show the difference.
-/

namespace Holchain.Holper.Scheduler

open Holchain.Lib
open PriorityQueue (Entry Adds Pops IsLowest)
open Std (TreeMap)

/-- What is to be done at its time. -/
structure Job where
  command : Command
  parameters : Parameters
  requestId : Int

/-- What a scheduled action does. -/
def job (action : ScheduledAction) : Job :=
  { command := action.command, parameters := action.parameters, requestId := action.requestId }

/-- The entry that a node stands for. -/
def entry (node : ActionNode) : Entry TimePoint Job :=
  { id := node.second.index, time := node.first, item := job node.second }

/-- The entries pending. -/
def pending (s : Scheduler) : Multiset (Entry TimePoint Job) := ↑(s.actionQueue.map entry)

/-- The queue is sorted by time, and the index is a bijection between the ids in use and its
nodes: each id leads to the node that carries it. -/
structure Linked (s : Scheduler) : Prop where
  sorted : s.actionQueue.Pairwise fun a b => ¬ b.first < a.first
  addresses : (s.actionQueue.map ActionNode.self).Nodup
  ids : (s.actionQueue.map fun node => node.second.index).Nodup
  points : ∀ id self, s.actionIndex[id]? = some self
    ↔ ∃ node ∈ s.actionQueue, node.second.index = id ∧ node.self = self

/-- What a priority queue of at most `kMaxQueueSize` entries does for a call, from the state before
it to the state after it. -/
def Conforms (s : Scheduler) : Op → Answer → Scheduler → Prop
  | .add _ _ time command parameters requestId, .added id, t =>
    Adds kMaxQueueSize time ⟨command, parameters, requestId⟩ s.pending (some id) t.pending
  | .add _ _ time command parameters requestId, .threw _, t =>
    Adds kMaxQueueSize time ⟨command, parameters, requestId⟩ s.pending none t.pending
  | .pop, .popped action, t =>
    ∃ time, Pops s.pending ⟨action.index, time, job action⟩ t.pending
  | _, _, _ => False

/-- Every call of the sequence conforms and leaves the containers linked, with the least time
pending to be read, up to a `pop` that is undefined because nothing is pending. -/
def Refines (s : Scheduler) : List Op → Prop
  | [] => True
  | op :: ops =>
    ((s.step op).isSome ∨ op = .pop ∧ s.pending = 0)
      ∧ ∀ answer t, s.step op = some (answer, t) →
        s.Conforms op answer t ∧ t.Linked ∧ IsLowest t.pending t.lowest ∧ t.Refines ops

/-- Every call of `add` in the sequence is made on a full queue. -/
def AddsWhenFull (s : Scheduler) : List Op → Prop
  | [] => True
  | op :: ops => ∀ answer t, s.step op = some (answer, t) →
    (op = .pop ∨ kMaxQueueSize ≤ s.pending.card) ∧ t.AddsWhenFull ops

/-! ## The calls -/

variable {s t : Scheduler}

/-- The constructor's state. -/
theorem linked_new : Linked {} where
  sorted := .nil
  addresses := .nil
  ids := .nil
  points := by
    intro id self
    simp

/-- `lowest` reads the least time pending. -/
theorem Linked.isLowest (h : s.Linked) : IsLowest s.pending s.lowest := by
  have hsorted : (s.actionQueue.map entry).Pairwise fun a b => ¬ b.time < a.time :=
    List.pairwise_map.mpr h.sorted
  have hhead := PriorityQueue.isLowest_head TimePoint.lt_irrefl hsorted
  rw [List.head?_map, Option.map_map] at hhead
  exact hhead

/-- **`add` throws, whatever the state**, which it leaves as it was. -/
theorem step_add (s : Scheduler) (now : TimePoint) (self : Nat) (time : TimePoint)
    (command : Command) (parameters : Parameters) (requestId : Int) :
    s.step (.add now self time command parameters requestId)
      = some (.threw (thrown "scheduler.h" 33 (lit "Already have 1000 timers!")), s) := rfl

/-- What `pop` does where something is pending. -/
theorem step_pop_cons {node : ActionNode} {rest : List ActionNode} (h : s.Linked)
    (hqueue : s.actionQueue = node :: rest) :
    s.step .pop = some (.popped node.second,
      { actionQueue := rest, actionIndex := s.actionIndex.erase node.second.index }) := by
  have hin : s.actionIndex.contains node.second.index = true := by
    rw [TreeMap.contains_eq_isSome_getElem?,
      (h.points _ node.self).mpr ⟨node, hqueue ▸ List.mem_cons_self, rfl, rfl⟩]
    rfl
  simp only [step, pop, hqueue, hin, if_true, Option.map_some]

/-- Without its head, the queue is linked to the index without the head's id. -/
theorem Linked.tail {node : ActionNode} {rest : List ActionNode} (h : s.Linked)
    (hqueue : s.actionQueue = node :: rest) :
    Linked { actionQueue := rest, actionIndex := s.actionIndex.erase node.second.index } := by
  obtain ⟨hsorted, haddresses, hids, hpoints⟩ := h
  rw [hqueue] at hsorted haddresses hids hpoints
  obtain ⟨hhead, hids⟩ := List.nodup_cons.mp hids
  refine ⟨(List.pairwise_cons.mp hsorted).2, (List.nodup_cons.mp haddresses).2, hids, ?_⟩
  intro id self
  show (s.actionIndex.erase node.second.index)[id]? = some self ↔ _
  rw [TreeMap.getElem?_erase]
  by_cases hid : node.second.index = id
  · subst hid
    simp only [Std.LawfulEqOrd.compare_eq_iff_eq, if_true, reduceCtorEq, false_iff]
    intro hother
    obtain ⟨other, hmem, heq, -⟩ := hother
    exact hhead (List.mem_map.mpr ⟨other, hmem, heq⟩)
  · simp only [Std.LawfulEqOrd.compare_eq_iff_eq, hid, if_false, hpoints, List.mem_cons,
      exists_eq_or_imp, false_and, false_or]

/-- **`pop` takes an entry of least time**, and frees its id. -/
theorem Linked.pops {node : ActionNode} {rest : List ActionNode} (h : s.Linked)
    (hqueue : s.actionQueue = node :: rest) :
    Pops s.pending (entry node) ↑(rest.map entry) := by
  obtain ⟨hsorted, _, hids, _⟩ := h
  unfold pending
  rw [hqueue] at hsorted hids ⊢
  have hlater : ((node :: rest).map entry).Pairwise fun a b => ¬ b.time < a.time :=
    List.pairwise_map.mpr hsorted
  have hdistinct : (((node :: rest).map entry).map Entry.id).Nodup := by
    rw [List.map_map]
    exact hids
  exact PriorityQueue.pops_head TimePoint.lt_irrefl hlater hdistinct

/-! ## Sequences of calls -/

/-- A call that is made. -/
theorem refines_cons {op : Op} {answer : Answer} (hstep : s.step op = some (answer, t))
    (ops : List Op) :
    s.Refines (op :: ops) ↔
      s.Conforms op answer t ∧ t.Linked ∧ IsLowest t.pending t.lowest ∧ t.Refines ops := by
  constructor
  · intro h
    exact h.2 answer t hstep
  · intro h
    refine ⟨.inl (by rw [hstep]; rfl), fun answer' t' hstep' => ?_⟩
    rw [hstep] at hstep'
    cases hstep'
    exact h

theorem addsWhenFull_cons {op : Op} {answer : Answer} (hstep : s.step op = some (answer, t))
    (ops : List Op) :
    s.AddsWhenFull (op :: ops) ↔
      (op = .pop ∨ kMaxQueueSize ≤ s.pending.card) ∧ t.AddsWhenFull ops := by
  constructor
  · intro h
    exact h answer t hstep
  · intro h answer' t' hstep'
    rw [hstep] at hstep'
    cases hstep'
    exact h

/-- **Where the Scheduler is a bounded priority queue.** From every linked state, every call of a
sequence does what a priority queue of at most `kMaxQueueSize` entries does, if and only if every
call of `add` in it is made on a full queue. -/
theorem refines_iff (s : Scheduler) (h : s.Linked) (ops : List Op) :
    s.Refines ops ↔ s.AddsWhenFull ops := by
  induction ops generalizing s with
  | nil => exact Iff.rfl
  | cons op ops ih =>
    cases op with
    | add now self time command parameters requestId =>
      have hstep := step_add s now self time command parameters requestId
      rw [refines_cons hstep, addsWhenFull_cons hstep, ih s h]
      constructor
      · rintro ⟨⟨hlimit, -⟩, -, -, hrest⟩
        exact ⟨.inr hlimit, hrest⟩
      · rintro ⟨hcard, hrest⟩
        have hlimit := hcard.resolve_left (by intro heq; cases heq)
        exact ⟨⟨hlimit, rfl⟩, h, h.isLowest, hrest⟩
    | pop =>
      cases hqueue : s.actionQueue with
      | nil =>
        have hnone : s.step .pop = none := by simp only [step, pop, hqueue, Option.map_none]
        have hempty : s.pending = 0 := by
          unfold pending
          rw [hqueue]
          rfl
        constructor
        · intro _ answer t hanswer
          rw [hnone] at hanswer
          cases hanswer
        · intro _
          refine ⟨.inr ⟨rfl, hempty⟩, fun answer t hanswer => ?_⟩
          rw [hnone] at hanswer
          cases hanswer
      | cons node rest =>
        have hstep := step_pop_cons h hqueue
        have htail := h.tail hqueue
        rw [refines_cons hstep, addsWhenFull_cons hstep, ih _ htail]
        constructor
        · rintro ⟨-, -, -, hrest⟩
          exact ⟨.inl rfl, hrest⟩
        · rintro ⟨-, hrest⟩
          exact ⟨⟨node.first, h.pops hqueue⟩, htail, htail.isLowest, hrest⟩

/-- An action of the command at the given address. -/
def timer (self index : Nat) : ScheduledAction :=
  { command := Command.new self, parameters := {}, index, requestId := 1 }

/-- Two actions that are pending, the later one under the smaller id. -/
def twoTimers : Scheduler :=
  { actionQueue := [⟨10, ⟨5, 0⟩, timer 1 1⟩, ⟨20, ⟨7, 0⟩, timer 2 0⟩]
    actionIndex := ((∅ : TreeMap Nat Nat).insertIfNew 0 20).insertIfNew 1 10 }

theorem linked_twoTimers : twoTimers.Linked where
  sorted := by decide
  addresses := by decide
  ids := by decide
  points := by
    intro id self
    show (((∅ : TreeMap Nat Nat).insertIfNew 0 20).insertIfNew 1 10)[id]? = some self ↔ _
    rw [TreeMap.getElem?_insertIfNew, TreeMap.getElem?_insertIfNew]
    simp only [Std.LawfulEqCmp.compare_eq_iff_eq, TreeMap.mem_insertIfNew, Nat.zero_ne_one,
      TreeMap.not_mem_emptyc, or_self, not_false_eq_true, and_true, getElem?_neg, twoTimers, timer,
      List.mem_cons, List.not_mem_nil, or_false, exists_eq_or_imp, exists_eq_left]
    grind

/-- The two are popped in the order of their times. -/
theorem refines_two_pops : twoTimers.Refines [.pop, .pop] := by
  refine (refines_iff twoTimers linked_twoTimers [.pop, .pop]).mpr ?_
  intro _ _ _
  refine ⟨.inl rfl, fun _ _ _ => ⟨.inl rfl, trivial⟩⟩

/-- The first `add` after the constructor throws. -/
theorem first_add_throws :
    step {} (.add ⟨5, 0⟩ 10 ⟨7, 0⟩ (Command.new 1) {} 1)
        = some (.threw (lit "scheduler.h:33: Already have 1000 timers!"), {})
      ∧ ¬ Refines {} [.add ⟨5, 0⟩ 10 ⟨7, 0⟩ (Command.new 1) {} 1] := by
  refine ⟨by rfl, fun h => ?_⟩
  obtain ⟨⟨hlimit, -⟩, -⟩ := h.2 _ _ rfl
  exact absurd hlimit (by decide)

end Holchain.Holper.Scheduler
