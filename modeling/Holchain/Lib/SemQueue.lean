import Holchain.Lib.Custody
import Holchain.Lib.Transition

/-!
# Lib.SemQueue — a queue behind a mutex and a counting semaphore

Any number of producers and consumers share a queue. A producer locks the mutex, pushes, unlocks
and posts the semaphore; a consumer waits for the semaphore, locks, looks at the front, pops and
unlocks. A step is one of these calls.

The semaphore, the consumers it let in and the producers that still owe it a post never exceed
the items (`Counted`). So no consumer finds the queue empty, and items leave in the order they
came (`Ordered`). All of it rests on the semaphore starting at the number of items.
-/

namespace Holchain.Lib.SemQueue

/-- A mutex: `held` is one that a thread has locked, or that was never free; locking an `invalid`
one fails. -/
inductive Mutex where
  | free
  | held
  | invalid
  deriving DecidableEq

/-- The next call of a producer. -/
inductive Producer (α : Type*) where
  | idle
  | lock (a : α)
  | push (a : α)
  | unlock
  | post

/-- The next call of a consumer. -/
inductive Consumer (α : Type*) where
  | wait
  | lock
  | front
  | pop (a : α)
  | unlock (a : α)
  /-- it has its item, and may come back for another one -/
  | got (a : α)

/-- What ends everything. -/
inductive Ending where
  /-- the front of an empty queue was asked for -/
  | undefined
  /-- locking failed -/
  | exception
  deriving DecidableEq

/-- The queue with all who use it. `pushed` and `popped` record what went in and who took what. -/
structure State (P C α : Type*) where
  mutex : Mutex
  count : Nat
  items : List α := []
  producers : P → Producer α := fun _ => .idle
  consumers : C → Consumer α := fun _ => .wait
  pushed : List α := []
  popped : List (C × α) := []
  ended : Option Ending := none

/-- Who makes the next call. -/
inductive Label (P C α : Type*) where
  /-- an idle producer is given something to send -/
  | send (p : P) (a : α)
  | producer (p : P)
  | consumer (c : C)

variable {P C α : Type*} [DecidableEq P] [DecidableEq C]

namespace State

/-- The producer goes on to its next call. -/
def setProducer (p : P) (pc : Producer α) (s : State P C α) : State P C α :=
  { s with producers := Function.update s.producers p pc }

/-- The consumer goes on to its next call. -/
def setConsumer (c : C) (pc : Consumer α) (s : State P C α) : State P C α :=
  { s with consumers := Function.update s.consumers c pc }

/-- The next call of a producer, where it does not block. The semaphore counts up to `top`. -/
def stepProducer (top : Nat) (p : P) (s : State P C α) : Option (State P C α) :=
  match s.producers p with
  | .idle => none
  | .lock a =>
    match s.mutex with
    | .free => some { s.setProducer p (.push a) with mutex := .held }
    | .held => none
    | .invalid => some { s with ended := some .exception }
  | .push a =>
    some { s.setProducer p .unlock with items := s.items ++ [a], pushed := s.pushed ++ [a] }
  | .unlock => some { s.setProducer p .post with mutex := .free }
  | .post => some { s.setProducer p .idle with count := min (s.count + 1) (max s.count top) }

/-- The next call of a consumer, where it does not block. -/
def stepConsumer (c : C) (s : State P C α) : Option (State P C α) :=
  match s.consumers c with
  | .wait => if 0 < s.count then some { s.setConsumer c .lock with count := s.count - 1 } else none
  | .lock =>
    match s.mutex with
    | .free => some { s.setConsumer c .front with mutex := .held }
    | .held => none
    | .invalid => some { s with ended := some .exception }
  | .front =>
    match s.items with
    | [] => some { s with ended := some .undefined }
    | a :: _ => some (s.setConsumer c (.pop a))
  | .pop a =>
    match s.items with
    | [] => some { s with ended := some .undefined }
    | _ :: rest =>
      some { s.setConsumer c (.unlock a) with items := rest, popped := s.popped ++ [(c, a)] }
  | .unlock a => some { s.setConsumer c (.got a) with mutex := .free }
  | .got _ => some (s.setConsumer c .wait)

/-- One step; none follows the end. -/
def step (top : Nat) (s : State P C α) (l : Label P C α) : Option (State P C α) :=
  if s.ended.isSome then none
  else
    match l with
    | .send p a =>
      match s.producers p with
      | .idle => some (s.setProducer p (.lock a))
      | _ => none
    | .producer p => s.stepProducer top p
    | .consumer c => s.stepConsumer c

end State

/-- The system that starts in a given state. -/
def system (top : Nat) (s₀ : State P C α) : System (State P C α) (Label P C α) where
  init := (· = s₀)
  step := State.step top

/-! ## What a step can do -/

/-- The steps, with what each of them needs. -/
inductive Step (top : Nat) (s : State P C α) : State P C α → Prop
  | send {p : P} (a : α) (h : s.producers p = .idle) : Step top s (s.setProducer p (.lock a))
  | fails (e : s.mutex = .invalid) : Step top s { s with ended := some .exception }
  | lockProducer {p : P} {a : α} (h : s.producers p = .lock a) (hm : s.mutex = .free) :
    Step top s { s.setProducer p (.push a) with mutex := .held }
  | push {p : P} {a : α} (h : s.producers p = .push a) :
    Step top s
      { s.setProducer p .unlock with items := s.items ++ [a], pushed := s.pushed ++ [a] }
  | unlockProducer {p : P} (h : s.producers p = .unlock) :
    Step top s { s.setProducer p .post with mutex := .free }
  | post {p : P} {n : Nat} (h : s.producers p = .post) (hn : n ≤ s.count + 1) :
    Step top s { s.setProducer p .idle with count := n }
  | wait {c : C} (h : s.consumers c = .wait) (hn : 0 < s.count) :
    Step top s { s.setConsumer c .lock with count := s.count - 1 }
  | lockConsumer {c : C} (h : s.consumers c = .lock) (hm : s.mutex = .free) :
    Step top s { s.setConsumer c .front with mutex := .held }
  | empty {c : C} (h : s.consumers c = .front ∨ ∃ a, s.consumers c = .pop a)
    (hitems : s.items = []) : Step top s { s with ended := some .undefined }
  | front {c : C} {a : α} {rest : List α} (h : s.consumers c = .front)
    (hitems : s.items = a :: rest) : Step top s (s.setConsumer c (.pop a))
  | pop {c : C} {a b : α} {rest : List α} (h : s.consumers c = .pop a)
    (hitems : s.items = b :: rest) :
    Step top s { s.setConsumer c (.unlock a) with items := rest, popped := s.popped ++ [(c, a)] }
  | unlockConsumer {c : C} {a : α} (h : s.consumers c = .unlock a) :
    Step top s { s.setConsumer c (.got a) with mutex := .free }
  | again {c : C} {a : α} (h : s.consumers c = .got a) : Step top s (s.setConsumer c .wait)

theorem Step.of_step {top : Nat} {s t : State P C α} {l : Label P C α}
    (h : s.step top l = some t) : Step top s t := by
  unfold State.step at h
  split at h
  · cases h
  · cases l with
    | send p a =>
      dsimp only at h
      split at h
      · cases h
        exact .send a ‹_›
      · cases h
    | producer p =>
      dsimp only [State.stepProducer] at h
      split at h
      · cases h
      · split at h
        · cases h
          exact .lockProducer ‹_› ‹_›
        · cases h
        · cases h
          exact .fails ‹_›
      · cases h
        exact .push ‹_›
      · cases h
        exact .unlockProducer ‹_›
      · cases h
        exact .post ‹_› (Nat.min_le_left _ _)
    | consumer c =>
      dsimp only [State.stepConsumer] at h
      split at h
      · split at h
        · cases h
          exact .wait ‹_› ‹_›
        · cases h
      · split at h
        · cases h
          exact .lockConsumer ‹_› ‹_›
        · cases h
        · cases h
          exact .fails ‹_›
      · split at h
        · cases h
          exact .empty (.inl ‹_›) ‹_›
        · cases h
          exact .front ‹_› ‹_›
      · split at h
        · cases h
          exact .empty (.inr ⟨_, ‹_›⟩) ‹_›
        · cases h
          exact .pop ‹_› ‹_›
      · cases h
        exact .unlockConsumer ‹_›
      · cases h
        exact .again ‹_›

/-! ## Exclusion -/

/-- The producer holds the mutex. -/
def Producer.inside : Producer α → Bool
  | .push _ | .unlock => true
  | _ => false

/-- The consumer holds the mutex. -/
def Consumer.inside : Consumer α → Bool
  | .front | .pop _ | .unlock _ => true
  | _ => false

/-- At most one thread is between locking and unlocking. A mutex that nobody here has locked may
be held all the same. -/
def Exclusive (s : State P C α) : Prop :=
  ∃ owner : Option (P ⊕ C), (owner ≠ none → s.mutex = .held)
    ∧ (∀ p, (s.producers p).inside = true ↔ owner = some (.inl p))
    ∧ ∀ c, (s.consumers c).inside = true ↔ owner = some (.inr c)

/-- Who is between locking and unlocking. -/
def State.inside (s : State P C α) : P ⊕ C → Bool :=
  Sum.elim (fun p => (s.producers p).inside) fun c => (s.consumers c).inside

theorem State.inside_setProducer (s : State P C α) (p : P) (pc : Producer α) :
    (s.setProducer p pc).inside = Function.update s.inside (.inl p) pc.inside := by
  unfold State.inside State.setProducer
  rw [Sum.update_elim_inl]
  exact congrArg (Sum.elim · _) (Function.comp_update Producer.inside s.producers p pc)

theorem State.inside_setConsumer (s : State P C α) (c : C) (pc : Consumer α) :
    (s.setConsumer c pc).inside = Function.update s.inside (.inr c) pc.inside := by
  unfold State.inside State.setConsumer
  rw [Sum.update_elim_inr]
  exact congrArg (Sum.elim _) (Function.comp_update Consumer.inside s.consumers c pc)

omit [DecidableEq P] [DecidableEq C] in
theorem exclusive_iff {s : State P C α} : Exclusive s ↔
    ∃ owner, (owner ≠ none → s.mutex = .held) ∧ ∀ x, s.inside x = true ↔ owner = some x := by
  simp only [Exclusive, State.inside, Sum.forall, Sum.elim_inl, Sum.elim_inr]

omit [DecidableEq P] [DecidableEq C] in
theorem Exclusive.eq {s : State P C α} (h : Exclusive s) {x y : P ⊕ C} (hx : s.inside x = true)
    (hy : s.inside y = true) : x = y := by
  obtain ⟨owner, -, howner⟩ := exclusive_iff.mp h
  exact Option.some.inj (((howner x).mp hx).symm.trans ((howner y).mp hy))

omit [DecidableEq P] [DecidableEq C] in
/-- A call that neither locks nor unlocks. -/
theorem Exclusive.keep {s t : State P C α} (h : Exclusive s) (hmutex : t.mutex = s.mutex)
    (hinside : t.inside = s.inside) : Exclusive t := by
  rw [exclusive_iff, hmutex, hinside, ← exclusive_iff]
  exact h

/-- A call that locks a free mutex: nobody was inside. -/
theorem Exclusive.lock {s t : State P C α} (h : Exclusive s) {x : P ⊕ C} (hfree : s.mutex = .free)
    (hmutex : t.mutex = .held) (hinside : t.inside = Function.update s.inside x true) :
    Exclusive t := by
  obtain ⟨owner, hheld, howner⟩ := exclusive_iff.mp h
  have hnone : owner = none := by
    by_contra hne
    rw [hheld hne] at hfree
    cases hfree
  subst hnone
  refine exclusive_iff.mpr ⟨some x, fun _ => hmutex, fun y => ?_⟩
  rw [hinside]
  by_cases hy : y = x
  · subst hy
    simp
  · rw [Function.update_of_ne hy, howner y]
    simp [Ne.symm hy]

/-- A call of the thread inside that unlocks: nobody else was inside. -/
theorem Exclusive.unlock {s t : State P C α} (h : Exclusive s) {x : P ⊕ C}
    (hx : s.inside x = true) (hinside : t.inside = Function.update s.inside x false) :
    Exclusive t := by
  obtain ⟨owner, -, howner⟩ := exclusive_iff.mp h
  obtain rfl := (howner x).mp hx
  refine exclusive_iff.mpr ⟨none, fun hne => absurd rfl hne, fun y => ?_⟩
  rw [hinside]
  by_cases hy : y = x
  · subst hy
    simp
  · rw [Function.update_of_ne hy, howner y]
    simp [Ne.symm hy]

theorem Exclusive.setProducer {s : State P C α} (h : Exclusive s) {p : P} {pc : Producer α}
    (hpc : pc.inside = (s.producers p).inside) : Exclusive (s.setProducer p pc) := by
  refine h.keep rfl ?_
  rw [s.inside_setProducer, hpc]
  exact Function.update_eq_self (Sum.inl p) s.inside

theorem Exclusive.setConsumer {s : State P C α} (h : Exclusive s) {c : C} {pc : Consumer α}
    (hpc : pc.inside = (s.consumers c).inside) : Exclusive (s.setConsumer c pc) := by
  refine h.keep rfl ?_
  rw [s.inside_setConsumer, hpc]
  exact Function.update_eq_self (Sum.inr c) s.inside

theorem Exclusive.step {top : Nat} {s t : State P C α} (h : Exclusive s) (hstep : Step top s t) :
    Exclusive t := by
  cases hstep with
  | send a hp => exact h.setProducer (by rw [hp]; rfl)
  | fails => exact h
  | lockProducer _ hm => exact h.lock hm rfl (s.inside_setProducer _ _)
  | push hp => exact h.setProducer (by rw [hp]; rfl)
  | @unlockProducer p hp =>
    have hin : s.inside (.inl p) = true := by
      simp [State.inside, hp, Producer.inside]
    exact h.unlock hin (s.inside_setProducer _ _)
  | post hp => exact h.setProducer (by rw [hp]; rfl)
  | wait hc => exact h.setConsumer (by rw [hc]; rfl)
  | lockConsumer _ hm => exact h.lock hm rfl (s.inside_setConsumer _ _)
  | empty => exact h
  | front hc => exact h.setConsumer (by rw [hc]; rfl)
  | pop hc => exact h.setConsumer (by rw [hc]; rfl)
  | @unlockConsumer c a hc =>
    have hin : s.inside (.inr c) = true := by
      simp [State.inside, hc, Consumer.inside]
    exact h.unlock hin (s.inside_setConsumer _ _)
  | again hc => exact h.setConsumer (by rw [hc]; rfl)

/-! ## Counting -/

/-- The semaphore let the consumer in, and it has not popped yet. -/
def Consumer.granted : Consumer α → Nat
  | .lock | .front | .pop _ => 1
  | _ => 0

/-- The producer has pushed, and has not posted yet. -/
def Producer.owed : Producer α → Nat
  | .unlock | .post => 1
  | _ => 0

variable [Fintype P] [Fintype C]

/-- The consumers between their wait and their pop. -/
def State.granted (s : State P C α) : Nat := ∑ c, (s.consumers c).granted

/-- The producers between their push and their post. -/
def State.owed (s : State P C α) : Nat := ∑ p, (s.producers p).owed

/-- **The invariant of the semaphore.** -/
def Counted (s : State P C α) : Prop := s.count + s.granted + s.owed ≤ s.items.length

omit [DecidableEq C] in
/-- A step of a producer keeps the invariant where what it owes and what it posts grow by no more
than the items. -/
theorem Counted.producer {s t : State P C α} (h : Counted s) {p : P} {pc : Producer α}
    (hproducers : t.producers = Function.update s.producers p pc)
    (hconsumers : t.consumers = s.consumers)
    (hle : t.count + pc.owed + s.items.length
      ≤ s.count + (s.producers p).owed + t.items.length) : Counted t := by
  have hsum := sum_update Producer.owed s.producers p pc
  unfold Counted State.granted State.owed at h ⊢
  rw [hproducers, hconsumers]
  omega

omit [DecidableEq P] in
/-- The same for a step of a consumer. -/
theorem Counted.consumer {s t : State P C α} (h : Counted s) {c : C} {pc : Consumer α}
    (hconsumers : t.consumers = Function.update s.consumers c pc)
    (hproducers : t.producers = s.producers)
    (hle : t.count + pc.granted + s.items.length
      ≤ s.count + (s.consumers c).granted + t.items.length) : Counted t := by
  have hsum := sum_update Consumer.granted s.consumers c pc
  unfold Counted State.granted State.owed at h ⊢
  rw [hproducers, hconsumers]
  omega

theorem Counted.step {top : Nat} {s t : State P C α} (h : Counted s) (hstep : Step top s t) :
    Counted t := by
  cases hstep with
  | send a hp =>
    refine h.producer rfl rfl ?_
    simp [hp, Producer.owed, State.setProducer]
  | fails => exact h
  | lockProducer hp =>
    refine h.producer rfl rfl ?_
    simp [hp, Producer.owed, State.setProducer]
  | push hp =>
    refine h.producer rfl rfl ?_
    simp [hp, Producer.owed, State.setProducer]
    omega
  | unlockProducer hp =>
    refine h.producer rfl rfl ?_
    simp [hp, Producer.owed, State.setProducer]
  | post hp hn =>
    refine h.producer rfl rfl ?_
    simp only [hp, Producer.owed, State.setProducer]
    omega
  | wait hc hn =>
    refine h.consumer rfl rfl ?_
    simp only [hc, Consumer.granted, State.setConsumer]
    omega
  | lockConsumer hc =>
    refine h.consumer rfl rfl ?_
    simp [hc, Consumer.granted, State.setConsumer]
  | empty => exact h
  | front hc =>
    refine h.consumer rfl rfl ?_
    simp [hc, Consumer.granted, State.setConsumer]
  | pop hc hitems =>
    refine h.consumer rfl rfl ?_
    simp [hc, hitems, Consumer.granted, State.setConsumer]
    omega
  | unlockConsumer hc =>
    refine h.consumer rfl rfl ?_
    simp [hc, Consumer.granted, State.setConsumer]
  | again hc =>
    refine h.consumer rfl rfl ?_
    simp [hc, Consumer.granted, State.setConsumer]

omit [DecidableEq P] [DecidableEq C] in
/-- A consumer that is let in has an item to take. -/
theorem Counted.items_ne_nil {s : State P C α} (h : Counted s) {c : C}
    (hc : (s.consumers c).granted = 1) : s.items ≠ [] := by
  have hle : (s.consumers c).granted ≤ s.granted :=
    Finset.single_le_sum (f := fun c => (s.consumers c).granted) (fun _ _ => Nat.zero_le _)
      (Finset.mem_univ c)
  intro hnil
  unfold Counted at h
  rw [hnil, List.length_nil] at h
  omega

/-! ## Order -/

/-- Nothing is lost, doubled or overtaken: what went in is what was taken, in this order, and then
what is still there. A consumer that has moved an item out is about to pop this one. -/
structure Ordered (s : State P C α) : Prop where
  order : s.pushed = s.popped.map (·.2) ++ s.items
  moved : ∀ c a, s.consumers c = .pop a → s.items.head? = some a
  defined : s.ended ≠ some .undefined

theorem Ordered.step {top : Nat} {s t : State P C α} (h : Ordered s) (hx : Exclusive s)
    (hn : Counted s) (hstep : Step top s t) : Ordered t := by
  obtain ⟨horder, hmoved, hdefined⟩ := h
  -- a consumer that goes on to anything but a pop
  have hkeep {c : C} {pc : Consumer α} (hpc : ∀ a, pc ≠ .pop a) :
      ∀ d a, Function.update s.consumers c pc d = .pop a → s.items.head? = some a := by
    intro d a hd
    by_cases hdc : d = c
    · subst hdc
      rw [Function.update_self] at hd
      exact absurd hd (hpc a)
    · rw [Function.update_of_ne hdc] at hd
      exact hmoved d a hd
  cases hstep with
  | send => exact ⟨horder, hmoved, hdefined⟩
  | fails => exact ⟨horder, hmoved, by simp⟩
  | lockProducer => exact ⟨horder, hmoved, hdefined⟩
  | @push p a hp =>
    refine ⟨?_, fun c b hc => ?_, hdefined⟩
    · show s.pushed ++ [a] = s.popped.map (·.2) ++ (s.items ++ [a])
      rw [horder, List.append_assoc]
    · show (s.items ++ [a]).head? = some b
      rw [List.head?_append, hmoved c b hc]
      rfl
  | unlockProducer => exact ⟨horder, hmoved, hdefined⟩
  | post => exact ⟨horder, hmoved, hdefined⟩
  | wait => exact ⟨horder, hkeep (by simp), hdefined⟩
  | lockConsumer => exact ⟨horder, hkeep (by simp), hdefined⟩
  | @empty c hc hitems =>
    refine absurd hitems (hn.items_ne_nil (c := c) ?_)
    rcases hc with hc | ⟨a, hc⟩ <;> rw [hc] <;> rfl
  | @front c a rest hc hitems =>
    refine ⟨horder, fun d b hd => ?_, hdefined⟩
    by_cases hdc : d = c
    · subst hdc
      change Function.update s.consumers d _ d = _ at hd
      rw [Function.update_self] at hd
      cases hd
      show s.items.head? = some a
      rw [hitems]
      rfl
    · change Function.update s.consumers c _ d = _ at hd
      rw [Function.update_of_ne hdc] at hd
      exact hmoved d b hd
  | @pop c a b rest hc hitems =>
    obtain rfl : b = a := by
      have := hmoved c a hc
      rw [hitems] at this
      simpa using this
    refine ⟨?_, fun d e hd => ?_, hdefined⟩
    · show s.pushed = (s.popped ++ [(c, b)]).map (·.2) ++ rest
      rw [horder, hitems, List.map_append, List.append_assoc]
      rfl
    · -- no other consumer is at its pop: both would hold the mutex
      change Function.update s.consumers c _ d = _ at hd
      by_cases hdc : d = c
      · subst hdc
        rw [Function.update_self] at hd
        cases hd
      · rw [Function.update_of_ne hdc] at hd
        have hboth : (Sum.inr d : P ⊕ C) = .inr c :=
          hx.eq (by simp [State.inside, hd, Consumer.inside])
            (by simp [State.inside, hc, Consumer.inside])
        exact absurd (Sum.inr.inj hboth) hdc
  | unlockConsumer => exact ⟨horder, hkeep (by simp), hdefined⟩
  | again => exact ⟨horder, hkeep (by simp), hdefined⟩

/-! ## Runs -/

/-- What holds of a queue in every state of its runs. -/
structure Sound (s : State P C α) : Prop where
  exclusive : Exclusive s
  counted : Counted s
  ordered : Ordered s

omit [DecidableEq P] [DecidableEq C] in
/-- A queue that nobody has used yet is sound where its semaphore is 0, whatever its mutex. -/
theorem sound_start (mutex : Mutex) : Sound ({ mutex, count := 0 } : State P C α) where
  exclusive := ⟨none, fun h => absurd rfl h, by simp [Producer.inside], by simp [Consumer.inside]⟩
  counted := by simp [Counted, State.granted, State.owed, Consumer.granted, Producer.owed]
  ordered := ⟨rfl, by simp, by simp⟩

/-- **Every state reached from a sound one is sound.** -/
theorem Sound.reachable {top : Nat} {s₀ s : State P C α} (h₀ : Sound s₀)
    (h : (system top s₀).Reachable s) : Sound s := by
  refine h.invariant (I := Sound) ?_ ?_
  · rintro s rfl
    exact h₀
  · intro s t l hs hstep
    have hcan := Step.of_step hstep
    exact ⟨hs.exclusive.step hcan, hs.counted.step hcan,
      hs.ordered.step hs.exclusive hs.counted hcan⟩

end Holchain.Lib.SemQueue
