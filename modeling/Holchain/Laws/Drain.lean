import Mathlib.Algebra.BigOperators.Ring.Finset
import Mathlib.Tactic.Linarith
import Mathlib.Tactic.Ring
import Holchain.Lib.Progress
import Holchain.Laws.Pipeline

/-!
# Laws.Drain — the threads come to rest

A request is at one of eleven stages before it is answered. A step of a thread takes one request from
its stage to the next one (`weigh_step`), and `accept` lets one in at the first (`weigh_accept`). So
without new requests the daemon takes a number of steps that does not depend on their order, at most
eleven for each request that is not answered yet, and then all of them are (`requests_drain`).
-/

namespace Holchain.Holper.Pipeline

open Lib (System)
open Lib.System (Drains)
open WorkPoolWorker (mutePlatform muteRoot)

variable {P : Platform} {root : Command} {clients : Clients P} {workers : ℕ} {s t : State workers}
  {l : Label workers}

/-! ## Stages -/

/-- What a thread holds, with a weight for each of its two stages. -/
def Handler.weigh {α β : Type} (handling sending : ℕ) : Handler α β → ℕ
  | .waiting => 0
  | .handling _ => handling
  | .sending _ => sending

/-- All requests, each with the weight of its stage. Those of the last stage are answered. -/
def State.weigh (w : ℕ → ℕ) (s : State workers) : ℕ :=
  w 0 * s.server.toList.length + w 1 * s.resolverBox.messages.length + s.resolver.weigh (w 2) (w 3)
    + w 4 * s.workPoolBox.messages.length + w 5 * s.workPool.toList.length
    + w 6 * s.works.messages.length + ∑ i, (s.worker i).weigh (w 7) (w 8)
    + w 9 * s.responderBox.messages.length + w 10 * s.responder.toList.length
    + w 11 * s.written.length

/-- The stage from which a step takes a request to the next one. -/
def Label.stage : Label workers → ℕ
  | .accept _ | .serverSend => 0
  | .resolverReceive => 1
  | .resolverHandle => 2
  | .resolverSend => 3
  | .workPoolReceive => 4
  | .workPoolHandle => 5
  | .workerReceive _ => 6
  | .workerHandle _ => 7
  | .workerSend _ => 8
  | .responderReceive => 9
  | .responderHandle _ => 10

/-- A weight goes from one stage to the next. -/
def Advances (w : ℕ → ℕ) (stage : ℕ) (s t : State workers) : Prop :=
  t.weigh w + w stage = s.weigh w + w (stage + 1)

/-- A mailbox that takes a message has it at its end. -/
theorem send_alive {α : Type} {msg : α} {box : Mailbox α} {sent : Mailbox α → State workers}
    (h : (s.send msg box sent).terminated = false) :
    ∃ semaphore, s.send msg box sent = sent ⟨box.messages ++ [msg], semaphore⟩ := by
  unfold State.send Mailbox.sendMessage at h ⊢
  split
  · rename_i box' hbox
    split at hbox
    · cases hbox
      exact ⟨_, rfl⟩
    · cases hbox
  · rename_i hbox
    rw [hbox] at h
    cases h

/-- What a worker has weighs in the place of what it had. -/
theorem sum_worker (s : State workers) (i : Fin workers) (handler : Handler Work ResponderArgs)
    (a b : ℕ) : ∑ j, (Function.update s.worker i handler j).weigh a b + (s.worker i).weigh a b
      = ∑ j, (s.worker j).weigh a b + handler.weigh a b :=
  Lib.sum_update (Handler.weigh a b) s.worker i handler

/-- **A step takes one request to its next stage**, where the process goes on after it. -/
theorem weigh_step (w : ℕ → ℕ) (h : Inv P root clients s) (ht : t.terminated = false)
    (hl : ¬ l.isAccept) (hstep : s.step P root clients.payload l = some t) :
    Advances w l.stage s t := by
  unfold State.step at hstep
  rw [h.live.alive, if_neg Bool.false_ne_true] at hstep
  unfold Advances State.weigh
  cases l with
  | accept socket => exact absurd trivial hl
  | serverSend =>
    obtain ⟨request, hserver, rfl⟩ := Option.map_eq_some_iff.mp hstep
    obtain ⟨n, hsent⟩ := send_alive ht
    rw [hsent]
    simp only [hserver, Label.stage, Option.toList_some, Option.toList_none, List.length_append,
      List.length_singleton, List.length_nil]
    ring
  | resolverReceive =>
    dsimp only [State.resolverReceive] at hstep
    split at hstep
    · rename_i hresolver
      obtain ⟨request, rest, hbox, rfl⟩ := receive_even h.live.resolverBox hstep
      simp only [hresolver, hbox, Label.stage, Handler.weigh, List.length_cons]
      ring
    · cases hstep
  | resolverHandle =>
    dsimp only at hstep
    split at hstep
    · rename_i request hresolver
      simp only [State.resolverHandle, hresolver] at hstep
      split at hstep
      · cases hstep
        simp only [hresolver, Label.stage, Handler.weigh]
        ring
      · cases hstep
        cases ht
    · cases hstep
  | resolverSend =>
    dsimp only [State.resolverSend] at hstep
    split at hstep
    · rename_i work hresolver
      cases hstep
      obtain ⟨n, hsent⟩ := send_alive ht
      rw [hsent]
      simp only [hresolver, Label.stage, Handler.weigh, List.length_append, List.length_singleton]
      ring
    · cases hstep
  | workPoolReceive =>
    dsimp only [State.workPoolReceive] at hstep
    split at hstep
    · rename_i hpool
      obtain ⟨work, rest, hbox, rfl⟩ := receive_even h.live.workPoolBox hstep
      simp only [hpool, hbox, Label.stage, Option.toList_some, Option.toList_none, List.length_cons,
        List.length_nil]
      ring
    · cases hstep
  | workPoolHandle =>
    obtain ⟨work, hpool, rfl⟩ := Option.map_eq_some_iff.mp hstep
    simp only [hpool, Mailbox.push, Label.stage, Option.toList_some, Option.toList_none,
      List.length_append, List.length_singleton, List.length_nil]
    ring
  | workerReceive i =>
    dsimp only [State.workerReceive] at hstep
    split at hstep
    · rename_i hworker
      obtain ⟨work, rest, hbox, rfl⟩ := receive_even h.live.works hstep
      have hsum := sum_worker s i (.handling work) (w 7) (w 8)
      rw [hworker] at hsum
      simp only [hbox, Label.stage, Handler.weigh, List.length_cons] at hsum ⊢
      rw [Nat.add_zero] at hsum
      rw [hsum]
      ring
    · cases hstep
  | workerHandle i =>
    dsimp only [State.workerHandle] at hstep
    split at hstep
    · rename_i work hworker
      split at hstep
      · rename_i result code hresult
        cases hstep
        have hsum := sum_worker s i
          (.sending (Resolver.sendToResponder work.finish { work, result, code })) (w 7) (w 8)
        rw [hworker] at hsum
        simp only [Label.stage, Handler.weigh] at hsum ⊢
        linarith only [hsum]
      · cases hstep
        cases ht
    · cases hstep
  | workerSend i =>
    dsimp only [State.workerSend] at hstep
    split at hstep
    · rename_i args hworker
      cases hstep
      obtain ⟨n, hsent⟩ := send_alive ht
      rw [hsent]
      have hsum := sum_worker s i .waiting (w 7) (w 8)
      rw [hworker] at hsum
      simp only [Label.stage, Handler.weigh, List.length_append, List.length_singleton] at hsum ⊢
      linarith only [hsum]
    · cases hstep
  | responderReceive =>
    dsimp only [State.responderReceive] at hstep
    split at hstep
    · rename_i hresponder
      obtain ⟨args, rest, hbox, rfl⟩ := receive_even h.live.responderBox hstep
      simp only [hresponder, hbox, Label.stage, Option.toList_some, Option.toList_none,
        List.length_cons, List.length_nil]
      ring
    · cases hstep
  | responderHandle profile =>
    obtain ⟨args, hresponder, rfl⟩ := Option.map_eq_some_iff.mp hstep
    simp only [hresponder, Label.stage, Option.toList_some, Option.toList_none, List.length_append,
      List.length_singleton, List.length_nil]
    ring

/-- `accept` lets a request in at the first stage. -/
theorem weigh_accept (w : ℕ → ℕ) {socket : ℕ} (hstep : s.accept socket = some t) :
    t.weigh w = s.weigh w + w 0 ∧ t.accepted.length = s.accepted.length + 1 := by
  unfold State.accept at hstep
  split at hstep
  · rename_i hfree
    cases hstep
    have hserver : s.server = none := Option.isNone_iff_eq_none.mp hfree.1
    refine ⟨?_, by rw [List.length_append, List.length_singleton]⟩
    simp only [State.weigh, hserver, Option.toList_some, Option.toList_none, List.length_singleton,
      List.length_nil]
    ring
  · cases hstep

/-- A step of a thread hands a request over. -/
theorem handsOver_of_step (h : Inv P root clients s) (hl : ¬ l.isAccept)
    (hstep : s.step P root clients.payload l = some t) : HandsOver P root clients s t := by
  unfold State.step at hstep
  rw [h.live.alive, if_neg Bool.false_ne_true] at hstep
  cases l with
  | accept socket => exact absurd trivial hl
  | serverSend => exact serverSend_handsOver h hstep
  | resolverReceive => exact resolverReceive_handsOver h hstep
  | resolverHandle =>
    dsimp only at hstep
    split at hstep
    · exact resolverHandle_handsOver h ‹_› hstep
    · cases hstep
  | resolverSend => exact resolverSend_handsOver h hstep
  | workPoolReceive => exact workPoolReceive_handsOver h hstep
  | workPoolHandle => exact workPoolHandle_handsOver h hstep
  | workerReceive i => exact workerReceive_handsOver h hstep
  | workerHandle i => exact workerHandle_handsOver h hstep
  | workerSend i => exact workerSend_handsOver h hstep
  | responderReceive => exact responderReceive_handsOver h hstep
  | responderHandle profile => exact responderHandle_handsOver h hstep

/-- **Every accepted request is at one stage.** -/
theorem weigh_one (h : (system P root clients.payload workers).Reachable s) :
    s.weigh (fun _ => 1) = s.accepted.length := by
  refine (h.invariant (I := fun s => Inv P root clients s
    ∧ s.weigh (fun _ => 1) = s.accepted.length) ?_ ?_).2
  · rintro s rfl
    refine ⟨inv_start, ?_⟩
    simp [State.weigh, Handler.weigh]
  · intro s t l hs hstep
    refine ⟨hs.1.step hstep, ?_⟩
    by_cases hl : l.isAccept
    · cases l with
      | accept socket =>
        have haccept : s.accept socket = some t := by
          have hstep : s.step P root clients.payload (.accept socket) = some t := hstep
          rwa [State.step, hs.1.live.alive, if_neg Bool.false_ne_true] at hstep
        obtain ⟨hweigh, hlength⟩ := weigh_accept (fun _ => 1) haccept
        rw [hweigh, hlength, hs.2]
      | _ => exact absurd hl id
    · have hhands := handsOver_of_step hs.1 hl hstep
      have hadvances := weigh_step (fun _ => 1) hs.1 hhands.live.alive hl hstep
      rw [hhands.accepted, ← hs.2]
      exact Nat.add_right_cancel hadvances

/-! ## Rest -/

/-- The steps that are left before every request is answered. -/
def State.remaining (s : State workers) : ℕ := s.weigh (11 - ·)

theorem weigh_le (a b : ℕ) (h : a ≤ 11) (h' : b ≤ 11) {α β : Type} (handler : Handler α β) :
    handler.weigh a b ≤ 11 * handler.weigh 1 1 := by
  cases handler with
  | waiting => exact Nat.le_refl 0
  | handling msg => exact h
  | sending msg => exact h'

/-- At most eleven for each request that is not answered. -/
theorem remaining_le (s : State workers) :
    s.remaining + 11 * s.written.length ≤ 11 * s.weigh (fun _ => 1) := by
  have hresolver := weigh_le 9 8 (by decide) (by decide) s.resolver
  have hworkers : ∑ i, (s.worker i).weigh 4 3 ≤ 11 * ∑ i, (s.worker i).weigh 1 1 := by
    rw [Finset.mul_sum]
    exact Finset.sum_le_sum fun i _ => weigh_le 4 3 (by decide) (by decide) (s.worker i)
  simp only [State.remaining, State.weigh, Nat.reduceSub]
  omega

/-- Where no thread has anything, nothing is left to do. -/
theorem remaining_of_held (h : ∀ p, p ≠ .answered → s.held p = []) : s.remaining = 0 := by
  have hempty {p : Place workers} (hp : p ≠ .answered) : (s.held p).length = 0 := by
    rw [h p hp, List.length_nil]
  have hhandler {α β : Type} {a : α → Item} {b : β → Item} {handler : Handler α β}
      (hitems : handler.items a b = []) (m n : ℕ) : handler.weigh m n = 0 := by
    cases handler with
    | waiting => rfl
    | _ => cases hitems
  have hserver := hempty (p := .server) nofun
  have hresolverBox := hempty (p := .resolverBox) nofun
  have hresolver := hhandler (h .resolver nofun) 9 8
  have hworkPoolBox := hempty (p := .workPoolBox) nofun
  have hworkPool := hempty (p := .workPool) nofun
  have hworks := hempty (p := .works) nofun
  have hworkers : ∑ i, (s.worker i).weigh 4 3 = 0 :=
    Finset.sum_eq_zero fun i _ => hhandler (h (.worker i) nofun) 4 3
  have hresponderBox := hempty (p := .responderBox) nofun
  have hresponder := hempty (p := .responder) nofun
  simp only [State.held, List.length_map] at hserver hresolverBox hworkPoolBox hworkPool hworks
  simp only [State.held, List.length_map] at hresponderBox hresponder
  simp only [State.remaining, State.weigh, Nat.reduceSub]
  omega

/-- **The daemon drains**, where it has a worker. -/
theorem drains (P : Platform) (root : Command) (clients : Clients P) (hworkers : 0 < workers) :
    (system P root clients.payload workers).Drains Label.isAccept (Inv P root clients)
      State.remaining where
  keep h _ hstep := h.step hstep
  spend {s t l} h hl hstep := by
    have hadvances : t.weigh (11 - ·) + (11 - l.stage) = s.weigh (11 - ·) + (11 - (l.stage + 1)) :=
      weigh_step (11 - ·) h (handsOver_of_step h hl hstep).live.alive hl hstep
    have hstage : l.stage ≤ 10 := by
      cases l <;> exact Nat.le_of_ble_eq_true rfl
    unfold State.remaining
    omega
  enabled {s} h hremaining := by
    refine Classical.byContradiction fun hnone => hremaining (remaining_of_held ?_)
    refine held_of_quiescent h hworkers fun l hl => ?_
    cases hstep : (system P root clients.payload workers).step s l with
    | none => rfl
    | some t => exact absurd ⟨l, t, hl, hstep⟩ hnone

/-- **The daemon answers every request, in whichever order its threads take their steps.** In every
state that is reached there is a number of steps, at most eleven for each request not answered yet,
such that without a new request no run is longer, a run that is shorter can be continued, and a run
has answered every request just when it has this length. -/
theorem requests_drain (P : Platform) (root : Command) (clients : Clients P) {workers : ℕ}
    (hworkers : 0 < workers) {s : State workers}
    (h : (system P root clients.payload workers).Reachable s) :
    ∃ n ≤ 11 * (s.accepted.length - s.written.length),
      ∀ (ls : List (Label workers)) (t : State workers), (∀ l ∈ ls, ¬ l.isAccept) →
        (system P root clients.payload workers).run s ls = some t →
          ls.length ≤ n
          ∧ (ls.length = n ↔
            ∀ id socket, (id, socket) ∈ s.accepted → socket ∈ t.written.map (·.1))
          ∧ (ls.length < n → ∃ l u, ¬ l.isAccept
            ∧ (system P root clients.payload workers).step t l = some u) := by
  have hinv := Inv.reachable h
  have hdrains := drains P root clients hworkers
  refine ⟨s.remaining, ?_, fun ls t hls hrun => ?_⟩
  · have hle := remaining_le s
    rw [weigh_one h] at hle
    omega
  obtain ⟨ht, hlength⟩ := hdrains.run_length hinv hls hrun
  have haccepted : t.accepted = s.accepted := by
    refine System.run_preserves (I := fun u => Inv P root clients u ∧ u.accepted = s.accepted)
      (fun l hl u v hu hstep => ?_) ⟨hinv, rfl⟩ hrun |>.2
    exact ⟨hu.1.step hstep, (handsOver_of_step hu.1 (hls l hl) hstep).accepted.trans hu.2⟩
  refine ⟨by omega, ?_, fun hlt => hdrains.enabled ht (by omega)⟩
  have hrest : ls.length = s.remaining ↔ t.remaining = 0 := by omega
  rw [hrest]
  constructor
  · intro hzero id socket hin
    have hquiet := (hdrains.quiescent_iff ht).mpr hzero
    rw [← haccepted] at hin
    exact ht.answered_of_quiescent hworkers hquiet (List.mem_map.mpr ⟨_, hin, rfl⟩)
  · intro hanswered
    refine remaining_of_held fun p hp => ?_
    cases hheld : t.held p with
    | nil => rfl
    | cons x rest =>
      have hmem : x.socket ∈ t.sockets p := by
        rw [State.sockets, hheld]
        exact List.mem_cons_self
      have hin := ht.mem_accepted hmem
      obtain ⟨q, hq, hother⟩ := ht.once hin
      have hpq : p = q := Classical.byContradiction fun hne => hother p hne hmem
      rw [haccepted] at hin
      obtain ⟨⟨id, socket⟩, haccepted', rfl : socket = x.socket⟩ := List.mem_map.mp hin
      have hwritten := hanswered id x.socket haccepted'
      rw [← sockets_answered] at hwritten
      exact absurd hwritten (hother .answered fun heq => hp (hpq.trans heq.symm))

/-- The request of socket 7 is eleven steps from its answer. -/
theorem requests_drain_mute :
    ∃ n ≤ 11, ∀ (ls : List (Label 1)) (t : State 1), (∀ l ∈ ls, ¬ l.isAccept) →
      (system mutePlatform muteRoot muteClients.payload 1).run
          { idCounter := 1, server := some { id := 1, socket := 7 }, accepted := [(1, 7)] } ls
        = some t →
      ls.length ≤ n
        ∧ (ls.length = n ↔ ∀ id socket, (id, socket) ∈ [((1 : Int), 7)] →
          socket ∈ t.written.map (·.1))
        ∧ (ls.length < n → ∃ l u, ¬ l.isAccept
          ∧ (system mutePlatform muteRoot muteClients.payload 1).step t l = some u) :=
  requests_drain mutePlatform muteRoot muteClients Nat.one_pos
    (.step (l := .accept 7) (.init rfl) trivial rfl)

end Holchain.Holper.Pipeline
