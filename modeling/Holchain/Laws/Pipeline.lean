import Mathlib.Tactic.DeriveFintype
import Holchain.Lib.Custody
import Holchain.Laws.Worker
import Holchain.Holper.Pipeline

/-!
# Laws.Pipeline — every request is answered, once, with its own response

A request is followed through its places by its socket, which it keeps in every form it takes
(`Item`). Each step but an accept hands one item on, whole (`HandsOver`); so every accepted
request is in exactly one place (`Lib.Custody.Conserved.once`), and every item is what its own
payload makes of it (`Good`).
-/

namespace Holchain.Holper.Pipeline

open Lib.Custody (Move Conserved)
open Resolver (Content Reads workOf)

/-- What the clients send: payloads of the client's format. -/
structure Clients (P : Platform) where
  payload : Nat → Bytes
  content : Nat → Content
  reads : ∀ socket, Reads (Resolver.document P (payload socket)) (content socket)

/-- The forms of a request. -/
inductive Item where
  | request (r : Request)
  | work (w : Work)
  | args (a : ResponderArgs)
  | response (socket : Nat) (text : Message)

/-- The socket of a request. -/
def Item.socket : Item → Nat
  | .request r => r.socket
  | .work w => w.finish.socket
  | .args a => a.request.socket
  | .response socket _ => socket

/-- Where a request can be. -/
inductive Place (workers : Nat) where
  | server
  | resolverBox
  | resolver
  | workPoolBox
  | workPool
  | works
  | worker (i : Fin workers)
  | responderBox
  | responder
  | answered
  deriving DecidableEq, Fintype

/-- What a thread holds. -/
def Handler.items {α β : Type} (a : α → Item) (b : β → Item) : Handler α β → List Item
  | .waiting => []
  | .handling msg => [a msg]
  | .sending msg => [b msg]

variable {P : Platform} {root : Command} {clients : Clients P} {workers : Nat}

/-- What is in each place. -/
def State.held (s : State workers) : Place workers → List Item
  | .server => s.server.toList.map .request
  | .resolverBox => s.resolverBox.messages.map .request
  | .resolver => s.resolver.items .request .work
  | .workPoolBox => s.workPoolBox.messages.map .work
  | .workPool => s.workPool.toList.map .work
  | .works => s.works.messages.map .work
  | .worker i => (s.worker i).items .work .args
  | .responderBox => s.responderBox.messages.map .args
  | .responder => s.responder.toList.map .args
  | .answered => s.written.map fun (socket, text) => .response socket text

/-- The members of a response. -/
def responseMembers (id : Int) (verbose : Bool) (response : Json) (code : Int) (profile : Json) :
    List (Bytes × Json) :=
  [(lit "response", response), (lit "code", .int code)]
    ++ (if verbose then [(lit "profiler", profile)] else []) ++ [(lit "id", .int id)]

/-- The response and the code of a request are what `runSingle` yields for the command and the
parameters of its own payload. -/
def Yields (P : Platform) (root : Command) (clients : Clients P) (id : Int) (socket : Nat)
    (response : Json) (code : Int) : Prop :=
  ∃ runs, WorkPoolWorker.result P (workOf root { id, socket } (clients.content socket))
    = (.ok (response, code), runs)

/-- An item is what the payload of an accepted request makes of it. -/
def Good (P : Platform) (root : Command) (clients : Clients P) (accepted : List (Int × Nat)) :
    Item → Prop
  | .request r => (r.id, r.socket) ∈ accepted ∧ r = { id := r.id, socket := r.socket }
  | .work w => ∃ id socket, (id, socket) ∈ accepted
      ∧ w = workOf root { id, socket } (clients.content socket)
  | .args a => ∃ id socket, (id, socket) ∈ accepted
      ∧ a.request = { id, socket, verbose := (clients.content socket).verbose }
      ∧ Yields P root clients id socket a.response a.code
  | .response socket text => ∃ id response code profile, (id, socket) ∈ accepted
      ∧ Yields P root clients id socket response code
      ∧ text = P.write (.object
        (responseMembers id (clients.content socket).verbose response code profile))

/-- A good item stays good when more requests are accepted. -/
theorem Good.append {accepted : List (Int × Nat)} {x : Item} (h : Good P root clients accepted x)
    (more : List (Int × Nat)) : Good P root clients (accepted ++ more) x := by
  cases x with
  | request r => exact ⟨List.mem_append_left _ h.1, h.2⟩
  | work w =>
    obtain ⟨id, socket, hin, hrest⟩ := h
    exact ⟨id, socket, List.mem_append_left _ hin, hrest⟩
  | args a =>
    obtain ⟨id, socket, hin, hrest⟩ := h
    exact ⟨id, socket, List.mem_append_left _ hin, hrest⟩
  | response socket text =>
    obtain ⟨id, response, code, profile, hin, hrest⟩ := h
    exact ⟨id, response, code, profile, List.mem_append_left _ hin, hrest⟩

/-- The semaphore counts the messages. -/
def Mailbox.Even {α : Type} (box : Mailbox α) : Prop := box.semaphore = box.messages.length

/-- The process runs, and its semaphores are right. -/
structure Live (s : State workers) : Prop where
  alive : s.terminated = false
  resolverBox : s.resolverBox.Even
  workPoolBox : s.workPoolBox.Even
  works : s.works.Even
  responderBox : s.responderBox.Even

/-- What holds in every state of every run. -/
structure Inv (P : Platform) (root : Command) (clients : Clients P) (s : State workers) :
    Prop where
  live : Live s
  fresh : (s.accepted.map (·.2)).Nodup
  bounded : s.accepted.length < 2 ^ 31
  conserved : Conserved Item.socket s.held (s.accepted.map (·.2))
  good : ∀ p, ∀ x ∈ s.held p, Good P root clients s.accepted x

/-- What every step but an accept does. -/
structure HandsOver (P : Platform) (root : Command) (clients : Clients P) (s t : State workers) :
    Prop where
  live : Live t
  accepted : t.accepted = s.accepted
  custody : ∃ y, Move Item.socket s.held y t.held [] ∧ Good P root clients s.accepted y

/-- **A hand-over keeps the invariant.** -/
theorem Inv.handsOver {s t : State workers} (h : Inv P root clients s)
    (hstep : HandsOver P root clients s t) : Inv P root clients t := by
  obtain ⟨hlive, haccepted, y, hmove, hy⟩ := hstep
  refine ⟨hlive, by rw [haccepted]; exact h.fresh, by rw [haccepted]; exact h.bounded, ?_, ?_⟩
  · have := h.conserved.step hmove
    rwa [List.append_nil, ← haccepted] at this
  · rw [haccepted]
    exact hmove.all h.good hy

/-! ## Mailboxes -/

/-- Nothing is thrown where the semaphore counts fewer messages than it can. -/
theorem sendMessage_even {α : Type} {box : Mailbox α} (h : box.Even) {msg : α}
    (hlen : box.messages.length < WorkPool.semValueMax) :
    box.sendMessage msg
      = some { messages := box.messages ++ [msg], semaphore := box.messages.length + 1 } := by
  unfold Mailbox.Even at h
  rw [Mailbox.sendMessage, h, if_pos hlen]

theorem push_even {α : Type} {box : Mailbox α} (h : box.Even) {msg : α}
    (hlen : box.messages.length < WorkPool.semValueMax) : (box.push msg).Even := by
  unfold Mailbox.Even at h ⊢
  simp only [Mailbox.push, h, List.length_append, List.length_singleton]
  omega

/-- A thread that does not block on a right semaphore gets the first message. -/
theorem receive_even {α : Type} {s t : State workers} {box : Mailbox α} (h : box.Even)
    {received : α → Mailbox α → State workers} (hstep : s.receive box received = some t) :
    ∃ msg rest, box.messages = msg :: rest
      ∧ t = received msg { messages := rest, semaphore := rest.length } := by
  unfold Mailbox.Even at h
  unfold State.receive Mailbox.receive at hstep
  rw [h] at hstep
  cases hbox : box.messages with
  | nil => simp [hbox] at hstep
  | cons msg rest =>
    rw [hbox] at hstep
    simp only [List.length_cons, Nat.add_eq_zero_iff, Nat.succ_ne_self, and_false, if_false,
      Nat.add_sub_cancel, Option.some.injEq] at hstep
    exact ⟨msg, rest, rfl, hstep.symm⟩

/-- There is room for another message while someone holds one. -/
theorem Inv.room {s : State workers} (h : Inv P root clients s) {p q : Place workers}
    (hne : p ≠ q) {x : Item} (hp : s.held p = [x]) :
    (s.held q).length < WorkPool.semValueMax := by
  have := h.conserved.length_add_le hne
  have hbound := h.bounded
  rw [hp, List.length_singleton, List.length_map] at this
  unfold WorkPool.semValueMax
  omega

/-! ## Hand-overs -/

/-- The first item of a place goes to the end of another one. -/
theorem HandsOver.move {s t : State workers} {p q : Place workers} {x y : Item}
    {rest : List Item} (hp : s.held p = x :: rest) (hne : p ≠ q) (hxy : y.socket = x.socket)
    (hy : Good P root clients s.accepted y) (hlive : Live t) (haccepted : t.accepted = s.accepted)
    (ht : t.held = Function.update (Function.update s.held p rest) q (s.held q ++ [y])) :
    HandsOver P root clients s t :=
  ⟨hlive, haccepted, y, ht ▸ .move hne hp hxy, hy⟩

/-- The item of a place becomes another one. -/
theorem HandsOver.change {s t : State workers} {p : Place workers} {x y : Item}
    {rest : List Item} (hp : s.held p = x :: rest) (hxy : y.socket = x.socket)
    (hy : Good P root clients s.accepted y) (hlive : Live t) (haccepted : t.accepted = s.accepted)
    (ht : t.held = Function.update s.held p (y :: rest)) : HandsOver P root clients s t :=
  ⟨hlive, haccepted, y, ht ▸ .change hp hxy, hy⟩

/-- The first item of a place is good. -/
theorem Inv.good_head {s : State workers} (h : Inv P root clients s) {p : Place workers}
    {x : Item} {rest : List Item} (hp : s.held p = x :: rest) :
    Good P root clients s.accepted x :=
  h.good p x (by rw [hp]; exact List.mem_cons_self)

variable {s t : State workers}

/-- What a worker has is at one place. -/
theorem held_worker (s : State workers) (i : Fin workers) (handler : Handler Work ResponderArgs) :
    State.held { s with worker := Function.update s.worker i handler } =
      Function.update s.held (.worker i) (handler.items .work .args) := by
  funext p
  cases p with
  | worker j =>
    by_cases hj : j = i
    · subst hj
      simp [State.held]
    · simp [State.held, hj]
  | _ => simp [State.held]

theorem serverSend_handsOver (h : Inv P root clients s) (hstep : s.serverSend = some t) :
    HandsOver P root clients s t := by
  obtain ⟨request, hserver, rfl⟩ := Option.map_eq_some_iff.mp hstep
  have hheld : s.held .server = [.request request] := by simp [State.held, hserver]
  have hroom := h.room (q := .resolverBox) (by simp) hheld
  rw [State.held, List.length_map] at hroom
  rw [State.send, sendMessage_even h.live.resolverBox hroom]
  refine HandsOver.move hheld (q := .resolverBox) (by simp) rfl (h.good_head hheld)
    ⟨h.live.alive, by simp [Mailbox.Even], h.live.workPoolBox, h.live.works,
      h.live.responderBox⟩ rfl ?_
  funext p
  cases p <;> simp [State.held]

theorem resolverReceive_handsOver (h : Inv P root clients s) (hstep : s.resolverReceive = some t) :
    HandsOver P root clients s t := by
  unfold State.resolverReceive at hstep
  split at hstep
  · rename_i hresolver
    obtain ⟨request, rest, hbox, rfl⟩ := receive_even h.live.resolverBox hstep
    have hheld : s.held .resolverBox = .request request :: rest.map .request := by
      simp [State.held, hbox]
    refine HandsOver.move hheld (q := .resolver) (by simp) rfl (h.good_head hheld)
      ⟨h.live.alive, rfl, h.live.workPoolBox, h.live.works, h.live.responderBox⟩ rfl ?_
    funext p
    cases p <;> simp [State.held, Handler.items, hresolver]
  · cases hstep

/-- The Resolver's handler, where the payload is the one the request's client has sent. -/
theorem resolverHandle_handsOver (h : Inv P root clients s) {request : Request}
    (hresolver : s.resolver = .handling request)
    (hstep : s.resolverHandle P root (clients.payload request.socket) = some t) :
    HandsOver P root clients s t := by
  have hheld : s.held .resolver = [.request request] := by
    simp [State.held, Handler.items, hresolver]
  obtain ⟨haccepted, hrequest⟩ := h.good_head hheld
  have hwork : Resolver.handleMessage P root request (clients.payload request.socket)
      = .ok [.work (workOf root request (clients.content request.socket))] :=
    Resolver.handleMessage_eq_ok.mpr ⟨_, clients.reads _, rfl⟩
  unfold State.resolverHandle at hstep
  simp only [hresolver, hwork, Option.some.injEq] at hstep
  subst hstep
  refine HandsOver.change hheld (y := .work _) rfl ⟨_, _, haccepted, by rw [← hrequest]⟩
    ⟨h.live.alive, h.live.resolverBox, h.live.workPoolBox, h.live.works, h.live.responderBox⟩
    rfl ?_
  funext p
  cases p <;> simp [State.held, Handler.items]

theorem resolverSend_handsOver (h : Inv P root clients s) (hstep : s.resolverSend = some t) :
    HandsOver P root clients s t := by
  unfold State.resolverSend at hstep
  split at hstep
  · rename_i work hresolver
    cases hstep
    have hheld : s.held .resolver = [.work work] := by
      simp [State.held, Handler.items, hresolver]
    have hroom := h.room (q := .workPoolBox) (by simp) hheld
    rw [State.held, List.length_map] at hroom
    rw [State.send, sendMessage_even h.live.workPoolBox hroom]
    refine HandsOver.move hheld (q := .workPoolBox) (by simp) rfl (h.good_head hheld)
      ⟨h.live.alive, h.live.resolverBox, by simp [Mailbox.Even], h.live.works,
        h.live.responderBox⟩ rfl ?_
    funext p
    cases p <;> simp [State.held, Handler.items]
  · cases hstep

theorem workPoolReceive_handsOver (h : Inv P root clients s) (hstep : s.workPoolReceive = some t) :
    HandsOver P root clients s t := by
  unfold State.workPoolReceive at hstep
  split at hstep
  · rename_i hpool
    obtain ⟨work, rest, hbox, rfl⟩ := receive_even h.live.workPoolBox hstep
    have hheld : s.held .workPoolBox = .work work :: rest.map .work := by
      simp [State.held, hbox]
    refine HandsOver.move hheld (q := .workPool) (by simp) rfl (h.good_head hheld)
      ⟨h.live.alive, h.live.resolverBox, rfl, h.live.works, h.live.responderBox⟩ rfl ?_
    funext p
    cases p <;> simp [State.held, hpool]
  · cases hstep

theorem workPoolHandle_handsOver (h : Inv P root clients s) (hstep : s.workPoolHandle = some t) :
    HandsOver P root clients s t := by
  obtain ⟨work, hpool, rfl⟩ := Option.map_eq_some_iff.mp hstep
  have hheld : s.held .workPool = [.work work] := by simp [State.held, hpool]
  have hroom := h.room (q := .works) (by simp) hheld
  rw [State.held, List.length_map] at hroom
  refine HandsOver.move hheld (q := .works) (by simp) rfl (h.good_head hheld)
    ⟨h.live.alive, h.live.resolverBox, h.live.workPoolBox, push_even h.live.works hroom,
      h.live.responderBox⟩ rfl ?_
  funext p
  cases p <;> simp [State.held, Mailbox.push]

theorem workerReceive_handsOver (h : Inv P root clients s) {i : Fin workers}
    (hstep : s.workerReceive i = some t) : HandsOver P root clients s t := by
  unfold State.workerReceive at hstep
  split at hstep
  · rename_i hworker
    obtain ⟨work, rest, hbox, rfl⟩ := receive_even h.live.works hstep
    have hheld : s.held .works = .work work :: rest.map .work := by
      simp [State.held, hbox]
    have hwaiting : s.held (.worker i) = [] := by simp [State.held, Handler.items, hworker]
    refine HandsOver.move hheld (q := .worker i) (by simp) rfl (h.good_head hheld)
      ⟨h.live.alive, h.live.resolverBox, h.live.workPoolBox, rfl, h.live.responderBox⟩ rfl ?_
    refine (held_worker { s with works := ⟨rest, rest.length⟩ } i _).trans ?_
    rw [hwaiting]
    refine congrArg (Function.update · _ _) ?_
    funext p
    cases p <;> simp [State.held]
  · cases hstep

/-- `runSingle` yields a pair, and it is the one of the request's own payload. -/
theorem workerHandle_handsOver (h : Inv P root clients s) {i : Fin workers}
    (hstep : s.workerHandle P i = some t) : HandsOver P root clients s t := by
  unfold State.workerHandle at hstep
  split at hstep
  · rename_i work hworker
    have hheld : s.held (.worker i) = [.work work] := by
      simp [State.held, Handler.items, hworker]
    obtain ⟨id, socket, haccepted, hwork⟩ := h.good_head hheld
    obtain ⟨⟨result, code⟩, runs, hresult⟩ := WorkPoolWorker.result_ok P work
    simp only [hresult, Option.some.injEq] at hstep
    subst hstep
    refine HandsOver.change hheld
      (y := .args (Resolver.sendToResponder work.finish { work, result, code })) rfl
      ⟨id, socket, haccepted, by rw [hwork]; rfl, runs, by rw [← hwork]; exact hresult⟩
      ⟨h.live.alive, h.live.resolverBox, h.live.workPoolBox, h.live.works, h.live.responderBox⟩
      rfl ?_
    exact held_worker s i _
  · cases hstep

theorem workerSend_handsOver (h : Inv P root clients s) {i : Fin workers}
    (hstep : s.workerSend i = some t) : HandsOver P root clients s t := by
  unfold State.workerSend at hstep
  split at hstep
  · rename_i args hworker
    cases hstep
    have hheld : s.held (.worker i) = [.args args] := by
      simp [State.held, Handler.items, hworker]
    have hroom := h.room (q := .responderBox) (by simp) hheld
    rw [State.held, List.length_map] at hroom
    rw [State.send, sendMessage_even h.live.responderBox hroom]
    refine HandsOver.move hheld (q := .responderBox) (by simp) rfl (h.good_head hheld)
      ⟨h.live.alive, h.live.resolverBox, h.live.workPoolBox, h.live.works,
        by simp [Mailbox.Even]⟩ rfl ?_
    rw [Function.update_comm (by simp)]
    refine (held_worker { s with
      responderBox := ⟨s.responderBox.messages ++ [args], s.responderBox.messages.length + 1⟩ }
      i _).trans ?_
    refine congrArg (Function.update · _ _) ?_
    funext p
    cases p <;> simp [State.held]
  · cases hstep

theorem responderReceive_handsOver (h : Inv P root clients s)
    (hstep : s.responderReceive = some t) : HandsOver P root clients s t := by
  unfold State.responderReceive at hstep
  split at hstep
  · rename_i hresponder
    obtain ⟨args, rest, hbox, rfl⟩ := receive_even h.live.responderBox hstep
    have hheld : s.held .responderBox = .args args :: rest.map .args := by
      simp [State.held, hbox]
    refine HandsOver.move hheld (q := .responder) (by simp) rfl (h.good_head hheld)
      ⟨h.live.alive, h.live.resolverBox, h.live.workPoolBox, h.live.works, rfl⟩ rfl ?_
    funext p
    cases p <;> simp [State.held, hresponder]
  · cases hstep

/-- The members of the response are those of the request's own result. -/
theorem handleMessage_eq (P : Platform) (profile : Json) {args : ResponderArgs} {id : Int}
    {socket : Nat} {verbose : Bool} (h : args.request = { id, socket, verbose }) :
    Responder.handleMessage P profile args
      = P.write (.object (responseMembers id verbose args.response args.code profile)) := by
  cases verbose <;> simp [Responder.handleMessage, Request.sendResponse, Request.set, h,
    responseMembers]

theorem responderHandle_handsOver (h : Inv P root clients s) {profile : Json}
    (hstep : s.responderHandle P profile = some t) : HandsOver P root clients s t := by
  obtain ⟨args, hresponder, rfl⟩ := Option.map_eq_some_iff.mp hstep
  have hheld : s.held .responder = [.args args] := by simp [State.held, hresponder]
  obtain ⟨id, socket, haccepted, hrequest, hyields⟩ := h.good_head hheld
  refine HandsOver.move hheld (q := .answered)
    (y := .response args.request.socket (Responder.handleMessage P profile args)) (by simp) rfl
    ⟨id, _, _, profile, by rw [hrequest]; exact haccepted, by rw [hrequest]; exact hyields,
      by rw [handleMessage_eq P profile hrequest, hrequest]⟩
    ⟨h.live.alive, h.live.resolverBox, h.live.workPoolBox, h.live.works, h.live.responderBox⟩
    rfl ?_
  funext p
  cases p <;> simp [State.held]

/-! ## Runs -/

/-- An accept lets a request in for a socket not seen before. -/
theorem accept_inv (h : Inv P root clients s) {socket : Nat} (hstep : s.accept socket = some t) :
    Inv P root clients t := by
  unfold State.accept at hstep
  split at hstep
  · rename_i hfree
    obtain ⟨hserver, hfresh, hbounded⟩ := hfree
    cases hstep
    have hmove : Move Item.socket s.held (.request { id := s.idCounter + 1, socket })
        (State.held { s with
          idCounter := s.idCounter + 1
          server := some { id := s.idCounter + 1, socket }
          accepted := s.accepted ++ [(s.idCounter + 1, socket)] }) [socket] := by
      convert (Move.enter _ : Move Item.socket s.held (.request { id := s.idCounter + 1, socket })
        (Function.update s.held .server _) _) using 1
      · funext p
        cases p <;> simp [State.held, Option.isNone_iff_eq_none.mp hserver]
      · rfl
    refine ⟨⟨h.live.alive, h.live.resolverBox, h.live.workPoolBox, h.live.works,
      h.live.responderBox⟩, ?_, ?_, ?_, ?_⟩
    · rw [List.map_append, List.map_cons, List.map_nil, ← List.concat_eq_append]
      exact h.fresh.concat hfresh
    · simpa using hbounded
    · simpa using h.conserved.step hmove
    · exact hmove.all (fun p x hx => (h.good p x hx).append _) ⟨by simp, rfl⟩
  · cases hstep

/-- **One step keeps the invariant.** -/
theorem Inv.step (h : Inv P root clients s) {l : Label workers}
    (hstep : s.step P root clients.payload l = some t) : Inv P root clients t := by
  unfold State.step at hstep
  rw [h.live.alive] at hstep
  cases l with
  | accept socket => exact accept_inv h hstep
  | serverSend => exact h.handsOver (serverSend_handsOver h hstep)
  | resolverReceive => exact h.handsOver (resolverReceive_handsOver h hstep)
  | resolverHandle =>
    simp only [Bool.false_eq_true, if_false] at hstep
    split at hstep
    · exact h.handsOver (resolverHandle_handsOver h ‹_› hstep)
    · cases hstep
  | resolverSend => exact h.handsOver (resolverSend_handsOver h hstep)
  | workPoolReceive => exact h.handsOver (workPoolReceive_handsOver h hstep)
  | workPoolHandle => exact h.handsOver (workPoolHandle_handsOver h hstep)
  | workerReceive i => exact h.handsOver (workerReceive_handsOver h hstep)
  | workerHandle i => exact h.handsOver (workerHandle_handsOver h hstep)
  | workerSend i => exact h.handsOver (workerSend_handsOver h hstep)
  | responderReceive => exact h.handsOver (responderReceive_handsOver h hstep)
  | responderHandle profile => exact h.handsOver (responderHandle_handsOver h hstep)

theorem inv_start : Inv P root clients ({} : State workers) where
  live := ⟨rfl, rfl, rfl, rfl, rfl⟩
  fresh := List.nodup_nil
  bounded := by simp
  conserved := fun socket => by
    apply Finset.sum_eq_zero
    intro p _
    cases p <;> simp [State.held, Handler.items]
  good := fun p x hx => by cases p <;> simp [State.held, Handler.items] at hx

/-- **Every state of every run keeps the invariant.** -/
theorem Inv.reachable (h : (system P root clients.payload workers).Reachable s) :
    Inv P root clients s := by
  refine h.invariant (I := Inv P root clients) ?_ fun s t l hs => hs.step
  rintro s rfl
  exact inv_start

/-! ## Rest -/

/-- A thread that waits for a right semaphore and blocks has no message to take. -/
theorem messages_of_blocked {α : Type} {box : Mailbox α} (h : box.Even)
    {received : α → Mailbox α → State workers} (hblocked : s.receive box received = none) :
    box.messages = [] := by
  unfold Mailbox.Even at h
  unfold State.receive Mailbox.receive at hblocked
  rw [h] at hblocked
  cases hbox : box.messages with
  | nil => rfl
  | cons msg rest => simp [hbox] at hblocked

/-- **Where only an accept is possible, nothing is under way**, if there is a worker at all. -/
theorem held_of_quiescent (h : Inv P root clients s) (hworkers : 0 < workers)
    (hquiet : (system P root clients.payload workers).Quiescent Label.isAccept s) :
    ∀ p, p ≠ .answered → s.held p = [] := by
  have hstep (l : Label workers) (hl : ¬ l.isAccept) :
      s.step P root clients.payload l = none := hquiet l hl
  unfold State.step at hstep
  rw [h.live.alive] at hstep
  have hserver : s.server = none := Option.map_eq_none_iff.mp (hstep .serverSend id)
  have hresolver : s.resolver = .waiting := by
    cases hr : s.resolver with
    | waiting => rfl
    | handling request =>
      have := hstep .resolverHandle id
      simp only [Bool.false_eq_true, if_false, hr, State.resolverHandle] at this
      split at this <;> cases this
    | sending work =>
      have := hstep .resolverSend id
      simp [hr, State.resolverSend] at this
  have hresolverBox : s.resolverBox.messages = [] := by
    have := hstep .resolverReceive id
    simp only [Bool.false_eq_true, if_false, State.resolverReceive, hresolver] at this
    exact messages_of_blocked h.live.resolverBox this
  have hworkPool : s.workPool = none := Option.map_eq_none_iff.mp (hstep .workPoolHandle id)
  have hworkPoolBox : s.workPoolBox.messages = [] := by
    have := hstep .workPoolReceive id
    simp only [Bool.false_eq_true, if_false, State.workPoolReceive, hworkPool] at this
    exact messages_of_blocked h.live.workPoolBox this
  have hworker (i : Fin workers) : s.worker i = .waiting := by
    cases hw : s.worker i with
    | waiting => rfl
    | handling work =>
      have := hstep (.workerHandle i) id
      simp only [Bool.false_eq_true, if_false, State.workerHandle, hw] at this
      split at this <;> cases this
    | sending args =>
      have := hstep (.workerSend i) id
      simp [hw, State.workerSend] at this
  have hworks : s.works.messages = [] := by
    have := hstep (.workerReceive ⟨0, hworkers⟩) id
    simp only [Bool.false_eq_true, if_false, State.workerReceive, hworker] at this
    exact messages_of_blocked h.live.works this
  have hresponder : s.responder = none :=
    Option.map_eq_none_iff.mp (hstep (.responderHandle .null) id)
  have hresponderBox : s.responderBox.messages = [] := by
    have := hstep .responderReceive id
    simp only [Bool.false_eq_true, if_false, State.responderReceive, hresponder] at this
    exact messages_of_blocked h.live.responderBox this
  intro p hp
  cases p <;> simp_all [State.held, Handler.items]

/-- The sockets of the requests in a place. -/
def State.sockets (s : State workers) (p : Place workers) : List Nat := (s.held p).map Item.socket

theorem sockets_answered (s : State workers) : s.sockets .answered = s.written.map (·.1) := by
  rw [State.sockets, State.held, List.map_map]
  rfl

/-- What is in a place was accepted. -/
theorem Inv.mem_accepted (h : Inv P root clients s) {p : Place workers} {socket : Nat}
    (hp : socket ∈ s.sockets p) : socket ∈ s.accepted.map (·.2) :=
  List.count_pos_iff.mp
    (lt_of_lt_of_le (List.count_pos_iff.mpr hp) (h.conserved.count_le p socket))

/-- What was accepted is in exactly one place. -/
theorem Inv.once (h : Inv P root clients s) {socket : Nat}
    (hin : socket ∈ s.accepted.map (·.2)) :
    ∃ p, (s.sockets p).count socket = 1 ∧ ∀ q, q ≠ p → socket ∉ s.sockets q :=
  h.conserved.once h.fresh hin

/-- Where only an accept is possible, what was accepted has been answered. -/
theorem Inv.answered_of_quiescent (h : Inv P root clients s) (hworkers : 0 < workers)
    (hquiet : (system P root clients.payload workers).Quiescent Label.isAccept s) {socket : Nat}
    (hin : socket ∈ s.accepted.map (·.2)) : socket ∈ s.written.map (·.1) := by
  obtain ⟨p, hp, -⟩ := h.once hin
  have hmem : socket ∈ s.sockets p := List.count_pos_iff.mp (by omega)
  by_cases hanswered : p = .answered
  · rwa [hanswered, sockets_answered] at hmem
  · rw [State.sockets, held_of_quiescent h hworkers hquiet p hanswered] at hmem
    cases hmem

/-- **Every request is answered, once, with its own response.** For any clients of the right
format, any command tree, any number of workers and any order of steps, in every state reached:
every accepted request is in exactly one place; at most one response is written to a socket; it
carries the id that was given to the request accepted on that socket, and the response and the
code that `runSingle` yields for the command and the parameters of that request's own payload;
and, where there is at least one worker, whenever no step but an accept is possible every accepted
request has been answered. -/
theorem requests_answered (P : Platform) (root : Command) (clients : Clients P) {workers : Nat}
    {s : State workers} (h : (system P root clients.payload workers).Reachable s) :
    (∀ id socket, (id, socket) ∈ s.accepted →
      ∃ p, (s.sockets p).count socket = 1 ∧ ∀ q, q ≠ p → socket ∉ s.sockets q)
    ∧ (s.written.map (·.1)).Nodup
    ∧ (∀ socket text, (socket, text) ∈ s.written →
      ∃ id response code profile, (id, socket) ∈ s.accepted
        ∧ (∀ id', (id', socket) ∈ s.accepted → id' = id)
        ∧ Yields P root clients id socket response code
        ∧ text = P.write (.object
          (responseMembers id (clients.content socket).verbose response code profile)))
    ∧ (0 < workers → (system P root clients.payload workers).Quiescent Label.isAccept s →
      ∀ id socket, (id, socket) ∈ s.accepted → socket ∈ s.written.map (·.1)) := by
  have hinv := Inv.reachable h
  refine ⟨fun id socket hin => hinv.once (List.mem_map.mpr ⟨_, hin, rfl⟩), ?_, ?_, ?_⟩
  · rw [← sockets_answered]
    exact hinv.conserved.nodup hinv.fresh .answered
  · intro socket text hin
    obtain ⟨id, response, code, profile, haccepted, hyields, htext⟩ :=
      hinv.good .answered (.response socket text) (List.mem_map.mpr ⟨_, hin, rfl⟩)
    refine ⟨id, response, code, profile, haccepted, fun id' hin' => ?_, hyields, htext⟩
    have := List.inj_on_of_nodup_map hinv.fresh hin' haccepted rfl
    exact congrArg Prod.fst this
  · intro hworkers hquiet id socket hin
    exact hinv.answered_of_quiescent hworkers hquiet (List.mem_map.mpr ⟨_, hin, rfl⟩)

/-! ## What the other threads leave alone -/

/-- The Resolver has not taken the request of this socket yet. -/
def State.Unread (s : State workers) (socket : Nat) : Prop :=
  socket ∉ s.accepted.map (·.2) ∨ socket ∈ s.sockets .server ∨ socket ∈ s.sockets .resolverBox

/-- Steps that use no socket and give the Resolver nothing to handle. -/
def Label.isInner : Label workers → Prop
  | .accept _ | .resolverReceive | .resolverHandle | .responderHandle _ => False
  | _ => True

/-- What such a step leaves alone. -/
structure Frame (s t : State workers) : Prop where
  accepted : t.accepted = s.accepted
  written : t.written = s.written
  handling : ∀ request, t.resolver = .handling request → s.resolver = .handling request
  unread : ∀ socket, t.Unread socket → s.Unread socket

/-- A step that does not touch the first two places leaves what is in them. -/
theorem Frame.of_fields (haccepted : t.accepted = s.accepted) (hwritten : t.written = s.written)
    (hhandling : ∀ request, t.resolver = .handling request → s.resolver = .handling request)
    (hserver : t.server = s.server) (hbox : t.resolverBox = s.resolverBox) : Frame s t := by
  refine ⟨haccepted, hwritten, hhandling, fun socket h => ?_⟩
  unfold State.Unread State.sockets State.held at h ⊢
  rwa [haccepted, hserver, hbox] at h

theorem frame_send {α : Type} {msg : α} {box : Mailbox α} {sent : Mailbox α → State workers}
    (h : ∀ box', Frame s (sent box')) : Frame s (s.send msg box sent) := by
  unfold State.send
  split
  · exact h _
  · exact .of_fields rfl rfl (fun _ h => h) rfl rfl

theorem frame_receive {α : Type} {box : Mailbox α} {received : α → Mailbox α → State workers}
    (hstep : s.receive box received = some t) (h : ∀ msg box', Frame s (received msg box')) :
    Frame s t := by
  unfold State.receive at hstep
  split at hstep
  · cases hstep
  · cases hstep
    exact .of_fields rfl rfl (fun _ h => h) rfl rfl
  · cases hstep
    exact h _ _

theorem Frame.of_step {payload : Nat → Bytes} {l : Label workers} (hl : l.isInner)
    (hstep : s.step P root payload l = some t) : Frame s t := by
  unfold State.step at hstep
  split at hstep
  · cases hstep
  · cases l with
    | accept | resolverReceive | resolverHandle | responderHandle => exact absurd hl id
    | serverSend =>
      obtain ⟨request, hserver, rfl⟩ := Option.map_eq_some_iff.mp hstep
      unfold State.send Mailbox.sendMessage
      split
      · rename_i box hbox
        split at hbox
        · cases hbox
          refine ⟨rfl, rfl, fun _ h => h, fun socket h => ?_⟩
          simp only [State.Unread, State.sockets, State.held, Option.toList_none, List.map_nil,
            List.not_mem_nil, List.map_append, List.map_cons, List.mem_append, List.mem_singleton,
            false_or, hserver, Option.toList_some] at h ⊢
          tauto
        · cases hbox
      · exact .of_fields rfl rfl (fun _ h => h) rfl rfl
    | resolverSend =>
      dsimp only [State.resolverSend] at hstep
      split at hstep
      · cases hstep
        exact frame_send fun _ => .of_fields rfl rfl (fun _ h => by cases h) rfl rfl
      · cases hstep
    | workPoolReceive =>
      dsimp only [State.workPoolReceive] at hstep
      split at hstep
      · exact frame_receive hstep fun _ _ => .of_fields rfl rfl (fun _ h => h) rfl rfl
      · cases hstep
    | workPoolHandle =>
      obtain ⟨work, -, rfl⟩ := Option.map_eq_some_iff.mp hstep
      exact .of_fields rfl rfl (fun _ h => h) rfl rfl
    | workerReceive i =>
      dsimp only [State.workerReceive] at hstep
      split at hstep
      · exact frame_receive hstep fun _ _ => .of_fields rfl rfl (fun _ h => h) rfl rfl
      · cases hstep
    | workerHandle i =>
      dsimp only [State.workerHandle] at hstep
      split at hstep
      · split at hstep <;> cases hstep <;> exact .of_fields rfl rfl (fun _ h => h) rfl rfl
      · cases hstep
    | workerSend i =>
      dsimp only [State.workerSend] at hstep
      split at hstep
      · cases hstep
        exact frame_send fun _ => .of_fields rfl rfl (fun _ h => h) rfl rfl
      · cases hstep
    | responderReceive =>
      dsimp only [State.responderReceive] at hstep
      split at hstep
      · exact frame_receive hstep fun _ _ => .of_fields rfl rfl (fun _ h => h) rfl rfl
      · cases hstep

/-- The payloads matter to the Resolver's handler alone. -/
theorem step_payload (payload payload' : Nat → Bytes) {l : Label workers}
    (hl : l ≠ .resolverHandle) : s.step P root payload l = s.step P root payload' l := by
  cases l with
  | resolverHandle => exact absurd rfl hl
  | _ => rfl

/-! ## One request, with one worker and with none -/

open WorkPoolWorker (mutePlatform mutePayload muteMembers muteRoot)

/-- What the clients below ask for. -/
def muteContent : Content :=
  { verbose := false, tokens := [lit "mute"], members := [(lit "foo", .int 5)] }

/-- Every client asks for `mute`. -/
def muteClients : Clients mutePlatform where
  payload := fun _ => mutePayload "5"
  content := fun _ => muteContent
  reads := fun _ => ⟨muteMembers (.int 5), rfl, rfl, rfl, rfl⟩

/-- The way of a request for socket 7 into the queue. -/
def toQueue {workers : Nat} : List (Label workers) :=
  [.accept 7, .serverSend, .resolverReceive, .resolverHandle, .resolverSend, .workPoolReceive,
    .workPoolHandle]

/-- The request is in the queue. -/
def queued : State 0 :=
  { idCounter := 1
    works := { messages := [workOf muteRoot { id := 1, socket := 7 } muteContent], semaphore := 1 }
    accepted := [(1, 7)] }

/-- The way from the queue to the answer. -/
def toAnswer : List (Label 1) :=
  [.workerReceive 0, .workerHandle 0, .workerSend 0, .responderReceive, .responderHandle .null]

/-- The request is answered. -/
def answered : State 1 :=
  { idCounter := 1
    worker := Function.update (Function.update (Function.update (fun _ => .waiting) 0
      (.handling (workOf muteRoot { id := 1, socket := 7 } muteContent))) 0
      (.sending { request := { id := 1, socket := 7 }, code := 0, response := .null })) 0 .waiting
    accepted := [(1, 7)]
    written := [(7, Message.empty)] }

/-- With one worker the request is answered when nothing is left to do. -/
theorem requests_answered_mute : 7 ∈ answered.written.map (·.1) := by
  have hrun : (system mutePlatform muteRoot muteClients.payload 1).run {} (toQueue ++ toAnswer)
      = some answered := rfl
  have hquiet : (system mutePlatform muteRoot muteClients.payload 1).Quiescent Label.isAccept
      answered := by
    intro l hl
    cases l with
    | accept => exact absurd trivial hl
    | workerReceive i =>
      cases Subsingleton.elim i 0
      rfl
    | workerHandle i =>
      cases Subsingleton.elim i 0
      rfl
    | workerSend i =>
      cases Subsingleton.elim i 0
      rfl
    | _ => rfl
  exact (requests_answered mutePlatform muteRoot muteClients (.run (.init rfl) hrun)).2.2.2
    Nat.one_pos hquiet 1 7 List.mem_cons_self

/-- With no worker at all it stays in the queue, and nothing is left to do. -/
theorem no_worker_no_answer :
    (system mutePlatform muteRoot muteClients.payload 0).Reachable queued
      ∧ (system mutePlatform muteRoot muteClients.payload 0).Quiescent Label.isAccept queued
      ∧ (1, 7) ∈ queued.accepted ∧ 7 ∉ queued.written.map (·.1) := by
  have hrun : (system mutePlatform muteRoot muteClients.payload 0).run {} toQueue
      = some queued := rfl
  refine ⟨.run (.init rfl) hrun, fun l hl => ?_, List.mem_cons_self, List.not_mem_nil⟩
  cases l with
  | accept => exact absurd trivial hl
  | workerReceive i => exact i.elim0
  | workerHandle i => exact i.elim0
  | workerSend i => exact i.elim0
  | _ => rfl

end Holchain.Holper.Pipeline
