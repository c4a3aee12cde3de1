import Holchain.Laws.Pipeline
import Holchain.Laws.Socket
import Holchain.Holper.Daemon

/-!
# Laws.Daemon — which clients the daemon survives

As long as every step is `Benign` (clients send their frames in time and stay until they are
answered, `accept` does not fail), the Resolver's reads all return the payload of their client
(`ReadingOf`). So the daemon's threads do what those of `Holper.Pipeline` do (`refines`), and its
law of answers holds. One client that sends nothing, or closes, is enough to break this
(`misbehaving_clients`).
-/

namespace Holchain.Holper.Daemon

open UnixSocket (Reading Answer Part ReadRaw deadline)
open Lib (LengthCode)

/-- Clients whose payloads have the client's format and the size of one `send`. -/
structure WellBehaved (P : Platform) extends Pipeline.Clients P where
  fits : ∀ socket, (payload socket).length ≤ maxTransfer

/-- One is a prefix of the other. -/
def Comparable (a b : Bytes) : Prop := a <+: b ∨ b <+: a

variable {m : Machine} {P : Platform} {root : Command} {clients : WellBehaved P} {workers : Nat}

/-- What the client of a socket has to send. -/
def frameOf (m : Machine) (clients : WellBehaved P) (socket : Nat) : Bytes :=
  m.order.u64.frame (clients.payload socket)

/-- At this time the deadline of the `readRaw` under way has not passed, or what it waits for is
there. -/
def State.InTime (s : State workers) (now : Nat) : Prop :=
  ∀ request, s.pipe.resolver = .handling request →
    match s.reading with
    | .test _ raw => now < raw.until_
    | .recv _ raw => now < raw.until_
      ∨ ((s.connections request.socket).recv (raw.len - raw.bytes.length)).isSome
    | _ => True

/-- **The benign steps.** `accept` does not fail; a client sends its frame, and what comes after it
does not matter; the clock does not pass the deadline of a `readRaw` before the bytes it waits for
are there; a client closes only after its response was written; no response is longer than one
`send` can take. -/
def Benign (m : Machine) (clients : WellBehaved P) (s : State workers) : Label workers → Prop
  | .tick now => s.InTime now
  | .clientSend socket bytes =>
    Comparable ((s.connections socket).sent ++ bytes) (frameOf m clients socket)
  | .clientClose socket => socket ∈ s.pipe.written.map (·.1)
  | .acceptFails _ => False
  | .responderHandle profile => ∀ args, s.pipe.responder = some args →
    (Responder.handleMessage P profile args).val.length ≤ maxTransfer
  | _ => True

/-! ## Reading a payload -/

/-- How many bytes of the frame a `readRaw` is for. -/
def lenOf (payload : Bytes) : Part → Nat
  | .length => 8
  | .body => payload.length

/-- The bytes themselves. -/
def bytesOf (m : Machine) (payload : Bytes) : Part → Bytes
  | .length => m.order.u64.encode payload.length
  | .body => payload

/-- How many come before them. -/
def offsetOf : Part → Nat
  | .length => 0
  | .body => 8

/-- Where the Resolver stands in `read`, and what it has taken from the connection by then. -/
def ReadingOf (c : Connection) (payload : Bytes) (now : Nat) : Reading → Prop
  | .enter part len => len = lenOf payload part ∧ c.taken = offsetOf part
  | .test part raw => raw.len = lenOf payload part ∧ raw.bytes = [] ∧ c.taken = offsetOf part
      ∧ now < raw.until_
  | .recv part raw => raw.len = lenOf payload part ∧ raw.bytes = [] ∧ c.taken = offsetOf part
      ∧ (now < raw.until_ ∨ (c.recv raw.len).isSome)
  | .alloc length => length = payload.length ∧ c.taken = 8
  | .returned st => st = payload
  | .thrown _ => False

/-- A connection with a descriptor, and with the client's frame, what comes after it, or the part of
it that was sent so far. -/
structure Serves (m : Machine) (c : Connection) (payload : Bytes) : Prop where
  valid : c.valid = true
  sent : Comparable c.sent (m.order.u64.frame payload)
  fits : payload.length ≤ maxTransfer

theorem length_frame (order : ByteOrder) (payload : Bytes) :
    (order.u64.frame payload).length = 8 + payload.length := by
  rw [LengthCode.length_frame, ← order.u64.length_encode payload.length,
    UnixSocket.Reader.length_u64]

/-- A frame that is comparable with what was sent is a part of it where this is long enough. -/
theorem Comparable.frame {order : ByteOrder} {sent payload : Bytes}
    (h : Comparable sent (order.u64.frame payload)) :
    (8 ≤ sent.length → sent.take 8 = order.u64.encode payload.length)
      ∧ (payload.length ≤ (sent.drop 8).length → (sent.drop 8).take payload.length = payload) := by
  have hencode : (order.u64.encode payload.length).length = 8 :=
    UnixSocket.Reader.length_u64 order _
  have hframe := length_frame order payload
  constructor
  · intro hlen
    have htake : sent.take 8 = (order.u64.frame payload).take 8 := by
      rcases h with ⟨rest, h⟩ | ⟨rest, h⟩
      · rw [← h, List.take_append_of_le_length hlen]
      · rw [← h, List.take_append_of_le_length (by omega)]
    rw [htake, LengthCode.frame, List.take_append_of_le_length (by omega),
      List.take_of_length_le (by omega)]
  · intro hlen
    by_cases hnil : payload = []
    · subst hnil
      rfl
    · have hpos : 0 < payload.length := List.length_pos_iff.mpr hnil
      rw [List.length_drop] at hlen
      obtain ⟨rest, rfl⟩ : order.u64.frame payload <+: sent := by
        rcases h with h | h
        · exact (h.eq_of_length (by have := h.length_le; omega)) ▸ List.prefix_rfl
        · exact h
      rw [LengthCode.frame, List.append_assoc, List.drop_append_of_le_length (by omega),
        List.drop_of_length_le (by omega), List.nil_append, List.take_left']
      rfl

theorem lenOf_le {payload : Bytes} (h : payload.length ≤ maxTransfer) (part : Part) :
    lenOf payload part ≤ maxTransfer := by
  cases part with
  | length =>
    show 8 ≤ maxTransfer
    decide
  | body => exact h

/-- What a `readRaw` is for follows what was taken before it. -/
theorem Serves.take {c : Connection} {payload : Bytes} (h : Serves m c payload) {part : Part}
    (htaken : c.taken = offsetOf part) (hlen : lenOf payload part ≤ c.incoming.length) :
    c.incoming.take (lenOf payload part) = bytesOf m payload part := by
  obtain ⟨hlength, hbody⟩ := h.sent.frame
  unfold Connection.incoming at hlen ⊢
  rw [htaken] at hlen ⊢
  cases part with
  | length => exact hlength hlen
  | body => exact hbody hlen

/-- Behind `readRaw`'s loop, or at its next test in time. -/
theorem ReadingOf.loop {c : Connection} {payload : Bytes} {now : Nat} {part : Part}
    (htaken : c.taken = offsetOf part) :
    ReadingOf c payload now
      (.loop m.order part { len := lenOf payload part, until_ := deadline now }) := by
  unfold Reading.loop
  split
  · refine ⟨rfl, rfl, htaken, ?_⟩
    show now < now + 3 * 10 ^ 9
    omega
  · rename_i hall
    cases part with
    | length => exact absurd (by decide : 0 < 8) hall
    | body => exact (List.length_eq_zero_iff.mp (by simpa [lenOf] using hall)).symm

/-- Behind a `readRaw` that has all its bytes. -/
theorem ReadingOf.received {c : Connection} {payload : Bytes} {now : Nat} {part : Part}
    {raw : ReadRaw} (hfits : payload.length ≤ maxTransfer) (hlen : raw.len = lenOf payload part)
    (htaken : c.taken = offsetOf part + lenOf payload part) :
    ReadingOf c payload now (.loop m.order part { raw with bytes := bytesOf m payload part }) := by
  have hall : (bytesOf m payload part).length = raw.len := by
    rw [hlen]
    cases part with
    | length => exact UnixSocket.Reader.length_u64 m.order _
    | body => rfl
  unfold Reading.loop
  rw [if_neg (by rw [hall]; exact Nat.lt_irrefl _)]
  cases part with
  | length => exact ⟨UnixSocket.Reader.decode_u64 m.order hfits, htaken⟩
  | body => rfl

/-- `recv` where the bytes are there. -/
theorem recv_there {c : Connection} (hvalid : c.valid = true) {len : Nat}
    (h : min len maxTransfer ≤ c.incoming.length) :
    c.recv len = some (.received (c.incoming.take (min len maxTransfer)),
      { c with taken := c.taken + min len maxTransfer }) := by
  dsimp only [Connection.recv]
  rw [if_neg (by simp [hvalid]), if_pos h]

/-- **One call of `read` on a connection that serves its payload** throws nothing, and `read`
returns nothing but the payload. -/
theorem ReadingOf.step {s : State workers} {c c' : Connection} {payload : Bytes} {a : Answer}
    (hserves : Serves m c payload) (hopen : c.closed = false)
    (h : ReadingOf c payload s.now s.reading) (hanswer : s.answer m c = some (a, c')) :
    ∃ reading, s.reading.step m.order a = some reading ∧ ReadingOf c' payload s.now reading
      ∧ c' = { c with taken := c'.taken } := by
  unfold State.answer at hanswer
  cases hr : s.reading with
  | enter part len =>
    rw [hr] at h hanswer
    obtain ⟨rfl, htaken⟩ := h
    cases hanswer
    exact ⟨_, rfl, ReadingOf.loop htaken, rfl⟩
  | test part raw =>
    rw [hr] at h hanswer
    obtain ⟨hlen, hbytes, htaken, hnow⟩ := h
    cases hanswer
    refine ⟨.recv part raw, ?_, ⟨hlen, hbytes, htaken, .inl hnow⟩, rfl⟩
    simp only [Reading.step, if_pos hnow]
  | recv part raw =>
    rw [hr] at h hanswer
    obtain ⟨hlen, hbytes, htaken, -⟩ := h
    have hwant : min (raw.len - raw.bytes.length) maxTransfer = lenOf payload part := by
      rw [hlen, hbytes, List.length_nil, Nat.sub_zero]
      exact Nat.min_eq_left (lenOf_le hserves.fits part)
    dsimp only [Connection.recv] at hanswer
    rw [if_neg (by simp [hserves.valid]), hwant] at hanswer
    split at hanswer
    · rename_i hthere
      cases hanswer
      refine ⟨_, rfl, ?_, rfl⟩
      rw [hbytes, List.nil_append, hserves.take htaken hthere]
      exact ReadingOf.received hserves.fits hlen (congrArg (· + lenOf payload part) htaken)
    · rw [if_neg (by simp [hopen])] at hanswer
      cases hanswer
  | alloc length =>
    rw [hr] at h hanswer
    obtain ⟨rfl, htaken⟩ := h
    cases hanswer
    refine ⟨.enter .body payload.length, ?_, ⟨rfl, htaken⟩, rfl⟩
    simp [Reading.step, le_trans hserves.fits m.memory_suffices]
  | returned st => rw [hr] at hanswer; cases hanswer
  | thrown what => rw [hr] at hanswer; cases hanswer

/-- A connection that gives no less keeps a reading where it is, while its deadline is ahead. -/
theorem ReadingOf.mono {c c' : Connection} {payload : Bytes} {now now' : Nat} {reading : Reading}
    (h : ReadingOf c payload now reading) (htaken : c'.taken = c.taken)
    (htest : ∀ part raw, reading = .test part raw → now' < raw.until_)
    (hrecv : ∀ part raw, reading = .recv part raw → now' < raw.until_ ∨ (c'.recv raw.len).isSome) :
    ReadingOf c' payload now' reading := by
  cases reading with
  | enter part len => exact ⟨h.1, htaken.trans h.2⟩
  | test part raw => exact ⟨h.1, h.2.1, htaken.trans h.2.2.1, htest part raw rfl⟩
  | recv part raw => exact ⟨h.1, h.2.1, htaken.trans h.2.2.1, hrecv part raw rfl⟩
  | alloc length => exact ⟨h.1, htaken.trans h.2⟩
  | returned st => exact h
  | thrown what => exact h

/-- When `recv` returns. -/
theorem recv_isSome_iff {c : Connection} {len : Nat} :
    (c.recv len).isSome ↔ c.valid = false ∨ min len maxTransfer ≤ c.incoming.length
      ∨ c.closed = true := by
  dsimp only [Connection.recv]
  cases c.valid with
  | false => simp
  | true =>
    by_cases hthere : min len maxTransfer ≤ c.incoming.length
    · simp [hthere]
    · cases c.closed <;> simp [hthere]

/-! ## The invariant -/

/-- What holds in every state of a benign run. -/
structure Inv (m : Machine) (P : Platform) (root : Command) (clients : WellBehaved P)
    (s : State workers) : Prop where
  stays : s.left = none
  pipe : Pipeline.Inv P root clients.toClients s.pipe
  valid : ∀ socket, (s.connections socket).valid = true
  sent : ∀ socket, Comparable (s.connections socket).sent (frameOf m clients socket)
  closed : ∀ socket, (s.connections socket).closed = true → socket ∈ s.pipe.written.map (·.1)
  unread : ∀ socket, s.pipe.Unread socket → (s.connections socket).taken = 0
  reading : ∀ request, s.pipe.resolver = .handling request →
    ReadingOf (s.connections request.socket) (clients.payload request.socket) s.now s.reading

variable {s t : State workers}

theorem Inv.serves (h : Inv m P root clients s) (socket : Nat) :
    Serves m (s.connections socket) (clients.payload socket) :=
  ⟨h.valid socket, h.sent socket, clients.fits socket⟩

/-- A request is in no other place than the one it is in. -/
theorem Inv.elsewhere (h : Inv m P root clients s) {p q : Pipeline.Place workers}
    {socket : Nat} (hp : socket ∈ s.pipe.sockets p) (hne : q ≠ p) :
    socket ∉ s.pipe.sockets q := by
  intro hq
  have hin : socket ∈ s.pipe.accepted.map (·.2) := h.pipe.mem_accepted hp
  obtain ⟨r, -, hr⟩ := h.pipe.once hin
  have hpr : p = r := by
    by_contra hpr
    exact hr p hpr hp
  exact hr q (hpr ▸ hne) hq

theorem mem_sockets_resolver {request : Request} (hr : s.pipe.resolver = .handling request) :
    request.socket ∈ s.pipe.sockets .resolver := by
  simp [Pipeline.State.sockets, Pipeline.State.held, hr, Pipeline.Handler.items,
    Pipeline.Item.socket]

/-- A request that is not answered is one whose client is there. -/
theorem Inv.open_of_mem (h : Inv m P root clients s) {p : Pipeline.Place workers} {socket : Nat}
    (hp : socket ∈ s.pipe.sockets p) (hne : p ≠ .answered) :
    (s.connections socket).closed = false := by
  rw [Bool.eq_false_iff]
  intro hclosed
  have := h.closed socket hclosed
  rw [← Pipeline.sockets_answered] at this
  exact h.elsewhere hp hne.symm this

/-- The Resolver has taken the request that it handles. -/
theorem Inv.not_unread (h : Inv m P root clients s) {request : Request}
    (hr : s.pipe.resolver = .handling request) : ¬ s.pipe.Unread request.socket := by
  have hhere := mem_sockets_resolver hr
  intro hunread
  rcases hunread with hno | hserver | hbox
  · exact hno (h.pipe.mem_accepted hhere)
  · exact h.elsewhere hhere (by simp) hserver
  · exact h.elsewhere hhere (by simp) hbox

/-- A step that leaves the pipeline alone and changes one connection, if any, keeps the invariant
where the connection keeps what the invariant says. -/
theorem Inv.setConnection (h : Inv m P root clients s) {socket : Nat} {c : Connection}
    (hpipe : t.pipe = s.pipe) (hleft : t.left = s.left)
    (hconnections : t.connections = Function.update s.connections socket c)
    (hvalid : c.valid = true) (hsent : Comparable c.sent (frameOf m clients socket))
    (hclosed : c.closed = true → socket ∈ s.pipe.written.map (·.1))
    (hunread : s.pipe.Unread socket → c.taken = 0)
    (hreading : ∀ request, s.pipe.resolver = .handling request →
      ReadingOf (t.connections request.socket) (clients.payload request.socket) t.now t.reading) :
    Inv m P root clients t := by
  have hother {Q : Nat → Connection → Prop} (hall : ∀ k, Q k (s.connections k)) (hc : Q socket c) :
      ∀ k, Q k (t.connections k) := by
    intro k
    rw [hconnections]
    by_cases hk : k = socket
    · subst hk
      rwa [Function.update_self]
    · rw [Function.update_of_ne hk]
      exact hall k
  refine ⟨hleft.trans h.stays, by rw [hpipe]; exact h.pipe,
    hother (Q := fun _ c => c.valid = true) h.valid hvalid,
    hother (Q := fun k c => Comparable c.sent (frameOf m clients k)) h.sent hsent, ?_, ?_,
    by rw [hpipe]; exact hreading⟩
  · rw [hpipe]
    exact hother (Q := fun k c => c.closed = true → k ∈ s.pipe.written.map (·.1)) h.closed hclosed
  · rw [hpipe]
    exact hother (Q := fun k c => s.pipe.Unread k → c.taken = 0) h.unread hunread

/-- A step of the pipeline alone keeps the invariant where it lets nothing be read anew. -/
theorem Inv.setPipe (h : Inv m P root clients s)
    (hpipe : Pipeline.Inv P root clients.toClients t.pipe) (hleft : t.left = s.left)
    (hconnections : t.connections = s.connections)
    (hwritten : ∀ socket ∈ s.pipe.written.map (·.1), socket ∈ t.pipe.written.map (·.1))
    (hunread : ∀ socket, t.pipe.Unread socket → s.pipe.Unread socket)
    (hreading : ∀ request, t.pipe.resolver = .handling request →
      ReadingOf (s.connections request.socket) (clients.payload request.socket) t.now t.reading) :
    Inv m P root clients t where
  stays := hleft.trans h.stays
  pipe := hpipe
  valid := by rw [hconnections]; exact h.valid
  sent := by rw [hconnections]; exact h.sent
  closed := fun socket hc => hwritten socket (h.closed socket (by rwa [hconnections] at hc))
  unread := fun socket hu => by rw [hconnections]; exact h.unread socket (hunread socket hu)
  reading := by rw [hconnections]; exact hreading

/-! ## The steps -/

theorem tick_inv (h : Inv m P root clients s) {now : Nat} (hok : s.InTime now) :
    Inv m P root clients { s with now } := by
  refine h.setPipe h.pipe rfl rfl (fun _ h => h) (fun _ h => h) fun request hr => ?_
  have hin := hok request hr
  have hreading := h.reading request hr
  refine hreading.mono rfl (fun part raw heq => ?_) fun part raw heq => ?_
  · rwa [heq] at hin
  · rw [heq] at hin hreading
    dsimp only at hin
    rwa [hreading.2.1, List.length_nil, Nat.sub_zero] at hin

theorem clientSend_inv (h : Inv m P root clients s) {socket : Nat} {bytes : Bytes}
    (hopen : (s.connections socket).closed = false)
    (hok : Comparable ((s.connections socket).sent ++ bytes) (frameOf m clients socket)) :
    Inv m P root clients (s.setConnection socket
      { s.connections socket with sent := (s.connections socket).sent ++ bytes }) := by
  refine h.setConnection rfl rfl rfl (h.valid socket) hok (h.closed socket) (h.unread socket)
    fun request hr => ?_
  have hreading := h.reading request hr
  by_cases hsocket : request.socket = socket
  · subst hsocket
    simp only [State.setConnection, Function.update_self]
    refine hreading.mono rfl (fun part raw heq => ?_) fun part raw heq => ?_
    · rw [heq] at hreading
      exact hreading.2.2.2
    · rw [heq] at hreading
      refine hreading.2.2.2.imp_right fun hsome => ?_
      rw [recv_isSome_iff] at hsome ⊢
      refine hsome.imp_right (Or.imp_left fun hthere => le_trans hthere ?_)
      simp only [Connection.incoming, List.length_drop, List.length_append]
      omega
  · simpa only [State.setConnection, Function.update_of_ne hsocket] using hreading

theorem clientClose_inv (h : Inv m P root clients s) {socket : Nat}
    (hok : socket ∈ s.pipe.written.map (·.1)) :
    Inv m P root clients (s.setConnection socket { s.connections socket with closed := true }) := by
  refine h.setConnection rfl rfl rfl (h.valid socket) (h.sent socket) (fun _ => hok)
    (h.unread socket) fun request hr => ?_
  have hreading := h.reading request hr
  have hne : request.socket ≠ socket := by
    rintro rfl
    rw [← Pipeline.sockets_answered] at hok
    exact h.elsewhere (mem_sockets_resolver hr) (by simp) hok
  simpa only [State.setConnection, Function.update_of_ne hne] using hreading

theorem accept_inv (h : Inv m P root clients s) {socket : Nat} {pipe : Pipeline.State workers}
    (hstep : s.pipe.accept socket = some pipe) : Inv m P root clients { s with pipe } := by
  have hinv := Pipeline.accept_inv h.pipe hstep
  unfold Pipeline.State.accept at hstep
  split at hstep
  · rename_i hfree
    cases hstep
    refine h.setPipe hinv rfl rfl (fun _ h => h) (fun k hk => ?_) h.reading
    rcases hk with hno | hserver | hbox
    · exact .inl fun hin => hno (by simp only [List.map_append, List.mem_append, hin, true_or])
    · have hk : k = socket := by
        simpa [Pipeline.State.sockets, Pipeline.State.held, Pipeline.Item.socket] using hserver
      exact .inl (hk ▸ hfree.2.1)
    · exact .inr (.inr hbox)
  · cases hstep

theorem stepPipe_inv (h : Inv m P root clients s) {l : Pipeline.Label workers}
    (hstep : s.stepPipe P root l = some t) : Inv m P root clients t := by
  by_cases hl : l.isInner
  · obtain ⟨pipe, hpipe, rfl⟩ : ∃ pipe, s.pipe.step P root (fun _ => []) l = some pipe
        ∧ { s with pipe } = t := by
      cases l <;> first
        | exact absurd hl id
        | exact Option.map_eq_some_iff.mp hstep
    have hframe := Pipeline.Frame.of_step hl hpipe
    rw [Pipeline.step_payload _ clients.payload (by rintro rfl; exact hl)] at hpipe
    exact h.setPipe (h.pipe.step hpipe) rfl rfl (by rw [hframe.written]; exact fun _ h => h)
      hframe.unread fun request hr => h.reading request (hframe.handling request hr)
  · cases l with
    | resolverReceive =>
      obtain ⟨pipe, hpipe, rfl⟩ := Option.map_eq_some_iff.mp hstep
      rw [Pipeline.step_payload _ clients.payload (by simp)] at hpipe
      have hinv := h.pipe.step hpipe
      unfold Pipeline.State.step at hpipe
      rw [h.pipe.live.alive] at hpipe
      dsimp only [Pipeline.State.resolverReceive] at hpipe
      simp only [Bool.false_eq_true, if_false] at hpipe
      split at hpipe
      · obtain ⟨request, rest, hbox, rfl⟩ :=
          Pipeline.receive_even h.pipe.live.resolverBox hpipe
        refine h.setPipe hinv rfl rfl (fun _ h => h) (fun k hk => ?_) fun request' hr => ?_
        · refine hk.imp_right (Or.imp_right fun hin => ?_)
          simp only [Pipeline.State.sockets, Pipeline.State.held, hbox, List.map_cons] at hin ⊢
          exact List.mem_cons_of_mem _ hin
        · cases hr
          refine ⟨rfl, h.unread request.socket (.inr (.inr ?_))⟩
          simp [Pipeline.State.sockets, Pipeline.State.held, hbox, Pipeline.Item.socket]
      · cases hpipe
    | accept => cases hstep
    | resolverHandle => cases hstep
    | responderHandle => cases hstep
    | _ => exact absurd trivial hl

theorem read_inv (h : Inv m P root clients s) (hstep : s.read m = some t) :
    Inv m P root clients t ∧ t.pipe = s.pipe := by
  unfold State.read at hstep
  split at hstep
  · rename_i request hr
    obtain ⟨⟨a, c⟩, hanswer, hrest⟩ := Option.bind_eq_some_iff.mp hstep
    obtain ⟨reading, hreading, hof, hc⟩ := ReadingOf.step (h.serves request.socket)
      (h.open_of_mem (mem_sockets_resolver hr) (by simp)) (h.reading request hr) hanswer
    simp only [hreading, Option.map_some, Option.some.injEq] at hrest
    cases reading with
    | thrown what => exact absurd hof id
    | _ =>
      subst hrest
      refine ⟨h.setConnection rfl rfl rfl ?_ ?_ ?_ (fun hu => absurd hu (h.not_unread hr)) ?_, rfl⟩
      · rw [hc]
        exact h.valid request.socket
      · rw [hc]
        exact h.sent request.socket
      · rw [hc]
        exact h.closed request.socket
      · intro request' hr'
        rw [hr] at hr'
        cases hr'
        simpa only [State.setConnection, Function.update_self] using hof
  · cases hstep

/-- In the pipeline the Resolver handles what the client of its request has sent. -/
theorem Inv.step_resolverHandle (h : Inv m P root clients s) {request : Request}
    (hr : s.pipe.resolver = .handling request) :
    s.pipe.step P root clients.payload .resolverHandle
      = s.pipe.resolverHandle P root (clients.payload request.socket) := by
  unfold Pipeline.State.step
  rw [if_neg (by simp [h.pipe.live.alive])]
  simp only [hr]

theorem resolverHandle_inv (h : Inv m P root clients s)
    (hstep : s.resolverHandle P root = some t) :
    Inv m P root clients t
      ∧ s.pipe.step P root clients.payload .resolverHandle = some t.pipe := by
  unfold State.resolverHandle at hstep
  split at hstep
  · rename_i payload hreading
    obtain ⟨pipe, hpipe, rfl⟩ := Option.map_eq_some_iff.mp hstep
    unfold Pipeline.State.resolverHandle at hpipe
    split at hpipe
    · rename_i request hr
      have hpayload : payload = clients.payload request.socket := by
        have := h.reading request hr
        rwa [hreading] at this
      have hpipeStep : s.pipe.step P root clients.payload .resolverHandle = some pipe := by
        rw [h.step_resolverHandle hr, ← hpayload]
        simpa only [Pipeline.State.resolverHandle, hr] using hpipe
      have hinv := h.pipe.step hpipeStep
      refine ⟨?_, hpipeStep⟩
      split at hpipe
      · cases hpipe
        exact h.setPipe hinv rfl rfl (fun _ h => h) (fun _ h => h) fun _ hr => by cases hr
      · cases hpipe
        exact absurd hinv.live.alive (by simp [Pipeline.State.terminate])
    · cases hpipe
  · cases hstep

/-- A response that one call can send reaches a client that is there. -/
theorem write_open {order : ByteOrder} {c : Connection} (hvalid : c.valid = true)
    (hopen : c.closed = false) {data : Message} (hfits : data.val.length ≤ maxTransfer) :
    (UnixSocket.write order data (c.send 8) (c.send data.val.length)).2 = .ok () := by
  have hsend (len : Nat) (hlen : len ≤ maxTransfer) : (c.send len).val = len := by
    unfold Connection.send
    simp only [hvalid, hopen, Bool.not_false, Bool.and_self, if_true]
    omega
  have hdata := data.property
  unfold UnixSocket.write
  rw [hsend 8 (by decide), hsend _ hfits]
  dsimp only
  rw [if_neg (by decide), if_neg (by omega)]

theorem responderHandle_inv (h : Inv m P root clients s) {profile : Json}
    (hok : ∀ args, s.pipe.responder = some args →
      (Responder.handleMessage P profile args).val.length ≤ maxTransfer)
    (hstep : s.responderHandle m P profile = some t) :
    Inv m P root clients t
      ∧ s.pipe.step P root clients.payload (.responderHandle profile) = some t.pipe := by
  unfold State.responderHandle at hstep
  split at hstep
  · rename_i args hresponder
    have hhere : args.request.socket ∈ s.pipe.sockets .responder := by
      simp [Pipeline.State.sockets, Pipeline.State.held, hresponder, Pipeline.Item.socket]
    dsimp only at hstep
    rw [write_open (h.valid _) (h.open_of_mem hhere (by simp)) (hok args hresponder)] at hstep
    obtain ⟨pipe, hpipe, rfl⟩ := Option.map_eq_some_iff.mp hstep
    have hpipeStep : s.pipe.step P root clients.payload (.responderHandle profile)
        = some pipe := by
      unfold Pipeline.State.step
      rw [h.pipe.live.alive]
      simpa only [Bool.false_eq_true, if_false] using hpipe
    refine ⟨?_, hpipeStep⟩
    have hinv := h.pipe.step hpipeStep
    obtain ⟨args, -, rfl⟩ := Option.map_eq_some_iff.mp hpipe
    refine h.setPipe hinv rfl rfl (fun k hk => ?_) (fun _ h => h) h.reading
    simp only [List.map_append, List.mem_append, hk, true_or]
  · cases hstep

/-! ## Runs -/

/-- **A benign step keeps the invariant, and the pipeline takes it or does not see it.** -/
theorem Inv.step (h : Inv m P root clients s) {l : Label workers} (hok : Benign m clients s l)
    (hstep : s.step m P root l = some t) :
    Inv m P root clients t
      ∧ (Pipeline.system P root clients.payload workers).StepsIn State.pipe s t := by
  unfold State.step at hstep
  rw [h.pipe.live.alive] at hstep
  simp only [Bool.false_eq_true, if_false] at hstep
  cases l with
  | tick now =>
    dsimp only at hstep
    split at hstep
    · cases hstep
      exact ⟨tick_inv h hok, .inl rfl⟩
    · cases hstep
  | clientSend socket bytes =>
    dsimp only at hstep
    split at hstep
    · cases hstep
    · rename_i hopen
      cases hstep
      exact ⟨clientSend_inv h (by simpa using hopen) hok, .inl rfl⟩
  | clientClose socket =>
    cases hstep
    exact ⟨clientClose_inv h hok, .inl rfl⟩
  | accept socket =>
    obtain ⟨pipe, hpipe, rfl⟩ := Option.map_eq_some_iff.mp hstep
    refine ⟨accept_inv h hpipe, .inr ⟨.accept socket, ?_⟩⟩
    simpa [Pipeline.system, Pipeline.State.step, h.pipe.live.alive] using hpipe
  | acceptFails socket => exact absurd hok id
  | pipe l =>
    refine ⟨stepPipe_inv h hstep, .inr ⟨l, ?_⟩⟩
    have hpipe : s.pipe.step P root (fun _ => []) l = some t.pipe := by
      cases l <;> first
        | cases hstep
        | (obtain ⟨pipe, hpipe, rfl⟩ := Option.map_eq_some_iff.mp hstep
           exact hpipe)
    rwa [Pipeline.step_payload _ clients.payload (by rintro rfl; cases hstep)] at hpipe
  | read =>
    obtain ⟨hinv, hpipe⟩ := read_inv h hstep
    exact ⟨hinv, .inl hpipe⟩
  | resolverHandle =>
    obtain ⟨hinv, hpipe⟩ := resolverHandle_inv h hstep
    exact ⟨hinv, .inr ⟨.resolverHandle, hpipe⟩⟩
  | responderHandle profile =>
    obtain ⟨hinv, hpipe⟩ := responderHandle_inv h hok hstep
    exact ⟨hinv, .inr ⟨.responderHandle profile, hpipe⟩⟩

theorem inv_start : Inv m P root clients ({} : State workers) where
  stays := rfl
  pipe := Pipeline.inv_start
  valid := fun _ => rfl
  sent := fun _ => .inl List.nil_prefix
  closed := fun _ h => by cases h
  unread := fun _ _ => rfl
  reading := fun _ h => by cases h

/-- **Every state of a benign run keeps the invariant.** -/
theorem Inv.reach (h : (system m P root workers).Reach (Benign m clients) s) :
    Inv m P root clients s := by
  refine h.invariant (I := Inv m P root clients) ?_ fun s t l hs hok hstep => (hs.step hok hstep).1
  rintro s rfl
  exact inv_start

/-- **The daemon refines the pipeline**: in a benign run its threads do what those of a pipeline
do whose sockets deliver. -/
theorem refines (h : (system m P root workers).Reach (Benign m clients) s) :
    (Pipeline.system P root clients.payload workers).Reachable s.pipe := by
  refine h.simulation State.pipe ?_ fun s t l hs hok hstep => ((Inv.reach hs).step hok hstep).2
  rintro s rfl
  rfl

/-! ## The law -/

/-- A reading whose client has sent the whole frame is at its end or goes on. -/
theorem ReadingOf.goes_on {s : State workers} {c : Connection} {payload : Bytes}
    (hserves : Serves m c payload) (hsent : m.order.u64.frame payload <+: c.sent)
    (h : ReadingOf c payload s.now s.reading) :
    s.reading = .returned payload
      ∨ ∃ a c' reading, s.answer m c = some (a, c') ∧ s.reading.step m.order a = some reading := by
  unfold State.answer
  cases hr : s.reading with
  | enter part len => exact .inr ⟨_, _, _, rfl, rfl⟩
  | test part raw => exact .inr ⟨_, _, _, rfl, rfl⟩
  | recv part raw =>
    rw [hr] at h
    obtain ⟨hlen, hbytes, htaken, -⟩ := h
    have hthere : min (raw.len - raw.bytes.length) maxTransfer ≤ c.incoming.length := by
      have hframe := hsent.length_le
      rw [length_frame] at hframe
      rw [hlen, hbytes, Connection.incoming, List.length_drop, htaken]
      refine le_trans (Nat.min_le_left _ _) ?_
      cases part with
      | length => exact Nat.le_sub_of_add_le (le_trans (Nat.le_add_right 8 _) hframe)
      | body => exact Nat.le_sub_of_add_le (by rwa [Nat.add_comm] at hframe)
    exact .inr ⟨_, _, _, recv_there hserves.valid hthere, rfl⟩
  | alloc length => exact .inr ⟨_, _, _, rfl, rfl⟩
  | returned st =>
    rw [hr] at h
    exact .inl (congrArg _ h)
  | thrown what =>
    rw [hr] at h
    exact absurd h id

/-- **Where the daemon waits, its pipeline waits**, if the frames of all requests are there. -/
theorem Inv.quiescent (h : Inv m P root clients s)
    (hsent : ∀ socket ∈ s.pipe.accepted.map (·.2),
      frameOf m clients socket <+: (s.connections socket).sent)
    (hquiet : (system m P root workers).Quiescent Label.isOutside s) :
    (Pipeline.system P root clients.payload workers).Quiescent Pipeline.Label.isAccept s.pipe := by
  have hstep (l : Label workers) (hl : ¬ l.isOutside) : s.step m P root l = none := hquiet l hl
  unfold State.step at hstep
  simp only [h.pipe.live.alive, Bool.false_eq_true, if_false] at hstep
  intro l hl
  show s.pipe.step P root clients.payload l = none
  have hpipe : s.stepPipe P root l = none := hstep (.pipe l) id
  cases l with
  | accept => exact absurd trivial hl
  | resolverHandle =>
    cases hr : s.pipe.resolver with
    | handling request =>
      have hin := h.pipe.mem_accepted (mem_sockets_resolver hr)
      obtain hreading | ⟨a, c, reading, hanswer, hreading⟩ :=
        (h.reading request hr).goes_on (h.serves _) (hsent _ hin)
      · have hhandle : s.resolverHandle P root = none := hstep .resolverHandle id
        simp only [State.resolverHandle, hreading, Option.map_eq_none_iff] at hhandle
        rwa [h.step_resolverHandle hr]
      · have hread : s.read m = none := hstep .read id
        simp [State.read, hr, hanswer, hreading] at hread
    | waiting => simp [Pipeline.State.step, hr]
    | sending work => simp [Pipeline.State.step, hr]
  | responderHandle profile =>
    have hhandle : s.responderHandle m P profile = none := hstep (.responderHandle profile) id
    unfold State.responderHandle at hhandle
    split at hhandle
    · dsimp only at hhandle
      split at hhandle
      · simpa [Pipeline.State.step, h.pipe.live.alive] using hhandle
      · cases hhandle
    · rename_i hresponder
      simp [Pipeline.State.step, Pipeline.State.responderHandle, hresponder]
  | _ =>
    rw [Pipeline.step_payload _ (fun _ => []) (by simp)]
    exact Option.map_eq_none_iff.mp hpipe

theorem Inv.not_blocked (h : Inv m P root clients s) : ¬ s.Blocked := by
  intro hblocked
  obtain ⟨request, part, raw, hr, hreading, hnone, hpast⟩ := hblocked
  have hof := h.reading request hr
  rw [hreading] at hof
  rcases hof with ⟨-, hbytes, -, hnow | hsome⟩
  · exact absurd hnow (Nat.not_lt.mpr hpast)
  · rw [hbytes, List.length_nil, Nat.sub_zero] at hnone
    rw [hnone] at hsome
    cases hsome

/-- **The daemon survives what is benign.** For any payloads of the client's format and any number
of workers, in every state of a benign run: no thread has left its message loop, the Resolver is
not blocked in `recv` behind the deadline of its `readRaw`, and, where there is a worker, whenever
the frames of all accepted requests are there and the daemon can do nothing by itself, every one of
them has been answered. -/
theorem survives (m : Machine) (P : Platform) (root : Command) (clients : WellBehaved P)
    {workers : Nat} {s : State workers}
    (h : (system m P root workers).Reach (Benign m clients) s) :
    s.left = none ∧ s.pipe.terminated = false ∧ ¬ s.Blocked
      ∧ (0 < workers →
        (∀ socket ∈ s.pipe.accepted.map (·.2),
          frameOf m clients socket <+: (s.connections socket).sent) →
        (system m P root workers).Quiescent Label.isOutside s →
        ∀ socket ∈ s.pipe.accepted.map (·.2), socket ∈ s.pipe.written.map (·.1)) := by
  have hinv := Inv.reach h
  refine ⟨hinv.stays, hinv.pipe.live.alive, hinv.not_blocked, fun hworkers hsent hquiet => ?_⟩
  intro socket hin
  exact (Pipeline.Inv.reachable (refines h)).answered_of_quiescent hworkers
    (hinv.quiescent hsent hquiet) hin

/-! ## A benign run, and some that are not -/

open WorkPoolWorker (mutePlatform mutePayload muteRoot)

/-- A machine with the memory it needs. -/
def muteMachine : Machine := { order := .little, memory := maxTransfer, memory_suffices := le_rfl }

/-- Every client asks for `mute`, and behaves. -/
def wellBehaved : WellBehaved mutePlatform where
  toClients := Pipeline.muteClients
  fits := fun _ => show (mutePayload "5").length ≤ maxTransfer by decide

/-- What such a client sends. -/
def muteFrame : Bytes := ByteOrder.little.u64.frame (mutePayload "5")

/-- The way to its response: the frame is read in two calls of `recv`. -/
def toResponse : List (Label 1) :=
  [.accept 7, .pipe .serverSend, .pipe .resolverReceive, .read, .read, .read, .read, .read, .read,
    .read, .resolverHandle, .pipe .resolverSend, .pipe .workPoolReceive, .pipe .workPoolHandle]
  ++ Pipeline.toAnswer.dropLast.map .pipe ++ [.responderHandle .null]

/-- The client of socket 7 has sent its frame. -/
def sent : State 1 := ({} : State 1).setConnection 7 { sent := muteFrame }

/-- Its response is written. -/
def served : State 1 :=
  ((system muteMachine mutePlatform muteRoot 1).run sent toResponse).getD {}

/-- The client that behaves is answered. -/
theorem survives_served : served.left = none ∧ ¬ served.Blocked
    ∧ 7 ∈ served.pipe.written.map (·.1) := by
  have hsent : (system muteMachine mutePlatform muteRoot 1).Reach
      (Benign muteMachine wellBehaved) sent :=
    .step (.init rfl) (l := .clientSend 7 muteFrame) (.inl List.prefix_rfl) rfl
  have hrun : (system muteMachine mutePlatform muteRoot 1).run sent toResponse = some served := rfl
  have hbenign (l : Label 1) (hl : l ∈ toResponse) (s : State 1) :
      Benign muteMachine wellBehaved s l := by
    cases l with
    | tick | clientSend | clientClose | acceptFails => simp [toResponse, Pipeline.toAnswer] at hl
    | responderHandle => exact fun _ _ => Nat.zero_le _
    | _ => trivial
  have hserved := hsent.run hbenign hrun
  have hpipe (l : Pipeline.Label 1) : served.step muteMachine mutePlatform muteRoot (.pipe l)
      = none := by
    cases l with
    | workerReceive i | workerHandle i | workerSend i =>
      cases Subsingleton.elim i 0
      rfl
    | _ => rfl
  have hquiet : (system muteMachine mutePlatform muteRoot 1).Quiescent Label.isOutside served := by
    intro l hl
    cases l with
    | pipe l => exact hpipe l
    | read | resolverHandle | responderHandle => rfl
    | _ => exact absurd trivial hl
  obtain ⟨hstays, -, hblocked, hanswered⟩ :=
    survives muteMachine mutePlatform muteRoot wellBehaved hserved
  refine ⟨hstays, hblocked, hanswered Nat.one_pos (fun socket hin => ?_) hquiet 7 ?_⟩
  · obtain rfl : socket = 7 := List.mem_singleton.mp hin
    exact List.prefix_rfl
  · exact List.mem_singleton.mpr rfl

/-- The client of socket 7 sends nothing, that of socket 8 its frame; three seconds pass. -/
def silent : List (Label 1) :=
  [.accept 7, .pipe .serverSend, .pipe .resolverReceive, .read, .read, .accept 8,
    .pipe .serverSend, .clientSend 8 muteFrame, .tick (deadline 0)]

/-- The Resolver waits for socket 7. -/
def stalled : State 1 where
  pipe :=
    { idCounter := 2
      resolver := .handling { id := 1, socket := 7 }
      resolverBox := { messages := [{ id := 2, socket := 8 }], semaphore := 1 }
      accepted := [(1, 7), (2, 8)] }
  now := deadline 0
  connections := Function.update (Function.update (Function.update (fun _ => {}) 7 {}) 7 {}) 8
    { sent := muteFrame }
  reading := .recv .length { len := 8, until_ := deadline 0 }

/-- The client closes before it has sent anything. -/
def closing : List (Label 1) :=
  [.accept 7, .clientClose 7, .pipe .serverSend, .pipe .resolverReceive, .read, .read, .read,
    .tick 3000000000, .read]

/-- The client announces more bytes than there is memory. -/
def announcing : List (Label 1) :=
  [.accept 7, .clientSend 7 (ByteOrder.little.u64.encode (maxTransfer + 1)), .pipe .serverSend,
    .pipe .resolverReceive, .read, .read, .read, .read]

/-- There is no client. -/
def failing : List (Label 1) :=
  [.acceptFails 7, .pipe .serverSend, .pipe .resolverReceive, .read, .read, .read]

/-- The client closes before its response is written. -/
def leaving : List (Label 1) := .clientSend 7 muteFrame :: toResponse.dropLast
  ++ [.clientClose 7, .responderHandle .null]

/-- **One client that misbehaves is enough.** Behind one that sends nothing the Resolver is blocked
when its deadline has passed, and nobody else is answered; one that closes or announces too much,
and an accept that fails, end the Resolver; one that does not wait for its response ends the
Responder. -/
theorem misbehaving_clients :
    ((system muteMachine mutePlatform muteRoot 1).run {} silent = some stalled ∧ stalled.Blocked
      ∧ (system muteMachine mutePlatform muteRoot 1).Quiescent Label.isOutside stalled
      ∧ (2, 8) ∈ stalled.pipe.accepted ∧ (stalled.connections 8).sent = muteFrame
      ∧ 8 ∉ stalled.pipe.written.map (·.1))
    ∧ (∀ run ∈ [closing, announcing, failing],
      ((system muteMachine mutePlatform muteRoot 1).run {} run).map State.left
        = some (some .resolver))
    ∧ ((system muteMachine mutePlatform muteRoot 1).run {} leaving).map State.left
        = some (some .responder) := by
  refine ⟨⟨rfl, ⟨_, _, _, rfl, rfl, rfl, le_rfl⟩, fun l hl => ?_, ?_, rfl, List.not_mem_nil⟩,
    fun run hrun => ?_, by decide +kernel⟩
  · cases l with
    | pipe l => cases l <;> rfl
    | read | resolverHandle | responderHandle => rfl
    | _ => exact absurd trivial hl
  · exact List.mem_cons_of_mem _ List.mem_cons_self
  · simp only [List.mem_cons, List.not_mem_nil, or_false] at hrun
    rcases hrun with rfl | rfl | rfl <;> rfl

end Holchain.Holper.Daemon
