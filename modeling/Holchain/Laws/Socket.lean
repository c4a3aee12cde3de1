import Mathlib.Logic.Function.Iterate
import Holchain.Holper.Socket

/-!
# Laws.Socket — a stream of frames reads back

A `readRaw` takes what it asked for off the stream, however `recv` splits it (`Leads.raw`), and
times out where the stream ends before (`Leads.late`). So a whole frame is one message
(`Leads.frame`), and a part of one is none (`Leads.part`). The deadline matters only while bytes
are there to come: `Punctual`.
-/

namespace Holchain.Holper.UnixSocket

open Lib (LengthCode)

/-! ## Writing -/

/-- A write that throws nothing has put the whole frame on the stream, in two calls. -/
theorem write_ok {order : ByteOrder} {data : Message} {first : Sent 8}
    {second : Sent data.val.length} (h : (write order data first second).2 = .ok ()) :
    (write order data first second).1 = order.u64.frame data.val
      ∧ data.val.length ≤ maxTransfer := by
  obtain ⟨first, hfirst⟩ := first
  obtain ⟨second, hsecond⟩ := second
  obtain ⟨data, hdata⟩ := data
  unfold write at h ⊢
  dsimp only at h ⊢ hfirst hsecond
  split at h
  · cases h
  · rename_i h8
    rw [if_neg h8]
    split at h
    · cases h
    · rename_i hlen
      rw [if_neg hlen]
      have hwidth : (order.u64.encode data.length).length = 8 := by
        rw [order.u64.length_encode]
        cases order <;> rfl
      obtain rfl : first = 8 := by omega
      obtain rfl : second = data.length := by omega
      refine ⟨?_, by omega⟩
      simp only [LengthCode.frame]
      rw [List.take_of_length_le (by simp [hwidth]), List.take_of_length_le (by simp)]

/-! ## Reading -/

namespace Reader

variable {order : ByteOrder} {host : Host}

/-- A test of the deadline that is made while bytes are still to come is made before it. -/
def onTime (host : Host) (s : Reader) : Bool :=
  match s.reading with
  | .test _ raw => s.stream.isEmpty || decide (host.clock s.calls < raw.until_)
  | _ => true

/-- All bytes of the stream arrive before the deadlines of the reads they are for. -/
def Punctual (order : ByteOrder) (host : Host) (s : Reader) : Prop :=
  ∀ n, (s.after order host n).onTime host

/-- The reader comes from one state to the other. -/
def Leads (order : ByteOrder) (host : Host) (s t : Reader) : Prop :=
  ∃ n, s.after order host n = t

theorem Leads.refl (s : Reader) : Leads order host s s := ⟨0, rfl⟩

theorem Leads.trans {s t u : Reader} (h : Leads order host s t) (h' : Leads order host t u) :
    Leads order host s u := by
  obtain ⟨n, rfl⟩ := h
  obtain ⟨m, rfl⟩ := h'
  exact ⟨m + n, Function.iterate_add_apply _ m n s⟩

theorem Leads.of_next {s t : Reader} (h : s.next order host = t) : Leads order host s t :=
  ⟨1, h⟩

theorem Punctual.leads {s t : Reader} (hp : Punctual order host s) (h : Leads order host s t) :
    Punctual order host t := by
  obtain ⟨n, rfl⟩ := h
  intro m
  have := hp (m + n)
  rwa [after, Function.iterate_add_apply] at this

theorem next_returned {s : Reader} {st : Bytes} (h : s.reading = .returned st) :
    s.next order host = { s with reading := .start, returned := s.returned ++ [st] } := by
  unfold next
  rw [h]

theorem next_enter {s : Reader} {part : Part} {len : Nat} (h : s.reading = .enter part len) :
    s.next order host = { s with
      reading := .loop order part { len, until_ := deadline (host.clock s.calls) }
      calls := s.calls + 1 } := by
  unfold next answer
  simp only [h, Reading.step]

theorem next_test {s : Reader} {part : Part} {raw : ReadRaw} (h : s.reading = .test part raw)
    (hnow : host.clock s.calls < raw.until_) :
    s.next order host = { s with reading := .recv part raw, calls := s.calls + 1 } := by
  unfold next answer
  simp only [h, Reading.step, if_pos hnow]

theorem next_late {s : Reader} {part : Part} {raw : ReadRaw} (h : s.reading = .test part raw)
    (hnow : ¬ host.clock s.calls < raw.until_) :
    s.next order host = { s with reading := .thrown timedOut, calls := s.calls + 1 } := by
  unfold next answer
  simp only [h, Reading.step, if_neg hnow]

theorem next_recv {s : Reader} {part : Part} {raw : ReadRaw} (h : s.reading = .recv part raw)
    {n : Nat} (hn : n = recvSize host s.calls (raw.len - raw.bytes.length)) :
    s.next order host = { s with
      stream := s.stream.drop n
      reading := .loop order part { raw with bytes := raw.bytes ++ s.stream.take n }
      calls := s.calls + 1 } := by
  unfold next answer
  simp only [h, Reading.step, hn]

theorem next_alloc {s : Reader} {length : Nat} (h : s.reading = .alloc length)
    (hmem : length ≤ host.memory) :
    s.next order host = { s with reading := .enter .body length, calls := s.calls + 1 } := by
  unfold next answer
  simp only [h, Reading.step, hmem, decide_true, if_true]

theorem loop_missing {part : Part} {raw : ReadRaw} (h : raw.bytes.length < raw.len) :
    Reading.loop order part raw = .test part raw := if_pos h

/-- **`readRaw`'s loop takes what it asks for**, in however many pieces: all of what it still
needs, or all there is. -/
theorem Leads.raw (part : Part) {rest : Bytes} :
    ∀ (raw : ReadRaw) {d : Bytes} {s : Reader}, Punctual order host s →
      s.reading = .loop order part raw → s.stream = d ++ rest →
      raw.bytes.length + d.length ≤ raw.len →
      (rest = [] ∨ raw.bytes.length + d.length = raw.len) →
      ∃ calls, Leads order host s { s with
        stream := rest
        reading := .loop order part { raw with bytes := raw.bytes ++ d }
        calls } := by
  intro raw d
  induction hd : d.length using Nat.strongRecOn generalizing raw d with
  | ind length ih =>
    intro s hp hreading hstream hfit hend
    by_cases hnil : d = []
    · subst hnil
      refine ⟨s.calls, ?_⟩
      rw [List.append_nil, ← hreading, ← List.nil_append rest, ← hstream]
      exact Leads.refl s
    · have hpos : 0 < d.length := List.length_pos_iff.mpr hnil
      have hmissing : raw.bytes.length < raw.len := by omega
      have htest : s.reading = .test part raw := by
        rw [hreading, loop_missing hmissing]
      have hnow : host.clock s.calls < raw.until_ := by
        have : s.onTime host = true := hp 0
        simpa [onTime, htest, hstream, hnil] using this
      -- one piece, of `n` bytes, by way of the clock
      obtain ⟨n, hn⟩ : ∃ n, n = recvSize host (s.calls + 1) (raw.len - raw.bytes.length) :=
        ⟨_, rfl⟩
      have hn1 : 1 ≤ n := by
        rw [hn]
        exact Nat.le_max_left _ _
      have hnfit : n ≤ raw.len - raw.bytes.length := by
        rw [hn, recvSize]
        omega
      have htake : (d ++ rest).take n = d.take n := by
        rcases hend with rfl | heq
        · rw [List.append_nil]
        · exact List.take_append_of_le_length (by omega)
      have hdrop : (d ++ rest).drop n = d.drop n ++ rest := by
        rcases hend with rfl | heq
        · simp
        · exact List.drop_append_of_le_length (by omega)
      have hstep : Leads order host s { s with
          stream := d.drop n ++ rest
          reading := .loop order part { raw with bytes := raw.bytes ++ d.take n }
          calls := s.calls + 2 } := by
        refine (Leads.of_next (next_test htest hnow)).trans (Leads.of_next ?_)
        rw [next_recv rfl hn]
        simp only [hstream, htake, hdrop]
      have hlen : (d.drop n).length < length := by
        rw [List.length_drop]
        omega
      have hmin : (d.take n).length + (d.drop n).length = d.length := by
        rw [← List.length_append, List.take_append_drop]
      obtain ⟨calls, hrest⟩ := ih _ hlen _ rfl (hp.leads hstep) rfl rfl
        (by simp only [List.length_append]; omega)
        (hend.imp_right fun heq => by simp only [List.length_append]; omega)
      refine ⟨calls, hstep.trans ?_⟩
      simpa only [List.append_assoc, List.take_append_drop] using hrest

/-- **The loop times out at the end of the stream**: `recv` returns no bytes, again and again,
until the deadline. -/
theorem Leads.late (part : Part) (raw : ReadRaw) :
    ∀ {s : Reader}, s.reading = .loop order part raw → s.stream = [] →
      raw.bytes.length < raw.len →
      ∃ calls, Leads order host s { s with reading := .thrown timedOut, calls } := by
  intro s
  obtain ⟨late, hlate⟩ := host.clock_unbounded raw.until_
  induction hleft : late - s.calls using Nat.strongRecOn generalizing s with
  | ind left ih =>
    intro hreading hstream hmissing
    have htest : s.reading = .test part raw := by
      rw [hreading, loop_missing hmissing]
    by_cases hnow : host.clock s.calls < raw.until_
    · have hearly : s.calls < late := by
        by_contra hge
        have := hlate s.calls (by omega)
        omega
      have hround : Leads order host s { s with calls := s.calls + 2 } := by
        refine (Leads.of_next (next_test htest hnow)).trans (Leads.of_next ?_)
        rw [next_recv rfl rfl]
        simp only [hstream, List.take_nil, List.drop_nil, List.append_nil, ← hreading]
      obtain ⟨calls, hlast⟩ := ih (late - (s.calls + 2)) (by omega)
        (s := { s with calls := s.calls + 2 }) rfl hreading hstream hmissing
      exact ⟨calls, hround.trans hlast⟩
    · exact ⟨s.calls + 1, Leads.of_next (next_late htest hnow)⟩

/-- A stream that is too short for the loop is taken whole, and then the loop times out. -/
theorem Leads.short (part : Part) (raw : ReadRaw) {s : Reader} (hp : Punctual order host s)
    (hreading : s.reading = .loop order part raw)
    (hlen : raw.bytes.length + s.stream.length < raw.len) :
    ∃ calls, Leads order host s
      { s with stream := [], reading := .thrown timedOut, calls } := by
  obtain ⟨calls, hall⟩ := Leads.raw part raw hp hreading (List.append_nil s.stream).symm (by omega)
    (.inl rfl)
  obtain ⟨calls', hlate⟩ := Leads.late part { raw with bytes := raw.bytes ++ s.stream }
    (s := { s with
      stream := []
      reading := .loop order part { raw with bytes := raw.bytes ++ s.stream }
      calls }) rfl rfl (by simp only [List.length_append]; omega)
  exact ⟨calls', hall.trans hlate⟩

/-! ## Frames -/

theorem length_u64 (order : ByteOrder) (n : Nat) : (order.u64.encode n).length = 8 := by
  rw [order.u64.length_encode]
  cases order <;> rfl

theorem decode_u64 (order : ByteOrder) {n : Nat} (h : n ≤ maxTransfer) :
    order.u64.decode (order.u64.encode n) = n := by
  refine order.u64.decode_encode n (lt_of_le_of_lt h ?_)
  cases order <;> decide

theorem Leads.start (order : ByteOrder) (host : Host) {s : Reader} (h : s.reading = .start) :
    Leads order host s { s with
      reading := .loop order .length { len := 8, until_ := deadline (host.clock s.calls) }
      calls := s.calls + 1 } :=
  Leads.of_next (next_enter h)

/-- The length of a frame, read: the body comes next. -/
theorem Leads.length {s : Reader} {n : Nat} {rest : Bytes} (hp : Punctual order host s)
    (hstart : s.reading = .start) (hn : n ≤ maxTransfer)
    (hstream : s.stream = order.u64.encode n ++ rest) :
    ∃ raw calls, raw.len = n ∧ raw.bytes = [] ∧ Leads order host s
      { s with stream := rest, reading := .loop order .body raw, calls } := by
  have henter := Leads.start order host hstart
  obtain ⟨calls, hraw⟩ := Leads.raw .length
    { len := 8, until_ := deadline (host.clock s.calls) } (hp.leads henter) rfl hstream
    (by simp [length_u64]) (.inr (by simp [length_u64]))
  have halloc : Reading.loop order .length
      { len := 8, until_ := deadline (host.clock s.calls), bytes := order.u64.encode n }
      = .alloc n := by
    simp [Reading.loop, length_u64, decode_u64 order hn]
  refine ⟨_, _, ?_, ?_, (henter.trans hraw).trans ((Leads.of_next (next_alloc halloc
    (le_trans hn host.memory_suffices))).trans (Leads.of_next (next_enter rfl)))⟩
  · rfl
  · rfl

/-- **One frame, one message.** -/
theorem Leads.frame {s : Reader} {m rest : Bytes} (hp : Punctual order host s)
    (hstart : s.reading = .start) (hm : m.length ≤ maxTransfer)
    (hstream : s.stream = order.u64.frame m ++ rest) :
    ∃ calls, Leads order host s
      { s with stream := rest, returned := s.returned ++ [m], calls } := by
  rw [LengthCode.frame, List.append_assoc] at hstream
  obtain ⟨raw, calls, hlen, hbytes, hlength⟩ := Leads.length hp hstart hm hstream
  obtain ⟨calls', hraw⟩ := Leads.raw .body raw (hp.leads hlength) rfl rfl
    (by simp [hlen, hbytes]) (.inr (by simp [hlen, hbytes]))
  have hloop : Reading.loop order .body { raw with bytes := raw.bytes ++ m } = .returned m := by
    simp [Reading.loop, hlen, hbytes]
  refine ⟨calls', (hlength.trans hraw).trans (Leads.of_next ?_)⟩
  rw [next_returned hloop]
  simp only [hstart]

/-- **A part of a frame is no message**: the read throws. -/
theorem Leads.part {s : Reader} {m : Bytes} (hp : Punctual order host s)
    (hstart : s.reading = .start) (hm : m.length ≤ maxTransfer)
    (hpre : s.stream <+: order.u64.frame m) (hne : s.stream ≠ order.u64.frame m) :
    ∃ calls, Leads order host s
      { s with stream := [], reading := .thrown timedOut, calls } := by
  by_cases hlen : 8 ≤ s.stream.length
  · -- the stream ends in the body
    obtain ⟨body, hbody⟩ := List.prefix_of_prefix_length_le (List.prefix_append _ m) hpre
      (by rwa [length_u64])
    have hshort : body.length < m.length := by
      rw [← hbody, LengthCode.frame, List.prefix_append_right_inj] at hpre
      refine lt_of_le_of_ne hpre.length_le fun heq => hne ?_
      rw [← hbody, hpre.eq_of_length heq, LengthCode.frame]
    obtain ⟨raw, calls, hraw, hbytes, hlength⟩ := Leads.length hp hstart hm hbody.symm
    obtain ⟨calls', hshort⟩ := Leads.short .body raw (hp.leads hlength) rfl
      (by simp [hraw, hbytes]; omega)
    exact ⟨calls', hlength.trans hshort⟩
  · -- it ends in the length
    have henter := Leads.start order host hstart
    obtain ⟨calls, hshort⟩ := Leads.short .length
      { len := 8, until_ := deadline (host.clock s.calls) } (hp.leads henter) rfl
      (by simp; omega)
    exact ⟨calls, henter.trans hshort⟩

/-- **Many frames, as many messages.** -/
theorem Leads.frames {rest : Bytes} {ms : List Bytes} (hms : ∀ m ∈ ms, m.length ≤ maxTransfer) :
    ∀ {s : Reader}, Punctual order host s → s.reading = .start →
      s.stream = ms.flatMap order.u64.frame ++ rest →
      ∃ calls, Leads order host s
        { s with stream := rest, returned := s.returned ++ ms, calls } := by
  induction ms with
  | nil =>
    intro s _ _ hstream
    refine ⟨s.calls, ?_⟩
    rw [List.flatMap_nil, List.nil_append] at hstream
    rw [← hstream, List.append_nil]
    exact Leads.refl s
  | cons m ms ih =>
    intro s hp hstart hstream
    rw [List.flatMap_cons, List.append_assoc] at hstream
    obtain ⟨calls, hone⟩ := Leads.frame hp hstart (hms m List.mem_cons_self) hstream
    obtain ⟨calls', hrest⟩ :=
      ih (fun m' hm' => hms m' (List.mem_cons_of_mem _ hm')) (hp.leads hone) hstart rfl
    refine ⟨calls', hone.trans ?_⟩
    simpa only [List.append_assoc, List.singleton_append] using hrest

end Reader

/-! ## Both ends -/

/-- A call of `write`, with what `send` returns. -/
structure Write where
  data : Message
  first : Sent 8
  second : Sent data.val.length

/-- What it puts on the stream and throws. -/
def Write.run (order : ByteOrder) (w : Write) : Bytes × Except Bytes Unit :=
  write order w.data w.first w.second

/-- **What is written is read.** For every list of writes that throw nothing, however `recv` splits
the stream: the reads on its other end return exactly these messages in order, whatever comes
after them; and if the stream ends at a strict prefix, they return exactly the messages that are
wholly contained in it, and the next read throws. -/
theorem read_write (order : ByteOrder) (host : Host) (writes : List Write)
    (hok : ∀ w ∈ writes, (w.run order).2 = .ok ()) :
    (∀ rest, Reader.Punctual order host
        { stream := writes.flatMap (fun w => (w.run order).1) ++ rest } →
      ∃ n calls, Reader.after order host n
          { stream := writes.flatMap (fun w => (w.run order).1) ++ rest }
        = { stream := rest, returned := writes.map (·.data.val), calls })
    ∧ ∀ p, p <+: writes.flatMap (fun w => (w.run order).1) →
      p ≠ writes.flatMap (fun w => (w.run order).1) →
      Reader.Punctual order host { stream := p } →
      ∃ n calls, Reader.after order host n { stream := p }
        = { stream := []
            reading := .thrown timedOut
            returned := order.u64.within p.length (writes.map (·.data.val))
            calls } := by
  have hwire : writes.flatMap (fun w => (w.run order).1)
      = (writes.map (·.data.val)).flatMap order.u64.frame := by
    rw [List.flatMap_map]
    exact List.flatMap_congr fun w hw => (write_ok (hok w hw)).1
  have hfit : ∀ m ∈ writes.map (·.data.val), m.length ≤ maxTransfer := by
    intro m hm
    obtain ⟨w, hw, rfl⟩ := List.mem_map.mp hm
    exact (write_ok (hok w hw)).2
  rw [hwire]
  constructor
  · intro rest hp
    obtain ⟨calls, n, hn⟩ := Reader.Leads.frames hfit hp rfl rfl
    exact ⟨n, calls, hn⟩
  · intro p hpre hne hp
    obtain ⟨m, q, hm, hsplit, hq, hqne⟩ := LengthCode.prefix_frames _ hpre hne
    obtain ⟨calls, hwhole⟩ := Reader.Leads.frames
      (fun m' hm' => hfit m' (LengthCode.mem_of_mem_within _ hm')) hp rfl hsplit
    obtain ⟨calls', hlast⟩ := Reader.Leads.part (hp.leads hwhole) rfl (hfit m hm) hq hqne
    obtain ⟨n, hn⟩ := hwhole.trans hlast
    exact ⟨n, calls', hn⟩

/-- A host that is ready to return three bytes at a time. -/
def threeBytes : Host where
  clock := fun n => n
  size := fun _ => 3
  memory := maxTransfer
  clock_unbounded := fun t => ⟨t, fun _ h => h⟩
  memory_suffices := Nat.le_refl _

/-- The writes of `hi` and of the empty message. -/
def twoWrites : List Write :=
  [⟨⟨lit "hi", by decide⟩, ⟨8, by decide⟩, ⟨2, by decide⟩⟩,
    ⟨Message.empty, ⟨8, by decide⟩, ⟨0, by decide⟩⟩]

/-- Bytes that are gone do not come back. -/
theorem Reader.next_stream_nil {order : ByteOrder} {host : Host} {s : Reader}
    (h : s.stream = []) : (s.next order host).stream = [] := by
  obtain ⟨stream, reading, returned, calls⟩ := s
  obtain rfl : stream = [] := h
  unfold Reader.next Reader.answer
  cases reading <;> dsimp only <;> first | rfl | (split <;> simp)

/-- `hi` and the empty message, cut in the second length. -/
theorem read_write_two :
    ∃ n calls, Reader.after .little threeBytes n { stream := [2, 0, 0, 0, 0, 0, 0, 0, 104, 105, 0] }
      = { stream := [], reading := .thrown timedOut, returned := [lit "hi"], calls } := by
  have hpunctual : Reader.Punctual .little threeBytes
      { stream := [2, 0, 0, 0, 0, 0, 0, 0, 104, 105, 0] } := by
    have hearly : ∀ n < 16, (Reader.after .little threeBytes n
        { stream := [2, 0, 0, 0, 0, 0, 0, 0, 104, 105, 0] }).onTime threeBytes = true := by decide
    have hempty : ∀ n, (Reader.after .little threeBytes (n + 16)
        { stream := [2, 0, 0, 0, 0, 0, 0, 0, 104, 105, 0] }).stream = [] := by
      intro n
      induction n with
      | zero => decide
      | succ n ih =>
        rw [Nat.succ_add, Reader.after, Function.iterate_succ_apply']
        exact Reader.next_stream_nil ih
    intro n
    by_cases hn : n < 16
    · exact hearly n hn
    · obtain ⟨k, rfl⟩ := Nat.exists_eq_add_of_le' (Nat.le_of_not_lt hn)
      unfold Reader.onTime
      rw [hempty k]
      split <;> rfl
  have := (read_write .little threeBytes twoWrites (by decide)).2
    [2, 0, 0, 0, 0, 0, 0, 0, 104, 105, 0] (by decide) (by decide) hpunctual
  exact this

end Holchain.Holper.UnixSocket
