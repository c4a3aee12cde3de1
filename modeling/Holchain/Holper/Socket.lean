import Holchain.Lib.Framing
import Holchain.Holper.Text

/-!
# Holper.Socket — frames on a stream socket

`UnixSocket::write` puts a message behind its length, the 8 bytes of a `u64` in the byte order of
the host. `UnixSocket::read` is followed call by call: a `Reading` is the place where a thread
stands in it, with its local variables, and `Reading.step` is what it does with the answer to its
next call, of the clock, of `recv` or of `new`.

Times are nanoseconds of the monotonic clock.
-/

namespace Holchain.Holper

open Lib (LengthCode)

/-- The byte order of a host. -/
inductive ByteOrder where
  | little
  | big
  deriving DecidableEq, Repr

/-- `u64` in memory. -/
def ByteOrder.u64 : ByteOrder → LengthCode UInt8
  | .little => .littleEndian 8
  | .big => .bigEndian 8

/-- No call of `send` or `recv` moves more bytes than this. -/
def maxTransfer : Nat := 0x7ffff000

/-- What `send` of `len` bytes returns: -1, or how many it took. -/
abbrev Sent (len : Nat) := { n : Int // -1 ≤ n ∧ n ≤ min len maxTransfer }

namespace UnixSocket

/-- `(unsigned)`. -/
def unsigned (n : Int) : Bytes := decimal (n % 2 ^ 32)

/-- `write`: what goes on the stream, and what is thrown, for what the two calls of `send`
return. -/
def write (order : ByteOrder) (data : Message) (first : Sent 8) (second : Sent data.val.length) :
    Bytes × Except Bytes Unit :=
  let datalen := data.val.length
  let length := (order.u64.encode datalen).take first.val.toNat
  if first.val % 2 ^ 64 ≠ 8 then
    (length, .error (thrown "socket.cpp" 55
      (lit "Partial write (" ++ unsigned first.val ++ lit " out of " ++ unsigned 8 ++ lit ")")))
  else
    let sent := length ++ data.val.take second.val.toNat
    if second.val % 2 ^ 64 ≠ datalen then
      (sent, .error (thrown "socket.cpp" 60
        (lit "Partial write (" ++ unsigned second.val ++ lit " out of " ++ decimal datalen
          ++ lit ")")))
    else (sent, .ok ())

/-! ## Reading -/

/-- `readRaw`'s arguments and local variables: `bytes` is what `dest` holds so far, so that
`total_read` is its length. -/
structure ReadRaw where
  len : Nat
  until_ : Nat
  bytes : Bytes := []

/-- Which of its two `readRaw` calls `read` is in. -/
inductive Part where
  | length
  | body
  deriving DecidableEq, Repr

/-- Where a thread stands in `read`. -/
inductive Reading where
  /-- `readRaw` is called: it asks the clock for its deadline -/
  | enter (part : Part) (len : Nat)
  /-- the loop's condition asks the clock -/
  | test (part : Part) (raw : ReadRaw)
  /-- at `recv` -/
  | recv (part : Part) (raw : ReadRaw)
  /-- at `new char[length]` -/
  | alloc (length : Nat)
  | returned (st : Bytes)
  | thrown (what : Bytes)

/-- The answer to a call. -/
inductive Answer where
  | clock (now : Nat)
  /-- `recv` has put these bytes into the buffer; none at the end of the stream -/
  | received (chunk : Bytes)
  /-- `recv` returned -1 -/
  | failed (errno : Bytes)
  /-- whether `new` got the memory -/
  | memory (granted : Bool)

/-- The deadline of a `readRaw` entered now: `until += TimeDelta(3.0)`. -/
def deadline (now : Nat) : Nat := now + 3 * 10 ^ 9

/-- The text of the exception behind the loop. -/
def timedOut : Bytes := thrown "socket.cpp" 78 (lit "Unix socket read timed out!")

namespace Reading

/-- `read` is called. -/
def start : Reading := .enter .length 8

/-- What follows the loop's first conjunct: the clock where bytes are missing, else the code
behind the loop. -/
def loop (order : ByteOrder) (part : Part) (raw : ReadRaw) : Reading :=
  if raw.bytes.length < raw.len then .test part raw
  else
    match part with
    | .length => .alloc (order.u64.decode raw.bytes)
    | .body => .returned raw.bytes

/-- `read` and `readRaw`, from one call to the next. -/
def step (order : ByteOrder) : Reading → Answer → Option Reading
  | .enter part len, .clock now => some (loop order part { len, until_ := deadline now })
  | .test part raw, .clock now =>
    some (if now < raw.until_ then .recv part raw else .thrown timedOut)
  | .recv part raw, .received chunk =>
    some (loop order part { raw with bytes := raw.bytes ++ chunk })
  | .recv _ _, .failed errno =>
    some (.thrown (Holper.thrown "socket.cpp" 72
      (lit "Cannot read from unix socket: " ++ errno)))
  | .alloc length, .memory granted =>
    some (if granted then .enter .body length else .thrown (lit "std::bad_alloc"))
  | _, _ => none

end Reading

/-! ## Successive reads -/

/-- What the reader's host does: what the clock says and how many bytes `recv` is ready to return
at each call, and how much memory there is. -/
structure Host where
  clock : Nat → Nat
  size : Nat → Nat
  memory : Nat
  /-- time does not stand still -/
  clock_unbounded : ∀ t, ∃ n, ∀ m, n ≤ m → t ≤ clock m
  /-- a message that was sent with one call fits -/
  memory_suffices : maxTransfer ≤ memory

/-- A thread that reads one message after the other from a stream: `stream` is what is still to
come before its end. -/
structure Reader where
  stream : Bytes
  reading : Reading := .start
  returned : List Bytes := []
  /-- the calls made so far -/
  calls : Nat := 0

namespace Reader

/-- What `recv` of `len` bytes takes off a stream: not none and no more than asked for, where there
are any. -/
def recvSize (host : Host) (calls len : Nat) : Nat :=
  max 1 (min (host.size calls) (min len maxTransfer))

/-- The answer to the next call, and what it leaves on the stream. -/
def answer (host : Host) (s : Reader) : Answer × Bytes :=
  match s.reading with
  | .recv _ raw =>
    let n := recvSize host s.calls (raw.len - raw.bytes.length)
    (.received (s.stream.take n), s.stream.drop n)
  | .alloc length => (.memory (length ≤ host.memory), s.stream)
  | _ => (.clock (host.clock s.calls), s.stream)

/-- The next call, or the next `read`; nothing follows an exception. -/
def next (order : ByteOrder) (host : Host) (s : Reader) : Reader :=
  match s.reading with
  | .returned st => { s with reading := .start, returned := s.returned ++ [st] }
  | _ =>
    let (answer, stream) := s.answer host
    match s.reading.step order answer with
    | some reading => { s with reading, stream, calls := s.calls + 1 }
    | none => s

/-- After so many calls. -/
def after (order : ByteOrder) (host : Host) (n : Nat) (s : Reader) : Reader :=
  (next order host)^[n] s

end Reader

end UnixSocket

end Holchain.Holper
