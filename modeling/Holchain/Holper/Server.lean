import Mathlib.Logic.Function.Basic
import Holchain.Holper.Text
import Holchain.Lib.Transition

/-!
# Holper.Server — daemons and the path of their socket

How a daemon comes to its socket: `main` removes what stands at the path, makes a socket, tells
systemd that it is ready, and `UnixSocket::serve` binds the socket to the path and listens. Any
number of daemons do so, each call by call, and one that ends leaves its socket at the path. A path
is a name of its own in a directory that is there.
-/

namespace Holchain.Holper.Server

/-- A path that `bind` takes for a name in the file system. -/
abbrev Path := { p : Bytes // p ≠ [] ∧ 0 ∉ p }

/-- `sizeof(addr.sun_path)`. -/
def sunPathSize : Nat := 108

/-- What may stand at a path besides the socket of a daemon. -/
inductive Leftover where
  /-- a file, or the socket of a process that has ended -/
  | file
  | directory
  /-- a symbolic link to nothing -/
  | dangling
  deriving DecidableEq

/-- What stands at a path. -/
inductive Entry (S : Type) where
  | leftover (l : Leftover)
  | socket (server : S)
  deriving DecidableEq

/-- Where a daemon stands, by its next call. -/
inductive Phase where
  /-- in `validateSocketPath` -/
  | stat
  | unlink
  /-- in `UnixSocket::UnixSocket` -/
  | socket
  /-- `sd_notify` -/
  | notify
  /-- in `UnixSocket::serve` -/
  | bind
  | listen
  | accept
  /-- an exception has left `main` -/
  | thrown (what : Bytes)
  | killed
  deriving DecidableEq

/-- What stands at the paths, and the daemons that were started. -/
structure State (S : Type) where
  entry : Path → Option (Entry S)
  phase : S → Option Phase

/-- What happens. -/
inductive Label (S : Type) where
  | start (server : S)
  /-- its next call -/
  | call (server : S)
  /-- its next call fails, where that is for the kernel to decide: `socket` or `listen` -/
  | fail (server : S) (errno : Bytes)
  | kill (server : S)

variable {S : Type} [DecidableEq S]

namespace State

/-- A daemon goes on. -/
def goto (s : State S) (i : S) (phase : Phase) : State S :=
  { s with phase := Function.update s.phase i (some phase) }

/-- The entry at a path is another one. -/
def setEntry (s : State S) (p : Path) (entry : Option (Entry S)) : State S :=
  { s with entry := Function.update s.entry p entry }

end State

/-- `validateSocketPath` up to `unlink`: `stat` follows a link. -/
def stat (s : State S) (p : Path) (i : S) : State S :=
  match s.entry p with
  | none => s.goto i .socket
  | some (.leftover .dangling) => s.goto i .socket
  | some _ => s.goto i .unlink

/-- `unlink`. -/
def unlink (s : State S) (p : Path) (i : S) : State S :=
  match s.entry p with
  | none =>
    s.goto i (.thrown (thrown "server.cpp" 37 (lit "Unlink failed: No such file or directory")))
  | some (.leftover .directory) =>
    s.goto i (.thrown (thrown "server.cpp" 37 (lit "Unlink failed: Is a directory")))
  | some _ => (s.setEntry p none).goto i .socket

/-- `serve` up to `listen`. -/
def bind (s : State S) (p : Path) (i : S) : State S :=
  if sunPathSize ≤ p.val.length then
    s.goto i (.thrown (thrown "socket.cpp" 97 (lit "Cannot create unix socket - path does not fit")))
  else
    match s.entry p with
    | none => (s.setEntry p (some (.socket i))).goto i .listen
    | some _ =>
      s.goto i (.thrown (thrown "socket.cpp" 101 (lit "Bind failed: Address already in use")))

/-- The next call of a daemon with this path. -/
def call (s : State S) (p : Path) (i : S) : Phase → Option (State S)
  | .stat => some (stat s p i)
  | .unlink => some (unlink s p i)
  | .socket => some (s.goto i .notify)
  | .notify => some (s.goto i .bind)
  | .bind => some (bind s p i)
  | .listen => some (s.goto i .accept)
  | .accept => none
  | .thrown _ => none
  | .killed => none

/-- The text of the exception, where a call can fail at any time. -/
def failure (errno : Bytes) : Phase → Option Bytes
  | .socket => some (thrown "socket.cpp" 16 (lit "Cannot create unix socket: " ++ errno))
  | .listen => some (thrown "socket.cpp" 104 (lit "Listen failed: " ++ errno))
  | _ => none

/-- Taking a step. -/
def step (path : S → Path) (s : State S) : Label S → Option (State S)
  | .start i => if s.phase i = none then some (s.goto i .stat) else none
  | .call i => (s.phase i).bind (call s (path i) i)
  | .fail i errno => ((s.phase i).bind (failure errno)).map fun what => s.goto i (.thrown what)
  | .kill i => (s.phase i).map fun _ => s.goto i .killed

/-- Daemons with these paths, where something may stand already. -/
def system (path : S → Path) (files : Path → Option Leftover) : Lib.System (State S) (Label S) where
  init s := s = ⟨fun p => (files p).map .leftover, fun _ => none⟩
  step := step path

/-- `UnixSocket::connect`: the daemon that a client reaches, or what is thrown. -/
def connect (s : State S) (p : Path) : Except Bytes S :=
  if sunPathSize ≤ p.val.length then
    .error (thrown "socket.cpp" 41 (lit "Cannot create unix socket - path does not fit"))
  else
    match s.entry p with
    | some (.socket i) =>
      if s.phase i = some .accept then .ok i
      else .error (thrown "socket.cpp" 46 (lit "Cannot connect unix socket: Connection refused"))
    | none =>
      .error (thrown "socket.cpp" 46 (lit "Cannot connect unix socket: No such file or directory"))
    | some (.leftover .dangling) =>
      .error (thrown "socket.cpp" 46 (lit "Cannot connect unix socket: No such file or directory"))
    | some (.leftover _) =>
      .error (thrown "socket.cpp" 46 (lit "Cannot connect unix socket: Connection refused"))

end Holchain.Holper.Server
