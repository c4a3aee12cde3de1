import Mathlib.Data.List.Basic
import Mathlib.Logic.Function.Basic
import Holchain.Lib.Pipe
import Holchain.Lib.Transition
import Holchain.Holper.Text

/-!
# Holper.Subprocess — a child program behind three pipes

The two processes of a `Subprocess` after its constructor: the parent, in a call of `write` for
each string or in `finish`, and the child, which runs some program. The write end of the child's
stdin waits while the pipe is full; its stdout and stderr refuse what does not fit
(`O_NONBLOCK`). How many bytes a `read` or `write` moves is decided by the kernel and part of the
label.

The parent reads stdout and stderr only after `waitpid` has returned, and then both write ends
are closed.
-/

namespace Holchain.Holper.Subprocess

open Lib (Pipe)

/-! ## The child -/

/-- `stdout` and `stderr`. -/
inductive Stream where
  | stdout
  | stderr
  deriving DecidableEq, Repr

/-- The next call a program makes, and how it goes on. -/
inductive Act (σ : Type) where
  /-- reading stdin: no bytes are the end of file -/
  | read (k : Bytes → σ)
  /-- writing: `k` is given the number of bytes that were taken -/
  | write (stream : Stream) (data : Bytes) (k : ℕ → σ)
  | exit

/-- One state follows another without a byte being read. -/
inductive Act.Quiet {σ : Type} (act : σ → Act σ) : σ → σ → Prop
  | read {s : σ} {k : Bytes → σ} : act s = .read k → Quiet act (k []) s
  | write {s : σ} {stream : Stream} {data : Bytes} {k : ℕ → σ} (n : ℕ) :
      act s = .write stream data k → Quiet act (k n) s

/-- A program that reads its stdin to the end, writes what it likes in between, and exits. -/
structure Program where
  State : Type
  start : State
  act : State → Act State
  /-- it has read the end of file -/
  ended : State → Bool
  ended_start : ended start = false
  ended_read : ∀ {s k} (b : Bytes), act s = .read k → b ≠ [] → ended (k b) = ended s
  ended_eof : ∀ {s k}, act s = .read k → ended (k []) = true
  ended_write : ∀ {s stream data k} (n : ℕ), act s = .write stream data k → ended (k n) = ended s
  ended_exit : ∀ {s}, act s = .exit → ended s = true
  /-- it does not go on for ever without reading a byte -/
  halts : WellFounded (Act.Quiet act)

/-! ## The two processes -/

/-- The capacities of the pipes. -/
structure Capacity where
  stdin : ℕ
  out : Stream → ℕ
  stdin_pos : 0 < stdin

/-- Where the parent is. -/
inductive Parent where
  /-- in `write`, with what is left of its argument, or before the next call -/
  | writing (left : Bytes) (rest : List Bytes)
  /-- in `waitpid` -/
  | waiting
  /-- in `readFromPipe`, with what it has got of each stream -/
  | reading (stream : Stream) (got : Stream → Bytes)
  /-- `finish` has returned `out` and `err` -/
  | returned (got : Stream → Bytes)

/-- The two processes and their pipes. -/
structure State (prog : Program) (cap : Capacity) where
  parent : Parent
  child : prog.State
  exited : Bool := false
  stdin : Pipe UInt8 cap.stdin := .empty
  out (stream : Stream) : Pipe UInt8 (cap.out stream) := .empty
  /-- what the child has read -/
  received : Bytes := []
  /-- what the child has passed to its calls of `write` -/
  tried : Stream → Bytes := fun _ => []

variable {prog : Program} {cap : Capacity}

/-- `finish` has closed the write end of stdin. -/
def Parent.closed : Parent → Bool
  | .writing _ _ => false
  | _ => true

/-- The buffer of `readFromPipe`. -/
def bufSize : ℕ := 1024

/-- A step of the parent. -/
def parentStep (n : ℕ) (s : State prog cap) : Option (State prog cap) :=
  match s.parent with
  | .writing [] (data :: rest) => some { s with parent := .writing data rest }
  | .writing [] [] => some { s with parent := .waiting }
  | .writing (b :: left) rest =>
    if 0 < n ∧ n ≤ (b :: left).length then
      (s.stdin.put ((b :: left).take n)).map fun stdin =>
        { s with stdin, parent := .writing ((b :: left).drop n) rest }
    else none
  | .waiting => if s.exited then some { s with parent := .reading .stdout fun _ => [] } else none
  | .reading stream got =>
    match (s.out stream).content with
    | [] =>
      match stream with
      | .stdout => some { s with parent := .reading .stderr got }
      | .stderr => some { s with parent := .returned got }
    | b :: more =>
      if 0 < n ∧ n ≤ bufSize ∧ n ≤ (b :: more).length then
        some { s with
          out := Function.update s.out stream ((s.out stream).drop n)
          parent :=
            .reading stream (Function.update got stream (got stream ++ (b :: more).take n)) }
      else none
  | .returned _ => none

/-- A step of the child. -/
def childStep (n : ℕ) (s : State prog cap) : Option (State prog cap) :=
  if s.exited then none
  else
    match prog.act s.child with
    | .read k =>
      match s.stdin.content with
      | [] => if s.parent.closed then some { s with child := k [] } else none
      | b :: more =>
        if 0 < n ∧ n ≤ (b :: more).length then
          some { s with
            stdin := s.stdin.drop n
            child := k ((b :: more).take n)
            received := s.received ++ (b :: more).take n }
        else none
    | .write stream data k =>
      ((s.out stream).offer data n).map fun pipe =>
        { s with
          out := Function.update s.out stream pipe
          child := k n
          tried := Function.update s.tried stream (s.tried stream ++ data) }
    | .exit => some { s with exited := true }

/-- Whose call goes on, and how many bytes it moves. -/
inductive Label where
  | parent (n : ℕ)
  | child (n : ℕ)

/-- Writing the strings to a new `Subprocess` and calling `finish`. -/
def system (prog : Program) (cap : Capacity) (strings : List Bytes) :
    Lib.System (State prog cap) Label where
  init s := s = { parent := .writing [] strings, child := prog.start }
  step s
    | .parent n => parentStep n s
    | .child n => childStep n s

end Holchain.Holper.Subprocess
