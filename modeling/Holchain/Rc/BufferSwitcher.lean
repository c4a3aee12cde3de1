import Mathlib.Data.Int.Notation
import Mathlib.Data.Nat.Notation
import Mathlib.Logic.Function.Basic
import Holchain.Lib.Transition

/-!
# Rc.BufferSwitcher — the buffers of a list, of registers and the previous one

The operations of vim's python plugin on the variables of its class. What vim answers to `:buffer` is
part of an operation: the cursor in the buffer that it shows now, or an error. No buffer is called
`None`. `printregisters` only prints.
-/

namespace Holchain.Rc.Vim

/-- `vim.current.window.cursor`. -/
structure Cursor where
  line : ℕ
  col : ℕ
  deriving DecidableEq

/-- An element of `curlist`. -/
structure Entry where
  bufno : ℕ
  line : ℕ
  col : ℕ
  deriving DecidableEq

/-- `vim.current.buffer.number` and the cursor. -/
structure Window where
  number : ℕ
  cursor : Cursor
  deriving DecidableEq

/-- The variables of the class, and what vim shows. -/
structure BufferSwitcher where
  curlist : List Entry
  curidx : ℤ
  reglist : String → Option ℕ
  prevbufno : Option ℕ
  window : Window

namespace BufferSwitcher

/-- An exception. -/
inductive Error where
  /-- `IndexError` -/
  | index
  /-- `vim.error` -/
  | vim
  deriving DecidableEq

/-- A method: what it has changed stays when it raises. -/
abbrev Method (α : Type) := ExceptT Error (StateM BufferSwitcher) α

/-- `xs[i]`; a negative index counts from the end. -/
def subscript (xs : List Entry) (i : ℤ) : Method Entry :=
  let i := if i < 0 then i + xs.length else i
  if i < 0 then throw .index
  else
    match xs[i.toNat]? with
    | some x => return x
    | none => throw .index

/-- `vim.command(f'buffer {bufno}')`. -/
def buffer (bufno : Option ℕ) (answer : Option Cursor) : Method Unit :=
  match bufno, answer with
  | some number, some cursor => modify fun s => { s with window := ⟨number, cursor⟩ }
  | _, _ => throw .vim

/-- `inc`. -/
def inc (inc : ℤ) (goto : Bool) (answer : Option Cursor) : Method Unit := do
  let s ← get
  if s.curlist.length < 1 then return
  set { s with
    prevbufno := some s.window.number
    curidx := (inc + s.curlist.length + s.curidx) % s.curlist.length }
  if goto then
    let s ← get
    let elem ← subscript s.curlist s.curidx
    buffer (some elem.bufno) answer

/-- `pop`. -/
def pop : Method Unit := do
  modify fun s => { s with curlist := s.curlist.filter fun x => x.bufno != s.window.number }
  inc 0 false none

/-- `push`. -/
def push : Method Unit := do
  pop
  modify fun s => { s with
    curidx := s.curlist.length
    curlist := s.curlist ++ [⟨s.window.number, s.window.cursor.line, s.window.cursor.col⟩] }

/-- `purge`. -/
def purge : Method Unit := modify fun s => { s with curlist := [] }

/-- `gotoprev`. -/
def gotoprev (answer : Option Cursor) : Method Unit := do
  let s ← get
  set { s with prevbufno := some s.window.number }
  buffer s.prevbufno answer

/-- `register`, with the character that is typed. -/
def register (reg : String) : Method Unit :=
  modify fun s => { s with reglist := Function.update s.reglist reg (some s.window.number) }

/-- `gotoregister`, with the character that is typed. -/
def gotoregister (reg : String) (answer : Option Cursor) : Method Unit := do
  let s ← get
  set { s with prevbufno := some s.window.number }
  match s.reglist reg with
  | some elem => buffer (some elem) answer
  | none => return

/-! ## Sequences -/

/-- An operation of the user. -/
inductive Operation where
  | push
  | pop
  | purge
  | inc (k : ℤ) (answer : Option Cursor)
  | gotoprev (answer : Option Cursor)
  | register (reg : String)
  | gotoregister (reg : String) (answer : Option Cursor)

/-- The method that is called. -/
def Operation.method : Operation → Method Unit
  | .push => BufferSwitcher.push
  | .pop => BufferSwitcher.pop
  | .purge => BufferSwitcher.purge
  | .inc k answer => BufferSwitcher.inc k true answer
  | .gotoprev answer => BufferSwitcher.gotoprev answer
  | .register reg => BufferSwitcher.register reg
  | .gotoregister reg answer => BufferSwitcher.gotoregister reg answer

/-- An operation, and the exception that it raises. -/
def perform (s : BufferSwitcher) (op : Operation) : Except Error Unit × BufferSwitcher :=
  op.method.run.run s

/-- The state behind an operation. -/
def after (s : BufferSwitcher) (op : Operation) : BufferSwitcher := (s.perform op).2

/-- What happens: an operation, or vim shows something else. -/
inductive Event where
  | operation (op : Operation)
  | moved (window : Window)

/-- The class as it is loaded. -/
def initial (window : Window) : BufferSwitcher where
  curlist := []
  curidx := -1
  reglist _ := none
  prevbufno := none
  window := window

/-- Operations, with the shown buffer changed arbitrarily between them. -/
def system : Lib.System BufferSwitcher Event where
  init s := ∃ window, s = initial window
  step s
    | .operation op => some (s.after op)
    | .moved window => some { s with window := window }

end BufferSwitcher

end Holchain.Rc.Vim
