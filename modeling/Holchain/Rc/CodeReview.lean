import Holchain.Rc.VimPy

/-!
# Rc.CodeReview — a review of files, one line for each

A line of a buffer begins with the path of a file. The buffer's cursor stands in the line of the file
that is under review; to keep or to discard the line goes on to the next one and opens its file. What
`edit` does with a path is vim's: here it is opened.
-/

namespace Holchain.Rc.Vim

/-- The buffer of `CodeReview.bufno`, and the paths that were opened with a line and a column. -/
structure CodeReview where
  review : Editor
  opened : List (List ℕ × ℕ × ℕ)

namespace CodeReview

/-- An exception. -/
inductive Error where
  | vimPy (error : VimPy.Error)
  /-- `TypeError`, of `*None` -/
  | type
  deriving DecidableEq

/-- A method: what it has changed stays when it raises. -/
abbrev Method (α : Type) := ExceptT Error (StateM CodeReview) α

variable (py : Python)

/-- A method of `vim_py` where the buffer is shown. -/
def inReview {α : Type} (method : VimPy.Method α) : Method α := do
  let s ← get
  let (result, review) := method.run.run s.review
  set { s with review }
  match result with
  | .ok value => return value
  | .error error => throw (.vimPy error)

/-- `vim_py.open_file(*vim_py.path_under_cursor())`. -/
def openFile : Method Unit := do
  match ← inReview (VimPy.pathUnderCursor py) with
  | none => throw .type
  | some target => modify fun s => { s with opened := s.opened ++ [target] }

/-- `vim.command(f'buffer {CodeReview.bufno}')`, from another buffer: as `startofline` is on, the
cursor is in the first column. -/
def buffer : Method Unit := modify fun s =>
  { s with review := { s.review with cursor := { s.review.cursor with col := 0 } } }

/-- `vim.command(f'call cursor({ln}, 1)')`: behind the last line it is the last one. -/
def cursor (ln : ℕ) : Method Unit := modify fun s =>
  { s with review := { s.review with cursor := ⟨min ln s.review.buffer.length, 0⟩ } }

/-- `again`. -/
def again : Method Unit := do
  buffer
  openFile py

/-- `keep`. -/
def keep : Method Unit := do
  buffer
  let s ← get
  let ln := s.review.cursor.line + 1
  cursor ln
  openFile py

/-- `del vim.current.buffer[i]`: a buffer has one line at least. -/
def del (i : ℕ) : Method Unit := modify fun s =>
  let lines := s.review.buffer.eraseIdx i
  { s with review := { s.review with buffer := if lines = [] then [[]] else lines } }

/-- `discard`. -/
def discard : Method Unit := do
  buffer
  let s ← get
  let ln := s.review.cursor.line
  del (ln - 1)
  let s ← get
  if s.review.buffer.length ≠ 0 then
    cursor ln
    openFile py

/-- What is done with the file under review. -/
inductive Operation where
  | again
  | keep
  | discard
  deriving DecidableEq

/-- One of them. -/
def perform : Operation → Method Unit
  | .again => again py
  | .keep => keep py
  | .discard => discard py

/-- One after another. -/
def performs (ops : List Operation) : Method Unit := ops.forM (perform py)

end CodeReview

end Holchain.Rc.Vim
