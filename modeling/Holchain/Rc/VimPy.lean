import Holchain.Lib.Regex
import Holchain.Rc.BufferSwitcher

/-!
# Rc.VimPy — the word and the path under the cursor

A line of a buffer is a string, with a lone surrogate for a byte that is no UTF-8, and the cursor's
column counts its bytes. Of Python a parameter says what `\w` and `\d` match beyond ASCII, and how
many digits `int` reads.
-/

namespace Holchain.Rc.Vim

open Lib (Regex)

/-- What `re` and `int` depend on. -/
structure Python where
  /-- `\w` -/
  word : ℕ → Bool
  /-- the digit that a character of `\d` stands for -/
  decimal : ℕ → Option ℕ
  /-- a colon is no digit -/
  colon : decimal ':'.toNat = none
  /-- `sys.get_int_max_str_digits()` -/
  maxDigits : Option ℕ

/-- The code points of a text. -/
def points (text : String) : List ℕ := text.toList.map Char.toNat

/-- `vim.current.buffer` and `vim.current.window.cursor`. Lines count from 1. -/
structure Editor where
  buffer : List (List ℕ)
  cursor : Cursor

/-- How many bytes of a line a character is. -/
def width (c : ℕ) : ℕ :=
  if c < 0x80 then 1
  else if c < 0x800 then 2
  else if 0xDC80 ≤ c ∧ c ≤ 0xDCFF then 1
  else if c < 0x10000 then 3
  else 4

namespace VimPy

/-- An exception. -/
inductive Error where
  /-- `IndexError` -/
  | index
  /-- `AttributeError`, of a match that there is not -/
  | attribute
  /-- `ValueError` -/
  | value
  deriving DecidableEq

/-- A method. -/
abbrev Method (α : Type) := ExceptT Error (StateM Editor) α

/-- `xs[i]`. -/
def subscript {α : Type} (xs : List α) (i : ℕ) : Method α :=
  match xs[i]? with
  | some x => return x
  | none => throw .index

variable (py : Python)

/-- `[\w/\.\-]`. -/
def inWord (c : ℕ) : Bool := py.word c || c = '/'.toNat || c = '.'.toNat || c = '-'.toNat

/-- `\d`. -/
def isDigit (c : ℕ) : Bool := (py.decimal c).isSome

/-- `.`. -/
def anyChar (c : ℕ) : Bool := c ≠ '\n'.toNat

/-- `$`. -/
def dollar : Regex ℕ := .ahead fun rest => rest = [] || rest = ['\n'.toNat]

/-- `^([\w/\.\-]*).*$`. -/
def wordRegex : Regex ℕ :=
  .seq .start (.seq (.group 1 (.star (.one (inWord py)))) (.seq (.star (.one anyChar)) dollar))

/-- A character of a pattern. -/
def char (c : Char) : Regex ℕ := .one (· = c.toNat)

/-- `^:(\d+)(:(\d+))?`. -/
def pathRegex : Regex ℕ :=
  .seq .start (.seq (char ':') (.seq (.group 1 (.plus (isDigit py)))
    (.opt (.group 2 (.seq (char ':') (.group 3 (.plus (isDigit py))))))))

/-- `re.match(regex, text).groups()[0]`. -/
def group0 (regex : Regex ℕ) (text : List ℕ) : Method (List ℕ) :=
  match (regex.first (.first text)).bind fun place => place.groups 1 with
  | some text => return text
  | none => throw .attribute

/-- The number of decimal digits. -/
def number (digits : List ℕ) : ℕ :=
  digits.foldl (fun n c => 10 * n + (py.decimal c).getD 0) 0

/-- `int`, of digits. -/
def int (digits : List ℕ) : Method ℕ :=
  match py.maxDigits with
  | some most => if most < digits.length then throw .value else return number py digits
  | none => return number py digits

/-- `wordpos_under_cursor`. -/
def wordposUnderCursor : Method (Option (ℕ × ℕ × ℕ)) := do
  let editor ← get
  let cur := editor.cursor
  let line ← subscript editor.buffer (cur.line - 1)
  if line.length = 0 then return none
  let cchar ← subscript line cur.col
  if cchar = ' '.toNat ∨ cchar = '\t'.toNat then
    set { editor with buffer := editor.buffer.insertIdx cur.line (points "wtf") }
    return none
  let left := line.take cur.col
  let right := line.drop cur.col
  let leftw ← group0 (wordRegex py) left.reverse
  let rightw ← group0 (wordRegex py) right
  return some (cur.line - 1, left.length - leftw.length, left.length + rightw.length)

/-- `path_under_cursor`. -/
def pathUnderCursor : Method (Option (List ℕ × ℕ × ℕ)) := do
  match ← wordposUnderCursor py with
  | none => return none
  | some (linenum, start, stop) =>
    let editor ← get
    let line ← subscript editor.buffer linenum
    let path := (line.take stop).drop start
    let right := line.drop stop
    match (pathRegex py).first (.first right) with
    | none => return some (path, 0, 0)
    | some res =>
      let line ← int py ((res.groups 1).getD [])
      match res.groups 3 with
      | none => return some (path, line, 0)
      | some digits =>
        let col ← int py digits
        return some (path, line, col)

end VimPy

end Holchain.Rc.Vim
