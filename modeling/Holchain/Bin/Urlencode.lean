import Holchain.Bin.Shell

/-!
# Bin.Urlencode — `urlencode` and `urldecode`

`urlencode` is given characters: bash goes through a string character by character in a UTF-8
locale, and `printf '%02X' "'c"` writes the code point of `c`. `urldecode` rewrites the escapes
for `printf '%b'`, which writes bytes.
-/

namespace Holchain.Bin

open Holper (Bytes lit)

/-- An argument, character by character. -/
abbrev Text := List Char

/-- The bytes of a text. -/
def Text.utf8 (s : Text) : Bytes := s.flatMap String.utf8EncodeChar

/-- Every character is an ASCII character. -/
def Text.Ascii (s : Text) : Prop := ∀ c ∈ s, c.toNat < 128

/-- `[a-zA-Z0-9.~_-]`. -/
def isPlain (c : Char) : Bool :=
  ('a' ≤ c && c ≤ 'z') || ('A' ≤ c && c ≤ 'Z') || ('0' ≤ c && c ≤ '9')
    || c == '.' || c == '~' || c == '_' || c == '-'

/-- A digit of `%X`. -/
def hexDigit (n : ℕ) : UInt8 := .ofNat (if n < 10 then 48 + n else 55 + n)

/-- `%02X`. -/
def hex02 (n : ℕ) : Bytes :=
  if n < 256 then [hexDigit (n / 16), hexDigit (n % 16)] else hex02 (n / 16) ++ [hexDigit (n % 16)]

/-- `printf '%%%02X'`. -/
def percent02X (n : ℕ) : Bytes := 37 :: hex02 n

/-- `SPACE`. -/
def space : Bytes := percent02X 32

/-- What the loop writes for a character. -/
def urlencodeChar (c : Char) : Bytes :=
  if isPlain c then String.utf8EncodeChar c
  else if c = ' ' then space
  else percent02X c.toNat

/-- `urlencode`, of an argument. -/
def urlencode (inp : Text) : Bytes := inp.flatMap urlencodeChar

/-- The replacements of `urldecode`. -/
def urldecodeFormat (inp : Bytes) : Bytes :=
  let urlEncoded := inp.map fun c => if c = 43 then 32 else c
  urlEncoded.flatMap fun c => if c = 37 then lit "\\x" else [c]

/-- `urldecode`, of an argument. -/
def urldecode (inp : Bytes) : Bytes := (printf [.b] [urldecodeFormat inp]).text

/-- The script: without arguments it reads its input. -/
def urldecodeScript (args : List Bytes) (input : Bytes) : Bytes :=
  if args = [] then urldecode (substitute input) else urldecode (joined 32 args)

end Holchain.Bin
