import Holchain.Lib.Regex

/-!
# Lib.Bre — basic regular expressions

POSIX's basic regular expressions: a pattern is cut into tokens (`tokens`), which are read with the
groups that are open (`parse`). What POSIX leaves undefined, or up to an implementation, has no
reading; a locale says what classes and ranges of characters are.

A pattern of ordinary characters and periods matches the lines that look like it in some place
(`found_dotted`).
-/

namespace Holchain.Lib.Bre

/-- What a locale decides. -/
structure Locale where
  /-- `[:name:]` -/
  cls : String → Option (Char → Bool)
  /-- whether a character is in a range -/
  within : Char → Char → Char → Bool
  /-- `[=c=]` -/
  equivalent : Char → Char → Bool

/-- The parts of a pattern. -/
inductive Token where
  | char (c : Char)
  | set (p : Char → Bool)
  | star
  | interval (least : ℕ) (most : Option ℕ)
  | caret
  | dollar
  | opened
  | closed
  | back (n : ℕ)

/-! ## Tokens

A function that reads at the front of a text returns how many characters it has used. -/

section Tokens

variable (loc : Locale)

/-- An element of a bracket expression that begins with `c`: a character or some characters. -/
def element (c : Char) (cs : List Char) : Option ((Char ⊕ (Char → Bool)) × ℕ) :=
  if c = '[' then
    match cs with
    | ':' :: rest =>
      let name := rest.takeWhile (· ≠ ':')
      if [':', ']'] <+: rest.drop name.length then
        (loc.cls (String.ofList name)).map fun p => (.inr p, name.length + 3)
      else none
    | '=' :: a :: '=' :: ']' :: _ => some (.inr (loc.equivalent a), 4)
    | '.' :: a :: '.' :: ']' :: _ => some (.inl a, 4)
    | '=' :: _ => none
    | '.' :: _ => none
    | _ => some (.inl c, 0)
  else some (.inl c, 0)

/-- An element or a range. A hyphen that is not the first or the last one is only in a range. -/
def item (first : Bool) (c : Char) (cs : List Char) : Option ((Char → Bool) × ℕ) :=
  if c = '-' ∧ first = false ∧ cs.head? ≠ some ']' then none
  else
    match element loc c cs with
    | none => none
    | some (.inr p, n) => some (p, n)
    | some (.inl a, n) =>
      match cs.drop n with
      | '-' :: d :: rest =>
        if d = ']' then some ((· == a), n)
        else
          match element loc d rest with
          | some (.inl b, m) => some (loc.within a b, n + 2 + m)
          | _ => none
      | _ => some ((· == a), n)

/-- The items of a bracket expression up to its end; some characters are read already. -/
def items : Bool → ℕ → List Char → Option (List (Char → Bool) × ℕ)
  | _, _, [] => none
  | _, n + 1, _ :: cs => (items false n cs).map fun (ps, m) => (ps, m + 1)
  | first, 0, c :: cs =>
    if c = ']' ∧ first = false then some ([], 1)
    else do
      let (p, n) ← item loc first c cs
      let (ps, m) ← items false n cs
      some (p :: ps, m + 1)

/-- Behind a bracket. -/
def bracket (cs : List Char) : Option (Token × ℕ) :=
  if cs.head? = some '^' then
    (items loc true 0 cs.tail).map fun (ps, n) => (.set fun c => !ps.any (· c), n + 1)
  else (items loc true 0 cs).map fun (ps, n) => (.set fun c => ps.any (· c), n)

/-- The number of decimal digits. -/
def number (digits : List Char) : ℕ := digits.foldl (fun n c => 10 * n + (c.toNat - 48)) 0

/-- The most repetitions that every implementation has. -/
def dupMax : ℕ := 255

/-- Behind `\{`. -/
def interval (cs : List Char) : Option (Token × ℕ) :=
  let low := cs.takeWhile Char.isDigit
  let rest := cs.drop low.length
  let high := rest.tail.takeWhile Char.isDigit
  if low = [] ∨ dupMax < number low then none
  else if ['\\', '}'] <+: rest then
    some (.interval (number low) (some (number low)), low.length + 2)
  else if rest.head? = some ',' ∧ ['\\', '}'] <+: rest.tail.drop high.length then
    if high = [] then some (.interval (number low) none, low.length + 3)
    else if number high < number low ∨ dupMax < number high then none
    else some (.interval (number low) (some (number high)), low.length + high.length + 3)
  else none

/-- Behind a backslash. -/
def escaped : List Char → Option (Token × ℕ)
  | [] => none
  | c :: cs =>
    if c ∈ ['.', '[', '\\', '*', '^', '$'] then some (.char c, 1)
    else if c = '(' then some (.opened, 1)
    else if c = ')' then some (.closed, 1)
    else if c = '{' then (interval cs).map fun (t, n) => (t, n + 1)
    else if '1' ≤ c ∧ c ≤ '9' then some (.back (c.toNat - 48), 1)
    else none

/-- The token that begins with a character. -/
def token (c : Char) (cs : List Char) : Option (Token × ℕ) :=
  if c = '\\' then escaped cs
  else if c = '[' then bracket loc cs
  else if c = '.' then some (.set fun _ => true, 0)
  else if c = '*' then some (.star, 0)
  else if c = '^' then some (.caret, 0)
  else if c = '$' then some (.dollar, 0)
  else some (.char c, 0)

/-- The tokens of a pattern; some characters are read already. -/
def tokens : ℕ → List Char → Option (List Token)
  | _, [] => some []
  | n + 1, _ :: cs => tokens n cs
  | 0, c :: cs => do
    let (t, n) ← token loc c cs
    let ts ← tokens n cs
    some (t :: ts)

end Tokens

/-! ## Reading -/

/-- What stands before a repetition. -/
inductive Last where
  /-- the beginning, perhaps with an anchor -/
  | start
  | atom
  | repeated
  deriving DecidableEq

/-- A group that is read, or the pattern itself: its parts, the last one first. -/
structure Frame where
  number : ℕ
  parts : List (Regex Char)
  last : Last

/-- What is read of a pattern: the open groups around the innermost one, how many groups there are,
and those that are closed. -/
structure Reading where
  around : List Frame
  top : Frame
  groups : ℕ
  closed : List ℕ

/-- Nothing is read. -/
def Reading.initial : Reading := ⟨[], ⟨0, [], .start⟩, 0, []⟩

/-- At least so often, and at most. -/
def times (r : Regex Char) (least : ℕ) : Option ℕ → Regex Char
  | none => .seq (.sequence (List.replicate least r)) (.star r)
  | some most =>
    .seq (.sequence (List.replicate least r))
      ((List.replicate (most - least) r).foldr (fun r rest => .opt (.seq r rest)) .empty)

namespace Reading

/-- One part more. -/
def push (s : Reading) (r : Regex Char) : Reading :=
  { s with top := { s.top with parts := r :: s.top.parts, last := .atom } }

/-- The last part is repeated; a repetition of one is undefined. -/
def again (s : Reading) (f : Regex Char → Regex Char) : Option Reading :=
  match s.top.last, s.top.parts with
  | .atom, r :: parts => some { s with top := { s.top with parts := f r :: parts, last := .repeated } }
  | _, _ => none

/-- One token more; `next` is the one behind it. -/
def step (s : Reading) (next : Option Token) : Token → Option Reading
  | .char c => some (s.push (.one (· == c)))
  | .set p => some (s.push (.one p))
  | .star => if s.top.last = .start then some (s.push (.one (· == '*'))) else s.again .star
  | .interval least most => s.again fun r => times r least most
  | .caret =>
    match s.top.parts, s.around with
    | [], [] => some { s with top := { s.top with parts := [.start] } }
    | [], _ :: _ => none
    | _ :: _, _ => some (s.push (.one (· == '^')))
  | .dollar =>
    match next with
    | none => some (s.push (.ahead List.isEmpty))
    | some .closed => none
    | some _ => some (s.push (.one (· == '$')))
  | .opened => some { s with
      around := s.top :: s.around
      top := ⟨s.groups + 1, [], .start⟩
      groups := s.groups + 1 }
  | .closed =>
    match s.around, s.top.parts with
    | frame :: around, part :: parts => some { s with
        around
        top := { frame with
          parts := .group s.top.number (.sequence (part :: parts).reverse) :: frame.parts
          last := .atom }
        closed := s.top.number :: s.closed }
    | _, _ => none
  | .back n => if n ∈ s.closed then some (s.push (.back n)) else none

/-- The tokens of a pattern to its end. -/
def parse : Reading → List Token → Option (Regex Char)
  | s, [] => if s.around.isEmpty then some (.sequence s.top.parts.reverse) else none
  | s, t :: ts => (s.step ts.head? t).bind fun s => s.parse ts

end Reading

/-- The reading of a pattern. -/
def parse (loc : Locale) (pattern : List Char) : Option (Regex Char) :=
  (tokens loc 0 pattern).bind Reading.initial.parse

/-- What `grep` says of a line. Where POSIX does not say it, or the pattern begins like an option,
it is a parameter. -/
def grepLine (loc : Locale) (other : List Char → List Char → Bool) (pattern line : List Char) : Bool :=
  if pattern.head? = some '-' then other pattern line
  else
    match parse loc pattern with
    | some r => r.found line
    | none => other pattern line

/-! ## Ordinary characters and periods -/

/-- A pattern without special characters but the period. -/
def Dotted (pattern : List Char) : Prop := ∀ c ∈ pattern, c ∉ ['\\', '[', '*', '^', '$']

instance (pattern : List Char) : Decidable (Dotted pattern) := List.decidableBAll _ pattern

/-- Characters that look like a pattern. -/
def Looks (pattern text : List Char) : Prop := List.Forall₂ (fun a c => a = '.' ∨ c = a) pattern text

theorem Looks.refl (pattern : List Char) : Looks pattern pattern :=
  List.forall₂_same.mpr fun _ _ => .inr rfl

variable {loc : Locale} {pattern : List Char}

/-- The token of a character of such a pattern. -/
def dottedToken (a : Char) : Token := if a = '.' then .set fun _ => true else .char a

/-- What it matches. -/
def piece (a : Char) : Char → Bool := if a = '.' then fun _ => true else (· == a)

theorem piece_iff (a c : Char) : piece a c = true ↔ a = '.' ∨ c = a := by
  unfold piece
  by_cases ha : a = '.'
  · rw [if_pos ha]
    exact ⟨fun _ => .inl ha, fun _ => rfl⟩
  · rw [if_neg ha, beq_iff_eq, or_iff_right ha]

theorem token_dotted {a : Char} (h : a ∉ ['\\', '[', '*', '^', '$']) (cs : List Char) :
    token loc a cs = some (dottedToken a, 0) := by
  simp only [List.mem_cons, List.not_mem_nil, or_false, not_or] at h
  obtain ⟨hbackslash, hbracket, hstar, hcaret, hdollar⟩ := h
  unfold token dottedToken
  rw [if_neg hbackslash, if_neg hbracket, if_neg hstar, if_neg hcaret, if_neg hdollar]
  split
  · rfl
  · rfl

theorem tokens_cons (loc : Locale) (c : Char) (cs : List Char) :
    tokens loc 0 (c :: cs) = (token loc c cs).bind fun (t, n) =>
      (tokens loc n cs).bind fun ts => some (t :: ts) := rfl

theorem tokens_dotted (h : Dotted pattern) :
    tokens loc 0 pattern = some (pattern.map dottedToken) := by
  induction pattern with
  | nil => rfl
  | cons a pattern ih =>
    obtain ⟨ha, hrest⟩ := List.forall_mem_cons.mp h
    rw [tokens_cons, token_dotted ha, Option.bind_some]
    dsimp only
    rw [ih hrest]
    rfl

theorem step_dotted (s : Reading) (next : Option Token) (a : Char) :
    s.step next (dottedToken a) = some (s.push (.one (piece a))) := by
  unfold dottedToken piece
  split
  · rfl
  · rfl

theorem parse_cons (s : Reading) (t : Token) (ts : List Token) :
    s.parse (t :: ts) = (s.step ts.head? t).bind fun s => s.parse ts := rfl

/-- Its tokens are read one after the other. -/
theorem parse_dotted (pattern : List Char) {s : Reading} (h : s.around = []) :
    s.parse (pattern.map dottedToken)
      = some (.sequence (s.top.parts.reverse ++ (pattern.map piece).map .one)) := by
  induction pattern generalizing s with
  | nil =>
    obtain ⟨around, top, groups, closed⟩ := s
    obtain rfl : around = [] := h
    rw [List.map_nil, List.map_nil, List.map_nil, List.append_nil]
    rfl
  | cons a pattern ih =>
    have hpush : (s.push (.one (piece a))).around = [] := h
    have hparts : (s.push (.one (piece a))).top.parts.reverse
        = s.top.parts.reverse ++ [.one (piece a)] := List.reverse_cons
    rw [List.map_cons, parse_cons, step_dotted, Option.bind_some, ih hpush, hparts,
      List.append_assoc]
    rfl

/-- **A pattern of ordinary characters and periods matches the lines that look like it in some
place.** -/
theorem grepLine_dotted (other : List Char → List Char → Bool) (h : Dotted pattern)
    (hoption : pattern.head? ≠ some '-') (line : List Char) :
    grepLine loc other pattern line = true ↔ ∃ w, Looks pattern w ∧ w <:+: line := by
  have hparse : parse loc pattern = some (.sequence ((pattern.map piece).map .one)) := by
    rw [parse, tokens_dotted h, Option.bind_some, parse_dotted pattern rfl]
    rfl
  rw [grepLine, if_neg hoption, hparse]
  apply (Regex.found_sequence_one _ _).trans
  have hlooks (w : List Char) :
      List.Forall₂ (fun p c => p c = true) (pattern.map piece) w ↔ Looks pattern w := by
    rw [List.forall₂_map_left_iff]
    simp only [piece_iff]
    rfl
  simp only [hlooks]
  constructor
  · rintro ⟨x, w, y, rfl, hw⟩
    exact ⟨w, hw, x, y, List.append_assoc _ _ _⟩
  · rintro ⟨w, hw, x, y, rfl⟩
    exact ⟨x, w, y, List.append_assoc _ _ _, hw⟩

/-- A pattern with a star may not look like its own lines. -/
example : grepLine loc (fun _ _ => false) ['a', '*', 'b'] ['a', '*', 'b'] = true ∧
    grepLine loc (fun _ _ => false) ['/', 'a', '*', 'b'] ['/', 'a', '*', 'b'] = false := ⟨rfl, rfl⟩

end Holchain.Lib.Bre
