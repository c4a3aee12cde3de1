import Holchain.Holper.Machine

/-!
# Holper.Clipboard — the password generator
-/

namespace Holchain.Holper.GeneratePasswordAction

open ParamSpec (ParamDeclaration)

variable {P : Platform}

/-- `kLower`. -/
def kLower : Bytes := lit "abcdefghijklmnopqrstuvwxyz"

/-- `kUpper`. -/
def kUpper : Bytes := lit "ABCDEFGHIJKLMNOPQRSTUVWXYZ"

/-- `kNumeric`. -/
def kNumeric : Bytes := lit "1234567890"

/-- `kSpecial`. -/
def kSpecial : Bytes := lit "!@#$%^&*()_+-="

/-- `spec`'s `minmaxspec`. -/
def minmaxspec (name : Bytes) : List ParamDeclaration :=
  [⟨.int, lit "min_" ++ name, .ofList [lit ""], lit "minimum number of " ++ name ++ lit " chars"⟩,
    ⟨.int, lit "max_" ++ name, .ofList [lit ""], lit "maximum number of " ++ name ++ lit " chars"⟩]

/-- The `param` calls of `spec`. -/
def params : List ParamDeclaration :=
  minmaxspec (lit "lower") ++ minmaxspec (lit "upper") ++ minmaxspec (lit "numeric")
    ++ minmaxspec (lit "special")
    ++ [⟨.int, lit "length", .ofList [lit "length"], lit "password length"⟩]

/-- `spec`. -/
def spec : Spec := { declarations := params.map .param ++ [.key ⟨lit "length", 1, 1⟩] }

/-! ## `actOn` -/

/-- A limit and its alphabet: the numbers still to be picked of the minimum and of the maximum. -/
structure Limit where
  first : Int
  second : Int
  alpha : Bytes

/-- `getordefault`. -/
def getordefault (params : Parameters) (name : Bytes) (mindef maxdef : Int) :
    Body P (Int × Int) := do
  let val := (params.get P .int (lit "min_" ++ name)).1
  let mut first := mindef
  if val.isSome then
    first := ← .deref val
  let val := (params.get P .int (lit "max_" ++ name)).1
  let mut second := maxdef
  if val.isSome then
    second := ← .deref val
  if second < first then
    first := second
  return (first, toInt32 (second - first))

/-- `getmin` and `getmax`, the part of a limit that is picked from. -/
inductive Getter where
  | min
  | max

/-- Reading that part. -/
def Getter.get : Getter → Limit → Int
  | .min, limit => limit.first
  | .max, limit => limit.second

/-- `getter(limit)--`. -/
def Getter.decrement : Getter → Limit → Limit
  | .min, limit => { limit with first := toInt32 (limit.first - 1) }
  | .max, limit => { limit with second := toInt32 (limit.second - 1) }

/-- `calc_size_for`. -/
def calcSizeFor (getter : Getter) (limit : Limit) : Nat :=
  if getter.get limit ≠ 0 then limit.alpha.length else 0

/-- `process_if_match` on every limit in turn: the limits afterwards, and what is pushed. -/
def processIfMatch (getter : Getter) : Int → List Limit → Body P (List Limit × Bytes)
  | _, [] => pure ([], [])
  | pick, limit :: rest => do
    if 0 ≤ pick ∧ getter.get limit ≠ 0 then
      let mut limit' := limit
      let mut pushed : Bytes := []
      if pick < limit.alpha.length then
        pushed := [← .index limit.alpha pick.toNat]
        limit' := getter.decrement limit
      let (rest, more) ← processIfMatch getter (pick - limit.alpha.length) rest
      return (limit' :: rest, pushed ++ more)
    else
      let (rest, more) ← processIfMatch getter pick rest
      return (limit :: rest, more)

/-- `iterate`. -/
def iterate (M : Machine P) (getter : Getter) (limits : List Limit) :
    Body P (List Limit × Bytes) := do
  let len := (limits.map (calcSizeFor getter)).sum
  let rand ← Filesystem.urandom M
  let pick ← .modulo rand.toNat len
  processIfMatch getter pick limits

/-- The loop that fills `result`: `i` runs up to `i + n`. -/
def fill (M : Machine P) (minlens : Int) : Nat → Nat → List Limit → Bytes → Body P Bytes
  | _, 0, _, result => pure result
  | i, n + 1, limits, result => do
    let (limits, pushed) ← iterate M (if (i : Int) < minlens then .min else .max) limits
    fill M minlens (i + 1) n limits (result ++ pushed)

/-- The loop that moves `result` to the password. -/
def shuffle (M : Machine P) : Nat → Bytes → Bytes → Body P Bytes
  | 0, _, password => pure password
  | n + 1, result, password => do
    let rand ← Filesystem.urandom M
    let pick ← .modulo rand.toNat result.length
    let c ← .index result pick
    shuffle M n (result.eraseIdx pick) (password ++ [c])

/-- `actOn`. -/
def actOn (M : Machine P) (params : Parameters) : Body P Json := do
  let len : Int ← .deref (params.get P .int (lit "length")).1
  let lower ← getordefault params (lit "lower") 1 len
  let upper ← getordefault params (lit "upper") 1 len
  let numeric ← getordefault params (lit "numeric") 1 len
  let special ← getordefault params (lit "special") 1 len
  -- `result.reserve(len)` with `len` as a `size_t`
  if len < 0 then
    .threw (lit "vector::reserve")
  let limits : List Limit :=
    [⟨lower.1, lower.2, kLower⟩, ⟨upper.1, upper.2, kUpper⟩, ⟨numeric.1, numeric.2, kNumeric⟩,
      ⟨special.1, special.2, kSpecial⟩]
  let minlens := toInt32 (toInt32 (toInt32 (lower.1 + upper.1) + numeric.1) + special.1)
  let result ← fill M minlens 0 len.toNat limits []
  let password ← shuffle M len.toNat result []
  .emit (.subprocess [lit "/usr/bin/xsel", lit "--input", lit "--clipboard"] password)
  return .string (lit "success")

end Holchain.Holper.GeneratePasswordAction
