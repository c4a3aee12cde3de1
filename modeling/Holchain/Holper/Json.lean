import Mathlib.Data.List.Basic
import Holchain.Holper.Text

/-!
# Holper.Json — values and their unchecked accessors

A rapidjson value: members of an object are kept in order and may repeat. `operator[]` and the
typed accessors check nothing and report nothing: what they need is asserted, and a failed
assertion ends the process. It is the error here.
-/

namespace Holchain.Holper

/-- `rapidjson::Value`. -/
inductive Json where
  | null
  | bool (b : Bool)
  | int (n : Int)
  | double (bits : UInt64)
  | string (s : Bytes)
  | array (elems : List Json)
  | object (members : List (Bytes × Json))

/-- The rapidjson assertion that fails. -/
inductive Assertion where
  /-- `operator[]` on a value that is no object -/
  | notObject
  /-- `operator[]` with a name the object does not have -/
  | noMember (name : Bytes)
  | getBool
  | getString
  | getArray
  | getObject
  deriving DecidableEq, Repr

namespace Json

/-- The first member of that name. -/
def findMember (members : List (Bytes × Json)) (name : Bytes) : Option Json :=
  (members.find? (·.1 == name)).map (·.2)

/-- `operator[]`. -/
def member (name : Bytes) : Json → Except Assertion Json
  | .object members =>
    match findMember members name with
    | some v => .ok v
    | none => .error (.noMember name)
  | _ => .error .notObject

/-- `GetBool`. -/
def getBool : Json → Except Assertion Bool
  | .bool b => .ok b
  | _ => .error .getBool

/-- `GetString` and `GetStringLength`. -/
def getString : Json → Except Assertion Bytes
  | .string s => .ok s
  | _ => .error .getString

/-- `GetArray`. -/
def getArray : Json → Except Assertion (List Json)
  | .array elems => .ok elems
  | _ => .error .getArray

/-- `GetObject`. -/
def getObject : Json → Except Assertion (List (Bytes × Json))
  | .object members => .ok members
  | _ => .error .getObject

theorem member_eq_ok {name : Bytes} {j v : Json} :
    j.member name = .ok v ↔ ∃ ms, j = .object ms ∧ findMember ms name = some v := by
  cases j with
  | object ms =>
    simp only [member, object.injEq, exists_eq_left']
    cases findMember ms name <;> simp
  | _ => simp [member]

theorem getBool_eq_ok {j : Json} {b : Bool} : j.getBool = .ok b ↔ j = .bool b := by
  cases j <;> simp [getBool]

theorem getArray_eq_ok {j : Json} {xs : List Json} : j.getArray = .ok xs ↔ j = .array xs := by
  cases j <;> simp [getArray]

theorem getObject_eq_ok {j : Json} {ms : List (Bytes × Json)} :
    j.getObject = .ok ms ↔ j = .object ms := by
  cases j <;> simp [getObject]

/-- Strings are read off an array exactly where all its elements are strings. -/
theorem mapM_getString_eq_ok {xs : List Json} {ss : List Bytes} :
    xs.mapM getString = .ok ss ↔ xs = ss.map .string := by
  induction xs generalizing ss with
  | nil => cases ss <;> simp [pure, Except.pure]
  | cons x xs ih =>
    rw [List.mapM_cons]
    cases x with
    | string s =>
      cases hrest : xs.mapM getString with
      | error e =>
        have hne : ∀ ss, xs ≠ List.map Json.string ss := fun ss h => by
          rw [ih.mpr h] at hrest
          cases hrest
        cases ss <;> simp [getString, bind, Except.bind, hne]
      | ok rest =>
        obtain rfl := ih.mp hrest
        cases ss with
        | nil => simp [getString, bind, Except.bind, pure, Except.pure]
        | cons s' ss =>
          have hinj : Function.Injective Json.string := fun a b h => by cases h; rfl
          simp [getString, bind, Except.bind, pure, Except.pure,
            (List.map_injective_iff.mpr hinj).eq_iff]
    | _ => cases ss <;> simp [getString, bind, Except.bind]

end Json

end Holchain.Holper
