import Std.Data.TreeMap.Lemmas
import Std.Data.TreeSet.Lemmas
import Holchain.Holper.Platform

/-!
# Holper.ParamSpec — request parameters and their declarations

`Parameters` keeps what a request supplies in two maps, its string members and all others.
`ParamSpec` is both the declaration of an action's parameters and their validation: every
declaration looks at the string map at once, bumps the counters of its keys or adds to the reason
to refuse, and `failReason` looks for what no declaration accounted for.

A `std::map` is a `TreeMap`: `insert` keeps an entry that is there (`insertIfNew`), `operator[]`
overwrites it (`insert`), and a loop runs in the order of the keys. An exception is its `what()`.
-/

namespace Holchain.Holper

open Std (TreeMap TreeSet)

/-- `Parameters`. -/
structure Parameters where
  parameters : TreeMap Bytes Bytes := ∅
  rawParameters : TreeMap Bytes Json := ∅

/-- `Parameters::get<T>`: the value, and whether the parameter exists. -/
def Parameters.get (P : Platform) (t : ParamType) (name : Bytes) (ps : Parameters) :
    Option (t.Value P) × Bool :=
  match ps.parameters[name]? with
  | none => (none, false)
  | some text => (St.to P t text, true)

/-- `ParamSpec::SingleParamSpec`. -/
structure SingleParamSpec where
  name : Bytes
  type : Bytes
  help : Bytes
  keys : TreeSet Bytes

/-- `ParamSpec`. -/
structure ParamSpec where
  parameters : Parameters
  counters : TreeMap Bytes Int := ∅
  parametersAccountedFor : TreeSet Bytes := ∅
  failReason_ : Bytes := []
  validate : Bool
  paramSpecs : List SingleParamSpec := []
  keyRestrictions : TreeMap Bytes (Int × Int) := ∅

namespace ParamSpec

/-- `addFailReason`. -/
def addFailReason (st : Bytes) (ps : ParamSpec) : ParamSpec :=
  { ps with failReason_ := ps.failReason_ ++ (st ++ lit ", ") }

/-- One turn of the loop over a parameter's keys. -/
def countKey (counters : TreeMap Bytes Int) (key : Bytes) : TreeMap Bytes Int :=
  match counters[key]? with
  | none => counters.insertIfNew key 1
  | some n => counters.insert key (n + 1)

/-- `param<T>(name, keys, help)`. -/
def param (P : Platform) (t : ParamType) (name : Bytes) (keys : TreeSet Bytes) (help : Bytes)
    (ps : ParamSpec) : Except Bytes ParamSpec :=
  if ps.parametersAccountedFor.contains name then
    .error (thrown "request.h" 123
      (lit "Parameter " ++ cStr name ++ lit " specified multiple times!"))
  else
    let ps := { ps with
      parametersAccountedFor := ps.parametersAccountedFor.insert name
      paramSpecs := ps.paramSpecs ++ [{ name, type := t.text, help, keys }] }
    if !ps.validate then .ok ps
    else
      match ps.parameters.get P t name with
      | (none, true) =>
        let text := ((ps.parameters.get P .string name).1).getD []
        .ok (ps.addFailReason (lit "parameter " ++ cStr name ++ lit " is not "
          ++ P.object t.text ++ lit ": \"" ++ cStr text ++ lit "\""))
      | (some _, true) => .ok { ps with counters := keys.toList.foldl countKey ps.counters }
      | (_, false) => .ok ps

/-- `key(key, min, max)`: `max` is -1 where there is no upper bound. -/
def key (key : Bytes) (min max : Int) (ps : ParamSpec) : Except Bytes ParamSpec :=
  if min < 0 ∨ (max ≠ -1 ∧ max < min) then
    .error (thrown "request.h" 148 (lit "Invalid key specification: " ++ cStr key
      ++ lit " (min:" ++ decimal min ++ lit ", max:" ++ decimal max ++ lit ")"))
  else
    let ps := { ps with keyRestrictions := ps.keyRestrictions.insert key (min, max) }
    if !ps.validate then .ok ps
    else
      let val := ps.counters[key]?.getD 0
      let has (bound : String) (n : Int) : Bytes :=
        lit "has " ++ decimal val ++ lit " " ++ cStr key ++ lit (" (" ++ bound ++ ":")
          ++ decimal n ++ lit ")"
      let ps := if val < min then ps.addFailReason (has "min" min) else ps
      let ps := if val > max ∧ max ≠ -1 then ps.addFailReason (has "max" max) else ps
      .ok ps

/-- One turn of `failReason`'s loop over the string parameters. -/
def unexpected (ps : ParamSpec) (entry : Bytes × Bytes) : ParamSpec :=
  if ps.parametersAccountedFor.contains entry.1 then ps
  else ps.addFailReason (lit "was not expecting param " ++ cStr entry.1 ++ lit " with value \""
    ++ cStr entry.2 ++ lit "\"")

/-- `failReason()`, called once: the reasons collected so far and those of the parameters nothing
accounted for, without the last separator. -/
def failReason (ps : ParamSpec) : Option Bytes :=
  let ps := ps.parameters.parameters.toList.foldl unexpected ps
  if ps.failReason_.isEmpty then none else some ps.failReason_.dropLast.dropLast

/-! ## Help -/

/-- One declared parameter in the help text. -/
def helpParam (spec : SingleParamSpec) : Bytes :=
  lit "  " ++ spec.name
    ++ (if spec.type ≠ lit "none" then lit ":VALUE(" ++ spec.type ++ lit ")" else [])
    ++ lit ": " ++ spec.help ++ lit "\n"

/-- What the help text says of a key's bounds. -/
def helpBounds (min max : Int) : Bytes :=
  if min = 1 ∧ max = 1 then lit "Must have one of:"
  else if min = 0 ∧ max = 1 then lit "Must have at most one of:"
  else if min = 1 ∧ max = -1 then lit "Must have at least one of:"
  else if max = -1 then lit "Must have at least " ++ decimal min ++ lit " of:"
  else if min = 0 ∧ max = -1 then lit "Must have zero or more of:"
  else lit "Must have at least " ++ decimal min ++ lit " and at most " ++ decimal max ++ lit "of:"

/-- `help()`. -/
def help (ps : ParamSpec) : Bytes :=
  if ps.paramSpecs.isEmpty then lit "Takes no arguments"
  else
    lit "Arguments:\n" ++ ps.paramSpecs.flatMap helpParam
      ++ ps.keyRestrictions.toList.flatMap fun (name, min, max) =>
        helpBounds min max
          ++ (ps.paramSpecs.filter (·.keys.contains name)).flatMap fun spec => lit " " ++ spec.name

/-! ## Declarations as data

What an action's `spec(ParamSpec&)` does is a chain of `param` and `key` calls. -/

/-- The arguments of `param<T>(name, keys, help)`. -/
structure ParamDeclaration where
  type : ParamType
  name : Bytes
  keys : TreeSet Bytes
  help : Bytes

/-- The arguments of `key(key, min, max)`. -/
structure KeyDeclaration where
  key : Bytes
  min : Int
  max : Int

/-- One call of the chain. -/
inductive Declaration where
  | param (d : ParamDeclaration)
  | key (d : KeyDeclaration)

/-- The call itself. -/
def Declaration.apply (P : Platform) : Declaration → ParamSpec → Except Bytes ParamSpec
  | .param d, ps => ps.param P d.type d.name d.keys d.help
  | .key d, ps => ps.key d.key d.min d.max

/-- A chain of calls. -/
def declareAll (P : Platform) : List Declaration → ParamSpec → Except Bytes ParamSpec
  | [], ps => .ok ps
  | d :: ds, ps => (d.apply P ps).bind (declareAll P ds)

/-! ## Small laws -/

/-- A reason, once there, stays, and is never empty. -/
@[simp] theorem addFailReason_ne_nil (st : Bytes) (ps : ParamSpec) :
    (ps.addFailReason st).failReason_ ≠ [] := by
  have : lit ", " ≠ [] := by decide
  simp [addFailReason, this]

/-- Counting a key changes its counter alone. -/
theorem countKey_getD (counters : TreeMap Bytes Int) (key k : Bytes) :
    (countKey counters key)[k]?.getD 0 = counters[k]?.getD 0 + if key = k then 1 else 0 := by
  unfold countKey
  split
  · rename_i hnone
    rw [TreeMap.getElem?_insertIfNew]
    have hnew : key ∉ counters := by
      rw [TreeMap.mem_iff_isSome_getElem?, hnone]
      simp
    by_cases h : key = k
    · subst h
      simp [hnew]
    · simp [h]
  · rename_i n hsome
    rw [TreeMap.getElem?_insert]
    by_cases h : key = k
    · subst h
      simp [hsome]
    · simp [h]

/-- Counting a list of distinct keys. -/
theorem foldl_countKey_getD {keys : List Bytes} (hnd : keys.Nodup) (counters : TreeMap Bytes Int)
    (k : Bytes) :
    (keys.foldl countKey counters)[k]?.getD 0
      = counters[k]?.getD 0 + if k ∈ keys then 1 else 0 := by
  induction keys generalizing counters with
  | nil => simp
  | cons key keys ih =>
    obtain ⟨hnotin, hnd⟩ := List.nodup_cons.mp hnd
    rw [List.foldl_cons, ih hnd, countKey_getD]
    by_cases h : key = k
    · subst h
      simp [hnotin]
    · simp [h, Ne.symm h]

/-- Counting the keys of a declaration: a set counts each of its keys once. -/
theorem countKeys_getD (keys : TreeSet Bytes) (counters : TreeMap Bytes Int) (k : Bytes) :
    (keys.toList.foldl countKey counters)[k]?.getD 0
      = counters[k]?.getD 0 + if k ∈ keys then 1 else 0 := by
  have hnd : keys.toList.Nodup := by
    refine TreeSet.distinct_toList.imp ?_
    intro a b hab heq
    exact hab (by simp [heq])
  rw [foldl_countKey_getD hnd]
  simp only [TreeSet.mem_toList]

/-- The loop over the supplied parameters leaves no reason exactly where there was none and every
name is accounted for. -/
theorem foldl_unexpected (entries : List (Bytes × Bytes)) (ps : ParamSpec) :
    (entries.foldl unexpected ps).failReason_ = []
      ↔ ps.failReason_ = [] ∧ ∀ e ∈ entries, e.1 ∈ ps.parametersAccountedFor := by
  induction entries generalizing ps with
  | nil => simp
  | cons e entries ih =>
    rw [List.foldl_cons, ih]
    unfold unexpected
    split
    · rename_i h
      simp [TreeSet.mem_iff_contains.mpr h]
    · rename_i h
      simp only [addFailReason_ne_nil, false_and, List.mem_cons, forall_eq_or_imp, false_iff]
      intro hall
      exact h (TreeSet.mem_iff_contains.mp hall.2.1)

/-- **`failReason` returns nothing exactly where no declaration found a reason and every supplied
string parameter is accounted for.** -/
theorem failReason_eq_none (ps : ParamSpec) :
    ps.failReason = none ↔ ps.failReason_ = []
      ∧ ∀ name ∈ ps.parameters.parameters, name ∈ ps.parametersAccountedFor := by
  unfold failReason
  rw [ite_eq_left_iff]
  simp only [reduceCtorEq, imp_false, Decidable.not_not, List.isEmpty_iff, foldl_unexpected]
  refine and_congr_right fun _ => ⟨fun h name hname => ?_, fun h e he => ?_⟩
  · obtain ⟨text, htext⟩ := Option.isSome_iff_exists.mp (TreeMap.mem_iff_isSome_getElem?.mp hname)
    exact h (name, text) (TreeMap.mem_toList_iff_getElem?_eq_some.mpr htext)
  · refine h e.1 (TreeMap.mem_iff_isSome_getElem?.mpr ?_)
    rw [TreeMap.mem_toList_iff_getElem?_eq_some.mp he]
    rfl

end ParamSpec

end Holchain.Holper
