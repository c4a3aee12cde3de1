import Holchain.Holper.Resolver

/-!
# Laws.Resolver — which payloads the Resolver survives

`Reads doc content` says what a document of the client's shape holds. The handler forwards one
work for exactly these documents (`handleMessage_eq_ok`), and fails an assertion on all others.
-/

namespace Holchain.Holper.Resolver

open Std (TreeMap)
open CommandManager (resolveCommand)

/-- What the client puts into a payload. -/
structure Content where
  verbose : Bool
  tokens : List Bytes
  members : List (Bytes × Json)

/-- The document is an object whose `verbose` is a bool, whose `command` is an array of strings
and whose `parameters` is an object, with this content. -/
def Reads (doc : Json) (c : Content) : Prop :=
  ∃ ms, doc = .object ms
    ∧ Json.findMember ms (lit "verbose") = some (.bool c.verbose)
    ∧ Json.findMember ms (lit "command") = some (.array (c.tokens.map .string))
    ∧ Json.findMember ms (lit "parameters") = some (.object c.members)

/-- The work made of a content. -/
def workOf (root : Command) (request : Request) (c : Content) : Work :=
  { requestId := request.id
    command := resolveCommand root c.tokens
    parameters := splitParameters c.members
    finish := { request with verbose := c.verbose } }

variable {P : Platform} {root : Command} {request : Request} {payload : Bytes}

private theorem bind_eq_ok {ε α β : Type} {x : Except ε α} {f : α → Except ε β} {b : β} :
    (x >>= f) = .ok b ↔ ∃ a, x = .ok a ∧ f a = .ok b := by
  cases x <;> simp [bind, Except.bind]

/-- **The handler forwards one work, for exactly the payloads of the client's shape.** -/
theorem handleMessage_eq_ok {sent : List Sent} :
    handleMessage P root request payload = .ok sent
      ↔ ∃ c, Reads (document P payload) c ∧ sent = [.work (workOf root request c)] := by
  unfold handleMessage
  simp only [bind_eq_ok, Json.member_eq_ok, Json.getBool_eq_ok, Json.getArray_eq_ok,
    Json.mapM_getString_eq_ok, Json.getObject_eq_ok, pure, Except.pure, Except.ok.injEq]
  constructor
  · rintro ⟨_, ⟨ms, hdoc, hv⟩, verbose, rfl, _, ⟨ms₁, hdoc₁, ht⟩, _, rfl, tokens, rfl,
      _, ⟨ms₂, hdoc₂, hm⟩, members, rfl, rfl⟩
    rw [hdoc] at hdoc₁ hdoc₂
    cases hdoc₁
    cases hdoc₂
    exact ⟨⟨verbose, tokens, members⟩, ⟨ms, hdoc, hv, ht, hm⟩, rfl⟩
  · rintro ⟨c, ⟨ms, hdoc, hv, ht, hm⟩, rfl⟩
    exact ⟨_, ⟨ms, hdoc, hv⟩, c.verbose, rfl, _, ⟨ms, hdoc, ht⟩, _, rfl, c.tokens, rfl,
      _, ⟨ms, hdoc, hm⟩, c.members, rfl, rfl⟩

/-! ## What is kept of the parameters -/

/-- The first string member of a name. -/
def firstText (members : List (Bytes × Json)) (name : Bytes) : Option Bytes :=
  members.findSome? fun
    | (n, .string text) => if n = name then some text else none
    | _ => none

theorem foldl_insertMember (members : List (Bytes × Json)) (ps : Parameters) (name : Bytes) :
    (members.foldl insertMember ps).parameters[name]?
      = ps.parameters[name]?.or (firstText members name) := by
  induction members generalizing ps with
  | nil => simp [firstText]
  | cons m members ih =>
    obtain ⟨n, value⟩ := m
    rw [List.foldl_cons, ih]
    cases value with
    | string text =>
      simp only [insertMember, firstText, List.findSome?_cons,
        TreeMap.getElem?_insertIfNew]
      by_cases hn : n = name
      · subst hn
        by_cases hin : n ∈ ps.parameters <;> simp [hin]
      · simp [hn]
    | _ => simp [insertMember, firstText]

/-- The string map holds the first string member of each name. -/
theorem splitParameters_get (members : List (Bytes × Json)) (name : Bytes) :
    (splitParameters members).parameters[name]? = firstText members name := by
  rw [splitParameters, foldl_insertMember]
  simp

/-! ## All payloads -/

/-- **When the Resolver goes on.** For every payload, the handler returns normally with exactly
one message sent, a work or a response, if and only if the payload parses to an object whose
`verbose` is a bool, whose `command` is an array of strings and whose `parameters` is an object.
Every other payload fails an assertion. -/
theorem handleMessage_survives_iff (P : Platform) (root : Command) (request : Request)
    (payload : Bytes) :
    (∃ message, handleMessage P root request payload = .ok [message])
      ↔ ∃ ms, P.parse (cStr payload) = some (.object ms)
        ∧ (∃ b, Json.findMember ms (lit "verbose") = some (.bool b))
        ∧ (∃ tokens : List Bytes,
            Json.findMember ms (lit "command") = some (.array (tokens.map .string)))
        ∧ (∃ members, Json.findMember ms (lit "parameters") = some (.object members)) := by
  have hdoc (ms : List (Bytes × Json)) :
      document P payload = .object ms ↔ P.parse (cStr payload) = some (.object ms) := by
    unfold document
    cases P.parse (cStr payload) <;> simp
  simp only [handleMessage_eq_ok, List.cons.injEq, and_true]
  constructor
  · intro hsent
    obtain ⟨_, c, ⟨ms, hms, hv, ht, hm⟩, rfl⟩ := hsent
    exact ⟨ms, (hdoc ms).mp hms, ⟨_, hv⟩, ⟨_, ht⟩, ⟨_, hm⟩⟩
  · intro hshape
    obtain ⟨ms, hms, ⟨b, hv⟩, ⟨tokens, ht⟩, ⟨members, hm⟩⟩ := hshape
    exact ⟨_, ⟨b, tokens, members⟩, ⟨ms, (hdoc ms).mpr hms, hv, ht, hm⟩, rfl⟩

/-- A payload that is no JSON text fails the first assertion: nothing is sent. -/
theorem handleMessage_no_json :
    ¬ ∃ message, handleMessage .bare (CommandManager.new 0) { id := 1, socket := 0 } (lit "hello")
      = .ok [message] := by
  rintro ⟨message, h⟩
  cases h

end Holchain.Holper.Resolver
