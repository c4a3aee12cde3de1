import Holchain.Holper.Request

/-!
# Holper.Resolver — from a payload to a work

`handleMessage` reads the payload with rapidjson's unchecked accessors: a payload of another shape
than the client's fails one of their assertions. String members of `parameters` go into one map
and all others into another one, the first of a name winning in each.
-/

namespace Holchain.Holper.Resolver

open CommandManager (resolveCommand)

/-- A message that a handler sends on. -/
inductive Sent where
  /-- to the `WorkPool` -/
  | work (work : Work)
  /-- to the `Responder` -/
  | response (args : ResponderArgs)

/-- One turn of the loop over the members of `parameters`. -/
def insertMember (ps : Parameters) : Bytes × Json → Parameters
  | (name, .string s) => { ps with parameters := ps.parameters.insertIfNew name s }
  | (name, value) => { ps with rawParameters := ps.rawParameters.insertIfNew name value }

/-- The two maps. -/
def splitParameters (members : List (Bytes × Json)) : Parameters := members.foldl insertMember {}

/-- The document of a payload: null where the text does not parse. -/
def document (P : Platform) (payload : Bytes) : Json := (P.parse (cStr payload)).getD .null

/-- `handleMessage`, with the payload that was read from the request's socket. -/
def handleMessage (P : Platform) (root : Command) (request : Request) (payload : Bytes) :
    Except Assertion (List Sent) := do
  let doc := document P payload
  let verbose ← (← doc.member (lit "verbose")).getBool
  let request := { request with verbose }
  let commandTokens ← (← (← doc.member (lit "command")).getArray).mapM Json.getString
  let members ← (← doc.member (lit "parameters")).getObject
  let work : Work :=
    { requestId := request.id
      command := resolveCommand root commandTokens
      parameters := splitParameters members
      finish := request }
  return [.work work]

end Holchain.Holper.Resolver
