import Holchain.Holper.Command

/-!
# Holper.Request — what the threads hand to each other

A `Request` is made by the server thread for an accepted socket, and is destroyed by the
Responder after its response was written. In between it travels inside the message that carries
it; while a `Work` is under way the `Request*` bound into its callback is the only way to it, so
the work carries it here. Of the profiler only what `sendResponse` writes of it is kept.
-/

namespace Holchain.Holper

/-- `Request`: `response` are the members `Response::set` has added so far. -/
structure Request where
  id : Int
  socket : Nat
  verbose : Bool := false
  response : List (Bytes × Json) := []

/-- `Work`, with the `Request*` bound into `finish_`. -/
structure Work where
  requestId : Int
  command : Command
  parameters : Parameters
  finish : Request

/-- `WorkResult`. -/
structure WorkResult where
  work : Work
  result : Json
  code : Int

/-- `ResponderArgs`. -/
structure ResponderArgs where
  request : Request
  code : Int
  response : Json

namespace Request

/-- `Response::set`. -/
def set (name : Bytes) (value : Json) (request : Request) : Request :=
  { request with response := request.response ++ [(name, value)] }

/-- `sendResponse`: the text that is written to the socket. `profile` is what `profiler_.json`
makes of the events and their times. -/
def sendResponse (P : Platform) (profile : Json) (code : Int) (request : Request) : Message :=
  let request := request.set (lit "code") (.int code)
  let request := if request.verbose then request.set (lit "profiler") profile else request
  let request := request.set (lit "id") (.int request.id)
  P.write (.object request.response)

end Request

/-- `Resolver::sendToResponder`: the message the worker sends to the Responder. -/
def Resolver.sendToResponder (request : Request) (result : WorkResult) : ResponderArgs :=
  { request, code := result.code, response := result.result }

/-- `Responder::handleMessage`: the text that is written to the request's socket. -/
def Responder.handleMessage (P : Platform) (profile : Json) (msg : ResponderArgs) : Message :=
  (msg.request.set (lit "response") msg.response).sendResponse P profile msg.code

end Holchain.Holper
