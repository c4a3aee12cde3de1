import Holchain.Holper.Command

/-!
# Holper.Music — the player's commands

A command is a call of a method over the bus. Where the player does not run and the command is one
that starts it, the call is made again, at most ten times, with a tenth of a second before each. How
each call ends is the bus's to say.
-/

namespace Holchain.Holper.SpotifyAction

/-- How `sd_bus_call_method` ends. -/
inductive Reply where
  | done
  /-- the name and the message of the error, and `-r` -/
  | failed (name message : Bytes) (code : Int)
  deriving DecidableEq

/-- `SD_BUS_ERROR_SERVICE_UNKNOWN`. -/
def serviceUnknown : Bytes := lit "org.freedesktop.DBus.Error.ServiceUnknown"

/-- `kSpotifyLocation`. -/
def kSpotifyLocation : Bytes := lit "/usr/bin/spotify"

/-- `sleep_interval`. -/
def sleepInterval : ℕ := 100000

/-- A thrown `HSDBusException`: its `errorName` and its `what`. -/
structure Thrown where
  errorName : Bytes
  what : Bytes
  deriving DecidableEq

/-- What an action has done so far. -/
structure Doing where
  calls : ℕ := 0
  spawned : List Bytes := []
  /-- in microseconds -/
  slept : ℕ := 0
  deriving DecidableEq

/-- `SDBus::call`, for the reply that it gets. -/
def call (method : Bytes) : Reply → Except Thrown Unit
  | .done => .ok ()
  | .failed name message code => .error {
      errorName := name
      what := thrown "sdbus.h" 59 (lit "Failed to call " ++ method ++ lit ": " ++ cStr message
        ++ lit "(" ++ decimal code ++ lit ")") }

/-- `while(--retries)`: nothing where the calls are used up. -/
def retry (method : Bytes) (replies : ℕ → Reply) :
    ℕ → Doing → Option (Except Thrown Unit) × Doing
  | 0, doing => (none, doing)
  | retries + 1, doing =>
    let next := { doing with calls := doing.calls + 1, slept := doing.slept + sleepInterval }
    match call method (replies doing.calls) with
    | .ok () => (some (.ok ()), next)
    | .error e =>
      if e.errorName = serviceUnknown then retry method replies retries next
      else (some (.error e), next)

/-- What is returned or thrown behind the loop, for the exception before it. -/
def Thrown.answer (first : Thrown) : Option (Except Thrown Unit) → Except Bytes Json
  | some (.ok ()) => .ok (.string (lit "Success"))
  | some (.error e) => .error e.what
  -- `throw;` throws the first exception again
  | none => .error first.what

/-- `actOn`: what it returns or throws, and what it does. The constructor of `SDBus` throws where
there is no bus. -/
def actOn (method : Bytes) (spawnOnFailure : Bool) (bus : Except Bytes Unit)
    (replies : ℕ → Reply) : Except Bytes Json × Doing :=
  match bus with
  | .error error =>
    (.error (thrown "sdbus.h" 44 (lit "Failed to connect to bus: " ++ cStr error)), {})
  | .ok () =>
    match call method (replies 0) with
    | .ok () => (.ok (.string (lit "Success")), { calls := 1 })
    | .error e =>
      if spawnOnFailure = false ∨ e.errorName ≠ serviceUnknown then (.error e.what, { calls := 1 })
      else
        -- `fork`, and `execl` in the child
        let (ended, doing) :=
          retry method replies 10 { calls := 1, spawned := [kSpotifyLocation] }
        (e.answer ended, doing)

end Holchain.Holper.SpotifyAction
