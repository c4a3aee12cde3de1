import Holchain.Holper.Request

/-!
# Holper.Worker — running a single work

What a `WorkPoolWorker` does with a work: validate its parameters against the action's spec, run
the action, and turn a refusal or an exception into a text with code -1.
-/

namespace Holchain.Holper.WorkPoolWorker

/-- A computation on a worker: it may throw, and counts the runs of `actOn`. -/
abbrev Run := ExceptT Bytes (StateM Nat)

/-- What an action returns or throws. -/
def lift {α : Type} (r : Except Bytes α) : Run α := ExceptT.mk (pure r)

/-- `action->actOn(work)`. -/
def actOn (action : Action) (work : Work) : Run Json := do
  modify (· + 1)
  lift (action.actOn work.requestId work.parameters)

/-- `form_retval`. -/
def formRetval (val : Bytes) (code : Int) : Json × Int := (.string val, code)

/-- `runSingle`. -/
def runSingle (P : Platform) (work : Work) : Run (Json × Int) :=
  match work.command.action with
  | none => do return formRetval (← lift (work.command.help P)) (-1)
  | some action =>
    tryCatch
      (do
        let ps ← lift (action.spec.apply P { parameters := work.parameters, validate := true })
        match ps.failReason with
        | some reason =>
          return formRetval (reason ++ lit "\n" ++ (← lift (work.command.help P))) (-1)
        | none => return (← actOn action work, 0))
      -- `e.what()` becomes a string again: it ends at its first NUL
      fun e => return formRetval (cStr e) (-1)

/-- `runSingle` of a fresh work: what it returns or throws, and how often it ran `actOn`. -/
def result (P : Platform) (work : Work) : Except Bytes (Json × Int) × Nat :=
  (runSingle P work).run.run 0

end Holchain.Holper.WorkPoolWorker
