import Mathlib.Logic.Function.Basic
import Holchain.Holper.Display
import Holchain.Lib.Transition

/-!
# Holper.Backlight — workers and the backlight of the keyboard

Any number of workers perform backlight requests. A worker reads the attributes of the device and
writes one of them later, and holds no lock. The device shows a number with a line end, and stores the
number that is written.
-/

namespace Holchain.Holper.KeyboardBacklightAction

variable {P : Platform} {W : Type}

/-- An attribute that has a number. -/
def shown (n : Int) : Bytes := decimal n ++ [10]

/-- The machine, with this brightness. -/
def device (M : Machine P) (max brightness : Int) : Machine P :=
  { M with
    sysfs := fun path =>
      if path == kPath ++ lit "/brightness" then shown brightness
      else if path == kPath ++ lit "/max_brightness" then shown max
      else M.sysfs path }

/-- The brightness behind an effect. -/
def stored (brightness : Int) : Effect P → Int
  | .dump path value => if path == kPath ++ lit "/brightness" then value else brightness
  | _ => brightness

/-- A request that was performed. -/
structure Reply (W : Type) where
  worker : W
  supplied : Parameters
  result : Except Stop Json

/-- The device, the requests that workers perform with the brightness that each has read, and the
replies in the order of the writes. -/
structure State (W : Type) where
  brightness : Int
  running : W → Option (Parameters × Int)
  replies : List (Reply W)

/-- A step of a worker: up to its last read, and from its write on. -/
inductive Label (W : Type) where
  | read (worker : W) (supplied : Parameters)
  | write (worker : W)

/-- Taking a step. -/
def step [DecidableEq W] (M : Machine P) (max : Int) (s : State W) : Label W → Option (State W)
  | .read worker supplied =>
    match s.running worker with
    | some _ => none
    | none =>
      some { s with running := Function.update s.running worker (some (supplied, s.brightness)) }
  | .write worker =>
    match s.running worker with
    | none => none
    | some (supplied, old) =>
      let performed := (actOn (device M max old) supplied).run.run {}
      some {
        brightness := performed.2.effects.foldl stored s.brightness
        running := Function.update s.running worker none
        replies := s.replies ++ [⟨worker, supplied, performed.1⟩] }

/-- The workers, on a device with a brightness. -/
def system [DecidableEq W] (M : Machine P) (max start : Int) : Lib.System (State W) (Label W) where
  init s := s = ⟨start, fun _ => none, []⟩
  step := step M max

end Holchain.Holper.KeyboardBacklightAction
