import Holchain.Holper.Machine

/-!
# Holper.Display — the brightness of the display and of the keyboard
-/

namespace Holchain.Holper

open ParamSpec (ParamDeclaration)

variable {P : Platform}

namespace BrightnessChangeAction

/-- `kBrightnessPath`. -/
def kBrightnessPath : Bytes := lit "/sys/class/backlight/amdgpu_bl1"

/-- The `param` calls of `spec`. -/
def params : List ParamDeclaration :=
  [⟨.int, lit "set", .ofList [lit "operations"], lit "sets brightness to value"⟩,
    ⟨.int, lit "incr", .ofList [lit "operations"], lit "increments brightness by value"⟩]

/-- `spec`. -/
def spec : Spec := { declarations := params.map .param ++ [.key ⟨lit "operations", 1, 1⟩] }

/-- `setScreenPower`. -/
def setScreenPower (M : Machine P) (val : Bool) : Body P Unit :=
  if M.dpms then .emit (.screen val)
  else .threw (thrown "display.cpp" 27 (lit "No DPMS extension - cannot turn display off"))

/-- `actOn`. -/
def actOn (M : Machine P) (params : Parameters) : Body P Json := do
  let ops := M.float
  let maxRawBrightness := Filesystem.parse M (kBrightnessPath ++ lit "/max_brightness")
  let rawBrightness := Filesystem.parse M (kBrightnessPath ++ lit "/brightness")
  let raw ← .read rawBrightness
  let max ← .read maxRawBrightness
  let brightness := ops.div (ops.mul (ops.ofInt raw) (ops.literal 1 1)) (ops.ofInt max)
  let mut newBrightness := brightness
  let incr := (params.get P .int (lit "incr")).1
  if incr.isSome then
    newBrightness :=
      ops.add newBrightness (ops.mul (ops.ofInt (← .deref incr)) (ops.literal 1 100))
  else
    let set := (params.get P .int (lit "set")).1
    if set.isSome then
      newBrightness := ops.mul (ops.ofInt (← .deref set)) (ops.literal 1 100)
  newBrightness := ops.clamp newBrightness (ops.literal 0 1) (ops.literal 1 1)
  let dark := ops.literal 1 1000
  if ops.lt brightness dark && ops.lt brightness newBrightness then
    setScreenPower M true
  else if ops.lt newBrightness dark && ops.lt newBrightness (ops.add brightness dark) then
    newBrightness := ops.literal 0 1
    setScreenPower M false
  let raw := ops.toInt (ops.mul newBrightness (ops.ofInt max))
  Filesystem.dump (kBrightnessPath ++ lit "/brightness") raw
  return .object [(lit "old_brightness", .double (ops.toDouble brightness)),
    (lit "new_brightness", .double (ops.toDouble newBrightness))]

end BrightnessChangeAction

namespace KeyboardBacklightAction

/-- `kPath`. -/
def kPath : Bytes := lit "/sys/class/leds/tpacpi::kbd_backlight"

/-- `spec`'s `help`. -/
def help (pre post : Bytes) : Bytes :=
  if post.isEmpty then pre ++ lit " keyboard backlight"
  else pre ++ lit " keyboard backlight " ++ post

/-- The `param` calls of `spec`. -/
def params : List ParamDeclaration :=
  [⟨.none, lit "on", .ofList [lit "operations"], help (lit "turns") (lit "on")⟩,
    ⟨.none, lit "off", .ofList [lit "operations"], help (lit "turns") (lit "off")⟩,
    ⟨.none, lit "toggle", .ofList [lit "operations"], help (lit "toggles") (lit "")⟩,
    ⟨.int, lit "set", .ofList [lit "operations"], help (lit "sets") (lit "to value")⟩,
    ⟨.int, lit "incr", .ofList [lit "operations"], help (lit "increments ") (lit "by value")⟩]

/-- `spec`. -/
def spec : Spec := { declarations := params.map .param ++ [.key ⟨lit "operations", 1, 1⟩] }

/-- `actOn`. -/
def actOn (M : Machine P) (params : Parameters) : Body P Json := do
  let maxBrightness := Filesystem.parse M (kPath ++ lit "/max_brightness")
  let mut brightness := Filesystem.parse M (kPath ++ lit "/brightness")
  let old ← .read brightness
  if (params.get P .none (lit "on")).1.isSome then
    brightness := some (← .read maxBrightness)
  else if (params.get P .none (lit "off")).1.isSome then
    brightness := some 0
  else if (params.get P .none (lit "toggle")).1.isSome then
    if (← .read brightness) ≠ 0 then
      brightness := some 0
    else
      brightness := some (← .read maxBrightness)
  else
    let set := (params.get P .int (lit "set")).1
    if set.isSome then
      brightness := some (clampInt (← .deref set) 0 (← .read maxBrightness))
    else
      let incr := (params.get P .int (lit "incr")).1
      if incr.isSome then
        let by_ : Int ← .deref incr
        brightness := some (toInt32 ((← .read brightness) + by_))
        brightness := some (clampInt (← .read brightness) 0 (← .read maxBrightness))
  let new ← .read brightness
  Filesystem.dump (kPath ++ lit "/brightness") new
  return .object [(lit "old_brightness", .int old), (lit "new_brightness", .int new)]

end KeyboardBacklightAction

end Holchain.Holper
