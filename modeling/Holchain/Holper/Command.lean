import Holchain.Holper.ParamSpec

/-!
# Holper.Command — the command tree

A `Command` node with its children. `self` is the address of the object, which is what two
`Command*` are compared by. An action is what its `spec` declares, with the exception it may
throw afterwards, and what its `actOn` makes of a request's id and parameters.
-/

namespace Holchain.Holper

open Std (TreeSet)
open ParamSpec (Declaration declareAll)

/-- What `spec(ParamSpec&)` does: a chain of declarations, then possibly an exception. -/
structure Spec where
  declarations : List Declaration
  raises : Option Bytes := none

/-- Running `spec`. -/
def Spec.apply (P : Platform) (spec : Spec) (ps : ParamSpec) : Except Bytes ParamSpec :=
  (declareAll P spec.declarations ps).bind fun ps =>
    match spec.raises with
    | none => .ok ps
    | some e => .error e

/-- `Action`: what `spec` does where a request is validated, and what it does where `help` runs
it again. The two differ where it looks at more than the `ParamSpec`. -/
structure Action where
  spec : Spec
  helpSpec : Spec := spec
  actOn : Int → Parameters → Except Bytes Json

/-- `Command`. -/
structure Command where
  self : Nat
  names : List Bytes
  primaryName : Bytes
  description : Bytes
  action : Option Action
  children : List Command

namespace Command

/-- The constructor. -/
def new (self : Nat) : Command :=
  { self, names := [], primaryName := [], description := [], action := none, children := [] }

/-- `setName`: names are pushed to the front. -/
def setName (name : Bytes) (cmd : Command) (primary : Bool := false) : Command :=
  { cmd with
    names := name :: cmd.names
    primaryName := if primary || cmd.primaryName.isEmpty then name else cmd.primaryName }

/-- `setDescription`. -/
def setDescription (description : Bytes) (cmd : Command) : Command := { cmd with description }

/-- `setAction`. -/
def setAction (action : Action) (cmd : Command) : Command := { cmd with action := some action }

/-- `addChild`, with what the new child is made into. -/
def addChild (cmd child : Command) : Command :=
  { cmd with children := cmd.children ++ [child] }

/-- `getChild`: the first child one of whose names is the given one. -/
def getChild (cmd : Command) (name : Bytes) : Option Command :=
  cmd.children.find? fun child => child.names.contains name

/-- `validate`'s loop over the names of the children: the first one already seen. -/
def reusedName (seen : TreeSet Bytes) : List Bytes → Option Bytes
  | [] => none
  | name :: rest => if seen.contains name then some name else reusedName (seen.insert name) rest

mutual

/-- `validate`: the children's names, the action, then every child. -/
def validate : Command → Except Bytes Unit
  | ⟨_, _, primaryName, _, action, children⟩ =>
    match reusedName ∅ (children.flatMap names) with
    | some name =>
      .error (thrown "command.cpp" 15
        (lit "Name " ++ cStr name ++ lit " reused in " ++ cStr primaryName))
    | none =>
      if children.isEmpty != action.isSome then
        .error (thrown "command.cpp" 21
          (lit "Command " ++ cStr primaryName ++ lit " has "
            ++ (if children.isEmpty then lit "neither" else lit "both") ++ lit " children "
            ++ (if children.isEmpty then lit "nor" else lit "and") ++ lit " action"))
      else validateAll children

/-- `validate`'s loop over the children. -/
def validateAll : List Command → Except Bytes Unit
  | [] => .ok ()
  | child :: rest => (validate child).bind fun _ => validateAll rest

end

/-- `help`: it runs the action's `spec` once more, without validation. -/
def help (P : Platform) (cmd : Command) : Except Bytes Bytes :=
  let head := cmd.primaryName ++ lit ": " ++ cmd.description ++ lit "\n"
    ++ (if 1 < cmd.names.length then
        lit "Aliases: " ++ (lit ", ").intercalate (cmd.names.filter (· ≠ cmd.primaryName))
          ++ lit "\n"
      else [])
  match cmd.action with
  | some action =>
    (action.helpSpec.apply P { parameters := {}, validate := false }).map fun ps => head ++ ps.help
  | none =>
    .ok (head ++ lit "Subcommands:\n" ++ cmd.children.flatMap fun child =>
      lit "  " ++ child.primaryName ++ lit ": " ++ child.description ++ lit "\n")

end Command

/-! ## The command manager -/

namespace CommandManager

/-- The constructor: a root without children. -/
def new (self : Nat) : Command :=
  ((Command.new self).setName (lit "holper")).setDescription (lit "Root command")

/-- `initializeCommand`, behind `registerCommandGroup`: the new child is linked in, then built
by the group, then validated. What the root has become is there also when `validate` throws. -/
def initializeCommand (self : Nat) (initializer : Command → Command) (root : Command) :
    Command × Except Bytes Unit :=
  let cmd := initializer (Command.new self)
  (root.addChild cmd, cmd.validate)

/-- `resolveCommand`. -/
def resolveCommand (node : Command) : List Bytes → Command
  | [] => node
  | token :: rest =>
    match node.getChild token with
    | none => node
    | some child => resolveCommand child rest

end CommandManager

end Holchain.Holper
