import Holchain.Laws.Command
import Holchain.Laws.Worker

/-!
# Laws.Answer — what a request is answered, and which command lines run an action

`Ending` lists the ways a work can end in `runSingle`, one for each step that can end it, with the
answer and the number of runs of `actOn`. Every work ends in one of them, whatever the action does
(`result_ending`), so what the answer says of the run can be read off it (`runSingle_answers`).

A command line runs an action by what it resolves to, the longest prefix that spells a path. An
action sits at a leaf, so words after it are dropped: `answersSpelling_iff` says which command
lines run an action, or get help, by the whole of their words.
-/

namespace Holchain.Holper.WorkPoolWorker

open CommandManager (resolveCommand)
open Command (Edge Valid)
open Holchain.Lib

variable {P : Platform} {work : Work} {action : Action}

/-- The parameter validation of a work. -/
def validation (P : Platform) (work : Work) (action : Action) : Except Bytes ParamSpec :=
  action.spec.apply P { parameters := work.parameters, validate := true }

/-- How a work ends, by the step that ends it: the answer and the runs of `actOn`. -/
inductive Ending (P : Platform) (work : Work) : Json × Int → Nat → Prop
  /-- the command has no action -/
  | noAction {text : Bytes} : work.command.action = none → work.command.help P = .ok text →
      Ending P work (.string text, -1) 0
  /-- `spec` throws -/
  | specThrew {action : Action} {e : Bytes} : work.command.action = some action →
      validation P work action = .error e → Ending P work (.string (cStr e), -1) 0
  /-- `failReason` has a reason -/
  | refused {action : Action} {ps : ParamSpec} {reason text : Bytes} :
      work.command.action = some action → validation P work action = .ok ps →
      ps.failReason = some reason → work.command.help P = .ok text →
      Ending P work (.string (reason ++ lit "\n" ++ text), -1) 0
  /-- `failReason` has a reason, and `spec` throws inside `help` -/
  | helpThrew {action : Action} {ps : ParamSpec} {reason e : Bytes} :
      work.command.action = some action → validation P work action = .ok ps →
      ps.failReason = some reason → work.command.help P = .error e →
      Ending P work (.string (cStr e), -1) 0
  /-- `actOn` throws -/
  | actOnThrew {action : Action} {ps : ParamSpec} {e : Bytes} :
      work.command.action = some action → validation P work action = .ok ps →
      ps.failReason = none → action.actOn work.requestId work.parameters = .error e →
      Ending P work (.string (cStr e), -1) 1
  /-- `actOn` returns -/
  | returned {action : Action} {ps : ParamSpec} {value : Json} :
      work.command.action = some action → validation P work action = .ok ps →
      ps.failReason = none → action.actOn work.requestId work.parameters = .ok value →
      Ending P work (value, 0) 1

/-- **Every work ends in one of the ways.** -/
theorem result_ending (P : Platform) (work : Work) :
    ∃ answer runs, result P work = (.ok answer, runs) ∧ Ending P work answer runs := by
  unfold result runSingle
  cases haction : work.command.action with
  | none =>
    obtain ⟨text, htext, _⟩ := result_of_no_action_help (P := P) haction
    rw [htext]
    exact ⟨_, _, rfl, .noAction haction htext⟩
  | some action =>
    cases hps : validation P work action with
    | error e =>
      have hspec := hps
      unfold validation at hspec
      simp only [hspec, lift_error_bind]
      exact ⟨_, _, rfl, .specThrew haction hps⟩
    | ok ps =>
      have hspec := hps
      unfold validation at hspec
      simp only [hspec, lift_ok_bind]
      cases hreason : ps.failReason with
      | some reason =>
        cases hhelp : work.command.help P with
        | error e => exact ⟨_, _, rfl, .helpThrew haction hps hreason hhelp⟩
        | ok text => exact ⟨_, _, rfl, .refused haction hps hreason hhelp⟩
      | none =>
        simp only [actOn]
        cases hact : action.actOn work.requestId work.parameters with
        | error e => exact ⟨_, _, rfl, .actOnThrew haction hps hreason hact⟩
        | ok value => exact ⟨_, _, rfl, .returned haction hps hreason hact⟩

/-- **What the answer says of the run.** No exception leaves `runSingle`; `actOn` runs at most
once, and only on parameters its spec was applied to without a reason to refuse them; the code is
0 exactly where `actOn` ran and returned, with its value, and -1 otherwise, with the text of the
step that ended the work. -/
theorem runSingle_answers (P : Platform) (work : Work) :
    ∃ value code runs, result P work = (.ok (value, code), runs)
      ∧ runs ≤ 1
      ∧ (runs = 1 → ∃ action ps, work.command.action = some action
          ∧ validation P work action = .ok ps ∧ ps.failReason = none)
      ∧ (code = 0 ↔ runs = 1 ∧ ∃ action v, work.command.action = some action
          ∧ action.actOn work.requestId work.parameters = .ok v)
      ∧ (code = 0 → ∃ action, work.command.action = some action
          ∧ action.actOn work.requestId work.parameters = .ok value)
      ∧ (code ≠ 0 → code = -1)
      ∧ Ending P work (value, code) runs := by
  obtain ⟨⟨value, code⟩, runs, hres, hend⟩ := result_ending P work
  refine ⟨value, code, runs, hres, ?_, ?_, ?_, ?_, ?_, hend⟩
  · cases hend <;> decide
  · intro hruns
    cases hend with
    | actOnThrew haction hps hreason _ => exact ⟨_, _, haction, hps, hreason⟩
    | returned haction hps hreason _ => exact ⟨_, _, haction, hps, hreason⟩
    | _ => cases hruns
  · constructor
    · intro hcode
      cases hend with
      | returned haction _ _ hact => exact ⟨rfl, _, _, haction, hact⟩
      | _ => cases hcode
    · intro h
      obtain ⟨hruns, action, v, haction, hact⟩ := h
      cases hend with
      | returned => rfl
      | @actOnThrew action' _ _ haction' _ _ hthrew =>
        obtain rfl : action = action' := Option.some.inj (haction.symm.trans haction')
        rw [hact] at hthrew
        cases hthrew
      | _ => cases hruns
  · intro hcode
    cases hend with
    | returned haction _ _ hact => exact ⟨_, haction, hact⟩
    | _ => cases hcode
  · intro hcode
    cases hend with
    | returned => exact absurd rfl hcode
    | _ => rfl

/-! ## Command lines -/

/-- The work the Resolver makes of a command line. -/
def commandWork (root : Command) (tokens : List Bytes) (parameters : Parameters)
    (request : Request) : Work :=
  { requestId := request.id, command := resolveCommand root tokens, parameters, finish := request }

/-- Some token names no child of the node reached so far. -/
def Strays (root : Command) (tokens : List Bytes) : Prop :=
  ∃ pre token post c, tokens = pre ++ token :: post ∧ Path Edge root pre c ∧ ∀ d, ¬ c.Edge token d

/-- A work that ran an action has it from the end of the path that all the tokens spell; tokens
that stray run nothing and are answered with the help of the node reached. -/
def AnswersSpelling (P : Platform) (root : Command) (tokens : List Bytes) (work : Work) : Prop :=
  ((result P work).2 ≠ 0 → Path Edge root tokens work.command)
    ∧ (Strays root tokens → ∃ text, work.command.help P = .ok text
        ∧ result P work = (.ok (.string text, -1), 0))

/-- The tokens go on after the path to a command with the action. -/
def RunsPast (root : Command) (tokens : List Bytes) (leaf : Command) (action : Action) : Prop :=
  ∃ pre token post, tokens = pre ++ token :: post ∧ Path Edge root pre leaf
    ∧ leaf.action = some action

/-- It is the one that a payload with these contents is made into. -/
theorem workOf_eq_commandWork (root : Command) (request : Request) (c : Resolver.Content) :
    Resolver.workOf root request c = commandWork root c.tokens
      (Resolver.splitParameters c.members) { request with verbose := c.verbose } := rfl

theorem result_of_spec_throws {e : Bytes} (haction : work.command.action = some action)
    (h : validation P work action = .error e) :
    result P work = (.ok (.string (cStr e), -1), 0) := by
  unfold validation at h
  unfold result runSingle
  simp only [haction, h, lift_error_bind]
  rfl

/-- An action's command is answered with its help text alone only where `spec` throws that text:
a refusal puts its reasons in front. -/
theorem Ending.threw_help {text : Bytes} (hend : Ending P work (.string text, -1) 0)
    (haction : work.command.action = some action) (hhelp : work.command.help P = .ok text) :
    ∃ e, validation P work action = .error e ∧ work.command.help P = .ok (cStr e) := by
  generalize hanswer : (Json.string text, (-1 : Int)) = answer at hend
  generalize hruns : 0 = runs at hend
  cases hend with
  | noAction hnone _ =>
    rw [haction] at hnone
    cases hnone
  | @specThrew action' e haction' hthrew =>
    obtain rfl : action = action' := Option.some.inj (haction.symm.trans haction')
    cases hanswer
    exact ⟨e, hthrew, hhelp⟩
  | @refused _ _ reason text' _ _ _ hhelp' =>
    obtain rfl : text = text' := Except.ok.inj (hhelp.symm.trans hhelp')
    have htext : text = reason ++ lit "\n" ++ text := Json.string.inj (Prod.mk.inj hanswer).1
    have hlen := congrArg List.length htext
    have hnewline : (lit "\n").length = 1 := by decide
    simp only [List.length_append] at hlen
    omega
  | helpThrew _ _ _ hhelp' =>
    rw [hhelp] at hhelp'
    cases hhelp'
  | actOnThrew => cases hruns
  | returned => cases hruns

/-- **When the words decide.** In a tree that `validate` accepts, only the action that all the
words name runs, and any other command line gets help, if and only if the words do not run past
a command with an action, or else its spec throws just the help text. -/
theorem answersSpelling_iff (P : Platform) (root : Command) (hroot : root.validate = .ok ())
    (tokens : List Bytes) (parameters : Parameters) (request : Request) :
    AnswersSpelling P root tokens (commandWork root tokens parameters request)
      ↔ ∀ leaf action, RunsPast root tokens leaf action →
        ∃ e, action.spec.apply P { parameters, validate := true } = .error e
          ∧ leaf.help P = .ok (cStr e) := by
  have hv := (Command.validate_eq_ok root).mp hroot
  have hwalk : resolveCommand root tokens = walk Command.getChild root tokens :=
    Command.resolveCommand_eq_walk root tokens
  constructor
  · intro h leaf action hpast
    obtain ⟨pre, token, post, htokens, hpath, haction⟩ := hpast
    have hstuck := (hv.path hpath).no_edge haction token
    have hleaf : resolveCommand root tokens = leaf := by
      rw [hwalk, htokens]
      exact walk_eq_of_stuck Valid.getChild_iff Valid.edge hv hpath hstuck post
    obtain ⟨text, hhelp, hres⟩ := h.2 ⟨pre, token, post, leaf, htokens, hpath, hstuck⟩
    obtain ⟨answer, runs, hres', hend⟩ :=
      result_ending P (commandWork root tokens parameters request)
    obtain ⟨rfl, rfl⟩ : (.string text, -1) = answer ∧ 0 = runs := by
      rw [hres] at hres'
      cases hres'
      exact ⟨rfl, rfl⟩
    rw [← hleaf] at haction ⊢
    exact hend.threw_help haction hhelp
  · intro h
    rcases walk_path_or_stuck Valid.getChild_iff Valid.edge hv tokens with hall | hstuck
    · rw [← hwalk] at hall
      refine ⟨fun _ => hall, fun hstrays => ?_⟩
      obtain ⟨pre, token, post, c, htokens, hpath, hno⟩ := hstrays
      rw [htokens] at hall
      exact absurd hall (Path.not_of_stuck Valid.getChild_iff Valid.edge hv hpath hno)
    · rw [← hwalk] at hstuck
      obtain ⟨pre, token, post, htokens, hpath, -⟩ := hstuck
      -- what the work's command is answered with, for every way to get stuck there
      have hanswer : ∃ text, (resolveCommand root tokens).help P = .ok text
          ∧ result P (commandWork root tokens parameters request)
            = (.ok (.string text, -1), 0) := by
        cases haction : (commandWork root tokens parameters request).command.action with
        | none => exact result_of_no_action_help haction
        | some action =>
          obtain ⟨e, hthrew, hhelp⟩ := h _ action ⟨pre, token, post, htokens, hpath, haction⟩
          exact ⟨_, hhelp, result_of_spec_throws haction hthrew⟩
      obtain ⟨text, hhelp, hres⟩ := hanswer
      refine ⟨fun hruns => ?_, fun _ => ⟨text, hhelp, hres⟩⟩
      rw [hres] at hruns
      exact absurd rfl hruns

/-- The root with the system group. -/
def systemRoot : Command := (CommandManager.new 9).addChild Command.systemGroup

/-- A request for it. -/
def systemWork (tokens : List Bytes) : Work :=
  commandWork systemRoot tokens {} { id := 1, socket := 0 }

/-- `system` alone is answered with help. -/
theorem answersSpelling_system :
    AnswersSpelling Platform.bare systemRoot [lit "system"] (systemWork [lit "system"]) := by
  refine (answersSpelling_iff Platform.bare systemRoot rfl [lit "system"] {} _).mpr ?_
  intro leaf action hpast
  obtain ⟨pre, token, post, htokens, hpath, haction⟩ := hpast
  cases pre with
  | nil =>
    cases hpath
    cases haction
  | cons _ _ =>
    have hlen := congrArg List.length htokens
    simp only [List.length_cons, List.length_append, List.length_nil] at hlen
    omega

/-- `system poweroff later` powers off at once. -/
theorem poweroff_later_runs :
    systemRoot.validate = .ok ()
      ∧ result Platform.bare (systemWork [lit "system", lit "poweroff", lit "later"])
        = (.ok (.string (lit "Success"), 0), 1)
      ∧ ¬ AnswersSpelling Platform.bare systemRoot [lit "system", lit "poweroff", lit "later"]
        (systemWork [lit "system", lit "poweroff", lit "later"]) := by
  have hruns : result Platform.bare (systemWork [lit "system", lit "poweroff", lit "later"])
      = (.ok (.string (lit "Success"), 0), 1) := rfl
  refine ⟨rfl, hruns, fun h => ?_⟩
  have hv := (Command.validate_eq_ok systemRoot).mp rfl
  have hsystem : systemRoot.Edge (lit "system") Command.systemGroup :=
    (Valid.getChild_iff _ _ _ hv).mp rfl
  have hpoweroff : Command.systemGroup.Edge (lit "poweroff")
      (resolveCommand systemRoot [lit "system", lit "poweroff"]) :=
    (Valid.getChild_iff _ _ _ (hv.children hsystem.1)).mp rfl
  have hpath := Path.cons hsystem (Path.cons hpoweroff (Path.nil _))
  have hstuck := (hv.path hpath).no_edge rfl (lit "later")
  obtain ⟨text, _, hhelp⟩ := h.2 ⟨_, _, [], _, rfl, hpath, hstuck⟩
  rw [hruns] at hhelp
  cases hhelp

end Holchain.Holper.WorkPoolWorker
