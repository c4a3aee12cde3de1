import Holchain.Laws.ParamSpec
import Holchain.Laws.Resolver
import Holchain.Holper.Worker

/-!
# Laws.Worker — what a worker answers, and which parameters it looked at

`result_of_accepts` and `result_of_refused` say what `runSingle` yields: the action runs, once,
exactly when its spec throws nothing and accepts the string parameters. From this and from what
the Resolver keeps of a payload follows which payloads are checked in full
(`validation_covers_iff`).
-/

namespace Holchain.Holper

open Std (TreeMap)
open ParamSpec (Declaration declareAll AllSane AllMet Accepts Meets counted names)

/-- Running the spec throws, whatever is supplied. -/
def Spec.Faulty (spec : Spec) : Prop := ¬ AllSane [] spec.declarations ∨ spec.raises.isSome

namespace WorkPoolWorker

variable {P : Platform} {work : Work} {action : Action}

/-- The code and the text of a request that is turned down without running its action. -/
def Refused (P : Platform) (work : Work) : Prop :=
  ∃ text, result P work = (.ok (.string text, -1), 0)

theorem spec_apply_of_faulty (h : action.spec.Faulty) (supplied : Parameters) :
    ∃ e, action.spec.apply P { parameters := supplied, validate := true } = .error e := by
  unfold Spec.apply
  by_cases hsane : AllSane [] action.spec.declarations
  · obtain ⟨ps, hps, _⟩ := ParamSpec.declareAll_failReason P supplied hsane
    obtain ⟨e, he⟩ := Option.isSome_iff_exists.mp (h.resolve_left (not_not.mpr hsane))
    exact ⟨e, by rw [hps, he]; rfl⟩
  · obtain ⟨e, he⟩ :=
      ParamSpec.declareAll_throws (ParamSpec.declared_nil P supplied) hsane
    exact ⟨e, by rw [he]; rfl⟩

theorem spec_apply_of_not_faulty (h : ¬ action.spec.Faulty) (supplied : Parameters) :
    ∃ ps, action.spec.apply P { parameters := supplied, validate := true } = .ok ps
      ∧ (ps.failReason = none ↔ Accepts P supplied action.spec.declarations) := by
  unfold Spec.Faulty at h
  push Not at h
  obtain ⟨ps, hps, hreason⟩ := ParamSpec.declareAll_failReason P supplied h.1
  refine ⟨ps, ?_, hreason⟩
  rw [Spec.apply, hps, Option.not_isSome_iff_eq_none.mp h.2]
  rfl

@[simp] theorem lift_ok_bind {α β : Type} (a : α) (f : α → Run β) :
    (lift (.ok a) >>= f) = f a := rfl

@[simp] theorem lift_error_bind {α β : Type} (e : Bytes) (f : α → Run β) :
    (lift (.error e) >>= f) = lift (.error e) := rfl

/-- A command without action is answered with its help, without running anything. -/
theorem result_of_no_action_help (h : work.command.action = none) :
    ∃ text, work.command.help P = .ok text ∧ result P work = (.ok (.string text, -1), 0) := by
  obtain ⟨text, htext⟩ : ∃ text, work.command.help P = .ok text := by
    unfold Command.help
    rw [h]
    exact ⟨_, rfl⟩
  refine ⟨text, htext, ?_⟩
  unfold result runSingle
  rw [h, htext]
  rfl

theorem result_of_no_action (h : work.command.action = none) : Refused P work := by
  obtain ⟨text, _, hres⟩ := result_of_no_action_help (P := P) h
  exact ⟨text, hres⟩

/-- **An accepted work**: its action runs once, and its value or its exception is the answer. -/
theorem result_of_accepts (haction : work.command.action = some action)
    (hspec : ¬ action.spec.Faulty)
    (haccepts : Accepts P work.parameters action.spec.declarations) :
    result P work = (.ok (match action.actOn work.requestId work.parameters with
      | .ok value => (value, 0)
      | .error e => (.string (cStr e), -1)), 1) := by
  obtain ⟨ps, hps, hreason⟩ := spec_apply_of_not_faulty (P := P) hspec work.parameters
  unfold result runSingle
  simp only [haction, hps, lift_ok_bind, hreason.mpr haccepts, actOn]
  cases action.actOn work.requestId work.parameters <;> rfl

/-- **A work that is not accepted**: nothing runs, and the code is -1. -/
theorem result_of_refused (haction : work.command.action = some action)
    (h : action.spec.Faulty ∨ ¬ Accepts P work.parameters action.spec.declarations) :
    Refused P work := by
  unfold Refused result runSingle
  by_cases hspec : action.spec.Faulty
  · obtain ⟨e, he⟩ := spec_apply_of_faulty (P := P) hspec work.parameters
    simp only [haction, he, lift_error_bind]
    exact ⟨_, rfl⟩
  · obtain ⟨ps, hps, hreason⟩ := spec_apply_of_not_faulty (P := P) hspec work.parameters
    obtain ⟨reason, hsome⟩ := Option.ne_none_iff_exists'.mp
      (mt hreason.mp (h.resolve_left hspec))
    simp only [haction, hps, lift_ok_bind, hsome]
    cases work.command.help P <;> exact ⟨_, rfl⟩

/-- Which of the two it is. -/
theorem refused_iff (haction : work.command.action = some action) :
    Refused P work
      ↔ action.spec.Faulty ∨ ¬ Accepts P work.parameters action.spec.declarations := by
  refine ⟨fun ⟨text, href⟩ => ?_, result_of_refused haction⟩
  by_contra hno
  push Not at hno
  rw [result_of_accepts haction hno.1 hno.2] at href
  simp at href

/-- `runSingle` throws nothing, whatever the action does. -/
theorem result_ok (P : Platform) (work : Work) : ∃ r n, result P work = (.ok r, n) := by
  cases haction : work.command.action with
  | none =>
    obtain ⟨text, h⟩ := result_of_no_action (P := P) haction
    exact ⟨_, _, h⟩
  | some action =>
    by_cases href : action.spec.Faulty ∨ ¬ Accepts P work.parameters action.spec.declarations
    · obtain ⟨text, h⟩ := result_of_refused haction href
      exact ⟨_, _, h⟩
    · push Not at href
      exact ⟨_, _, result_of_accepts haction href.1 href.2⟩

/-! ## Which members of a payload were looked at -/

/-- The chain does not declare the member's name, or declares it with a type its value is not a
valid text of. -/
def Offends (P : Platform) (ds : List Declaration) (m : Bytes × Json) : Prop :=
  m.1 ∉ names ds
    ∨ ∃ d, .param d ∈ ds ∧ d.name = m.1
      ∧ ¬ ∃ text, m.2 = .string text ∧ (St.to P d.type text).isSome

/-- The declarations made with a key whose parameter has a first string member of a valid text. -/
def keyCount (P : Platform) (members : List (Bytes × Json)) (ds : List Declaration) (k : Bytes) :
    Nat :=
  ds.countP fun
    | .param d => match Resolver.firstText members d.name with
      | some text => (St.to P d.type text).isSome && d.keys.contains k
      | none => false
    | .key _ => false

theorem counted_splitParameters (members : List (Bytes × Json)) (ds : List Declaration)
    (k : Bytes) : counted P (Resolver.splitParameters members) ds k = keyCount P members ds k := by
  refine congrArg (fun p => ds.countP p) (funext fun d => ?_)
  cases d with
  | key d => rfl
  | param d =>
    cases h : Resolver.firstText members d.name <;>
      simp only [ParamSpec.ParamDeclaration.counts, Resolver.splitParameters_get, h]

/-- A chain is met where each of its declarations is, after those before it. -/
theorem allMet_iff {supplied : Parameters} {pre ds : List Declaration} :
    AllMet P supplied pre ds
      ↔ ∀ front d back, ds = front ++ d :: back → Meets P supplied (pre ++ front) d := by
  induction ds generalizing pre with
  | nil => simp [AllMet]
  | cons d ds ih =>
    simp only [AllMet, ih]
    constructor
    · rintro ⟨hd, hrest⟩ front e back heq
      cases front with
      | nil =>
        cases heq
        rwa [List.append_nil]
      | cons f front =>
        cases heq
        simpa using hrest front e back rfl
    · intro h
      refine ⟨by simpa using h [] d ds rfl, fun front e back heq => ?_⟩
      have := h (d :: front) e back (by rw [heq, List.cons_append])
      simpa using this

/-- **What acceptance says of a payload**: the first string member of each name offends nothing,
and every key has as many as its bounds allow. -/
theorem accepts_splitParameters {members : List (Bytes × Json)} {ds : List Declaration} :
    Accepts P (Resolver.splitParameters members) ds
      ↔ (∀ name text, Resolver.firstText members name = some text →
          ¬ Offends P ds (name, .string text))
        ∧ ∀ front d back, ds = front ++ .key d :: back →
          d.Allows (keyCount P members front d.key) := by
  have hmem (name : Bytes) : name ∈ (Resolver.splitParameters members).parameters
      ↔ ∃ text, Resolver.firstText members name = some text := by
    rw [TreeMap.mem_iff_isSome_getElem?, Resolver.splitParameters_get, Option.isSome_iff_exists]
  simp only [Accepts, hmem, allMet_iff, List.nil_append]
  constructor
  · rintro ⟨hnames, hmet⟩
    refine ⟨?_, fun front d back heq => ?_⟩
    · intro name text htext hoff
      rcases hoff with hundeclared | ⟨d, hd, rfl, hbad⟩
      · exact hundeclared (hnames name ⟨text, htext⟩)
      · obtain ⟨front, back, heq⟩ := List.append_of_mem hd
        have hget : (Resolver.splitParameters members).parameters[d.name]? = some text := by
          rw [Resolver.splitParameters_get, htext]
        exact hbad ⟨text, rfl, hmet front _ back heq text hget⟩
    · rw [← counted_splitParameters]
      exact hmet front _ back heq
  · rintro ⟨hmembers, hkeys⟩
    refine ⟨fun name hname => ?_, fun front d back heq => ?_⟩
    · obtain ⟨text, htext⟩ := hname
      by_contra hno
      exact hmembers name text htext (.inl hno)
    · cases d with
      | param d =>
        intro text htext
        rw [Resolver.splitParameters_get] at htext
        by_contra hbad
        refine hmembers d.name text htext (.inr ⟨d, by simp [heq], rfl, ?_⟩)
        intro hfine
        obtain ⟨text', htext', hgood⟩ := hfine
        cases htext'
        exact hbad hgood
      | key d =>
        have := hkeys front d back heq
        rwa [← counted_splitParameters] at this

/-- **When no supplied parameter escapes validation.** For a payload that reaches an action: every
offending member of its `parameters`, of whatever JSON type, has the request refused with code -1
and without running `actOn`, if and only if no member offends, or the spec itself throws, or the
first string member of some name offends, or some key's count of valid first string members is
out of its bounds. -/
theorem validation_covers_iff (P : Platform) (root : Command) (request : Request)
    (payload : Bytes) {ms members : List (Bytes × Json)} {work : Work} {action : Action}
    (hparse : P.parse (cStr payload) = some (.object ms))
    (hmembers : Json.findMember ms (lit "parameters") = some (.object members))
    (hwork : Resolver.handleMessage P root request payload = .ok [.work work])
    (haction : work.command.action = some action) :
    (∀ m ∈ members, Offends P action.spec.declarations m → Refused P work)
      ↔ (∀ m ∈ members, ¬ Offends P action.spec.declarations m)
        ∨ action.spec.Faulty
        ∨ (∃ name text, Resolver.firstText members name = some text
            ∧ Offends P action.spec.declarations (name, .string text))
        ∨ (∃ front d back, action.spec.declarations = front ++ .key d :: back
            ∧ ¬ d.Allows (keyCount P members front d.key)) := by
  obtain ⟨c, ⟨ms', hdoc, _, _, hm⟩, hsent⟩ := Resolver.handleMessage_eq_ok.mp hwork
  have hms : ms' = ms := by simpa [Resolver.document, hparse] using hdoc.symm
  subst hms
  have hc : c.members = members := by simpa [hm] using hmembers
  have hparams : work.parameters = Resolver.splitParameters members := by
    simp only [List.cons.injEq, Resolver.Sent.work.injEq, and_true] at hsent
    rw [hsent, ← hc]
    rfl
  have href := refused_iff (P := P) haction
  rw [hparams, accepts_splitParameters] at href
  constructor
  · intro h
    by_cases hoff : ∃ m ∈ members, Offends P action.spec.declarations m
    · obtain ⟨m, hmem, hm⟩ := hoff
      rcases href.mp (h m hmem hm) with hfaulty | hnot
      · exact .inr (.inl hfaulty)
      · rw [not_and_or] at hnot
        push Not at hnot
        exact .inr (.inr hnot)
    · push Not at hoff
      exact .inl hoff
  · intro hcases m hmem hm
    rcases hcases with hnone | hfaulty | ⟨name, text, htext, hoff⟩ | ⟨front, d, back, heq, hkey⟩
    · exact absurd hm (hnone m hmem)
    · exact href.mpr (.inl hfaulty)
    · exact href.mpr (.inr fun h => h.1 name text htext hoff)
    · exact href.mpr (.inr fun h => hkey (h.2 front d back heq))

/-! ## A command that declares no parameters -/

/-- `{"verbose":false,"command":["mute"],"parameters":{"foo":…}}` -/
def mutePayload (foo : String) : Bytes :=
  lit ("\x7b\"verbose\":false,\"command\":[\"mute\"],\"parameters\":\x7b\"foo\":"
    ++ foo ++ "\x7d\x7d")

/-- The members of that object. -/
def muteMembers (foo : Json) : List (Bytes × Json) :=
  [(lit "verbose", .bool false), (lit "command", .array [.string (lit "mute")]),
    (lit "parameters", .object [(lit "foo", foo)])]

/-- A reader that knows two of these texts, `5` and `"5"`. -/
def mutePlatform : Platform :=
  { Platform.bare with
    parse := fun text =>
      if text = mutePayload "5" then some (.object (muteMembers (.int 5)))
      else if text = mutePayload "\"5\"" then some (.object (muteMembers (.string (lit "5"))))
      else none }

/-- An action that declares nothing and returns null. -/
def muteAction : Action := { spec := { declarations := [] }, actOn := fun _ _ => .ok .null }

/-- The tree with its command alone. -/
def muteRoot : Command :=
  (CommandManager.new 0).addChild (((Command.new 1).setName (lit "mute")).setAction muteAction)

/-- What the Resolver makes of the payload. -/
def muteWork (foo : Json) : Work :=
  { requestId := 1
    command := ((Command.new 1).setName (lit "mute")).setAction muteAction
    parameters := Resolver.splitParameters [(lit "foo", foo)]
    finish := { id := 1, socket := 0 } }

/-- As a string, `foo` is noticed. -/
theorem validation_covers_string : Refused mutePlatform (muteWork (.string (lit "5"))) := by
  have hoff : Offends mutePlatform muteAction.spec.declarations (lit "foo", .string (lit "5")) :=
    .inl (by decide)
  have hparse : mutePlatform.parse (cStr (mutePayload "\"5\""))
      = some (.object (muteMembers (.string (lit "5")))) := rfl
  have hmembers : Json.findMember (muteMembers (.string (lit "5"))) (lit "parameters")
      = some (.object [(lit "foo", .string (lit "5"))]) := rfl
  have haction : (muteWork (.string (lit "5"))).command.action = some muteAction := rfl
  exact (validation_covers_iff mutePlatform muteRoot { id := 1, socket := 0 } (mutePayload "\"5\"")
    hparse hmembers rfl haction).mpr (.inr (.inr (.inl ⟨_, _, rfl, hoff⟩)))
    _ List.mem_cons_self hoff

/-- As a number it is not: the action runs. -/
theorem validation_escaped_by_number :
    Resolver.handleMessage mutePlatform muteRoot { id := 1, socket := 0 } (mutePayload "5")
        = .ok [.work (muteWork (.int 5))]
      ∧ result mutePlatform (muteWork (.int 5)) = (.ok (.null, 0), 1)
      ∧ ¬ (Offends mutePlatform muteAction.spec.declarations (lit "foo", .int 5)
        → Refused mutePlatform (muteWork (.int 5))) := by
  refine ⟨rfl, rfl, fun h => ?_⟩
  obtain ⟨text, href⟩ := h (.inl (by decide))
  cases href

end WorkPoolWorker

end Holchain.Holper
