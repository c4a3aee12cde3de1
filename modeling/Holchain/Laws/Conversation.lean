import Holchain.Laws.Answer
import Holchain.Laws.Client
import Holchain.Laws.Getopts
import Holchain.Laws.Pipeline

/-!
# Laws.Conversation — a command line and what is printed for it

The whole way of a command line: the client's options, its payload, the daemon's threads, and the
response that the client prints. Whatever other clients there are and in whichever order the threads
take their steps, what a client prints is decided by its own command line: the work that is made of
it ends in one of the ways of `Ending`, and the client exits with 0 just where the action returned
(`client_answered`). The command lines that get so far are those that spell known options in front
of their operands, and of `-d` and `-s` the last one counts (`commandLine_iff`).
-/

namespace Holchain.Holper.Client

open CommandManager (resolveCommand)
open Pipeline (Clients Inv responseMembers system)
open Resolver (Content splitParameters workOf)
open WorkPoolWorker (Ending result_ending)

variable {P : Platform} {root : Command}

/-! ## Answers -/

/-- The document reads back from the text that is written for it. -/
structure ReadsBack (P : Platform) (document : Json) : Prop where
  text : 0 ∉ (P.write document).val
  parse : P.parse (P.write document).val = some document

theorem ReadsBack.parse_cStr {document : Json} (h : ReadsBack P document) :
    P.parse (cStr (P.write document).val) = some document := by
  rw [cStr_of_notMem h.text, h.parse]

/-- What the arguments behind the options ask for. -/
def contentOf (verbose : Bool) (args : List CString) : Content where
  verbose := verbose
  tokens := (args.take (dashes args)).map (·.val)
  members := (args.drop (dashes args + 1)).map parameter

/-- The document has the content. -/
theorem reads_payload {verbose : Bool} {args : List CString}
    (h : ReadsBack P (Client.root verbose args)) :
    Resolver.Reads (Resolver.document P (payload P verbose args).val) (contentOf verbose args) := by
  have hdocument : Resolver.document P (payload P verbose args).val = Client.root verbose args := by
    unfold Resolver.document payload
    rw [h.parse_cStr]
    rfl
  rw [hdocument]
  exact reads_root verbose args

/-- The text of a response. -/
def responseText (P : Platform) (id : Int) (verbose : Bool) (value : Json) (code : Int)
    (profile : Json) : Bytes :=
  (P.write (.object (responseMembers id verbose value code profile))).val

/-- A response has its two members. -/
theorem finish_eq (clientVerbose : Bool) {id code : Int} {verbose : Bool} {value profile : Json}
    (h : ReadsBack P (.object (responseMembers id verbose value code profile)))
    (hcode : -2 ^ 31 ≤ code ∧ code < 2 ^ 31) :
    finish P clientVerbose (responseText P id verbose value code profile)
      = some (printed P clientVerbose (responseText P id verbose value code profile) value,
        exitStatus code) := by
  have hvalue : (Json.object (responseMembers id verbose value code profile)).member
      (lit "response") = .ok value :=
    Json.member_eq_ok.mpr ⟨_, rfl, rfl⟩
  have hmember : (Json.object (responseMembers id verbose value code profile)).member
      (lit "code") = .ok (.int code) :=
    Json.member_eq_ok.mpr ⟨_, rfl, rfl⟩
  have hparse : P.parse (cStr (responseText P id verbose value code profile))
      = some (.object (responseMembers id verbose value code profile)) := h.parse_cStr
  unfold finish
  rw [hparse]
  dsimp only [Option.getD_some]
  rw [hvalue, hmember]
  exact if_pos hcode

/-- The two codes that a work ends with, and what they stand for. -/
theorem ending_code {work : Work} {value : Json} {code : Int} {runs : ℕ}
    (hend : Ending P work (value, code) runs) :
    (code = 0 ∧ ∃ action, work.command.action = some action
      ∧ action.actOn work.requestId work.parameters = .ok value)
    ∨ (code = -1 ∧ ∃ reason, value = .string reason) := by
  cases hend with
  | returned haction hps hreason hact => exact .inl ⟨rfl, _, haction, hact⟩
  | noAction haction hhelp => exact .inr ⟨rfl, _, rfl⟩
  | specThrew haction hthrew => exact .inr ⟨rfl, _, rfl⟩
  | refused haction hps hreason hhelp => exact .inr ⟨rfl, _, rfl⟩
  | helpThrew haction hps hreason hthrew => exact .inr ⟨rfl, _, rfl⟩
  | actOnThrew haction hps hreason hact => exact .inr ⟨rfl, _, rfl⟩

/-! ## Command lines -/

/-- The socket path that an option asks for. -/
def pathOf (uid : Int) (opt : Bin.Opt) : Option Bytes :=
  if opt.opt = 100 then some (devSocketPath uid)
  else if opt.opt = 115 then some opt.optarg
  else none

/-- Options and more of them. -/
def Options.with (uid : Int) (o : Options) (opts : List Bin.Opt) : Options where
  socketPath := (opts.filterMap (pathOf uid)).getLast?.getD o.socketPath
  clientVerbose := o.clientVerbose || opts.any (·.opt == 118)
  serverVerbose := o.serverVerbose || opts.any fun opt => opt.opt == 86 || opt.opt == 100
  restartDaemon := o.restartDaemon || opts.any (·.opt == 114)

theorem Options.with_nil (uid : Int) (o : Options) : o.with uid [] = o := by
  cases o
  simp only [Options.with, List.filterMap_nil, List.getLast?_nil, Option.getD_none, List.any_nil,
    Bool.or_false]

theorem Options.with_cons (uid : Int) (o : Options) (opt : Bin.Opt) (opts : List Bin.Opt) :
    o.with uid (opt :: opts) = (o.with uid [opt]).with uid opts := by
  cases hpath : pathOf uid opt with
  | none => simp [Options.with, hpath, Bool.or_assoc]
  | some path => simp [Options.with, hpath, List.getLast?_cons, Bool.or_assoc]

/-- An option that the client goes on with. -/
def Goes (opt : Bin.Opt) : Prop :=
  opt.opt = 100 ∨ opt.opt = 115 ∨ opt.opt = 118 ∨ opt.opt = 86 ∨ opt.opt = 114

theorem options_cons (uid : Int) (o : Options) {opt : Bin.Opt} (h : Goes opt)
    (opts : List Bin.Opt) :
    options uid o (opt :: opts) = options uid (o.with uid [opt]) opts := by
  obtain ⟨opt, optarg⟩ := opt
  rcases h with rfl | rfl | rfl | rfl | rfl <;> simp [options, Options.with, pathOf]

theorem options_stops (uid : Int) (o : Options) {opt : Bin.Opt} (h : ¬ Goes opt)
    (opts : List Bin.Opt) :
    options uid o (opt :: opts) = .error (help uid o, if opt.opt = 104 then 0 else -1) := by
  simp only [Goes, not_or] at h
  obtain ⟨h₁, h₂, h₃, h₄, h₅⟩ := h
  rw [options, if_neg h₁, if_neg h₂, if_neg h₃, if_neg h₄, if_neg h₅]

theorem options_iff (uid : Int) (o o' : Options) (opts : List Bin.Opt) :
    options uid o opts = .ok o' ↔ (∀ opt ∈ opts, Goes opt) ∧ o' = o.with uid opts := by
  induction opts generalizing o with
  | nil =>
    rw [Options.with_nil]
    exact ⟨fun h => ⟨nofun, (Except.ok.inj h).symm⟩, fun h => congrArg _ h.2.symm⟩
  | cons opt opts ih =>
    rw [List.forall_mem_cons]
    by_cases hopt : Goes opt
    · rw [options_cons uid o hopt, ih, ← Options.with_cons]
      exact ⟨fun h => ⟨⟨hopt, h.1⟩, h.2⟩, fun h => ⟨h.1.2, h.2⟩⟩
    · rw [options_stops uid o hopt]
      exact ⟨nofun, fun h => absurd h.1.1 hopt⟩

/-- An option of the list is one of these, or asks for help. -/
theorem goes_of_listed {opt : Bin.Opt} (hlisted : opt.opt ∈ lit "dhrs:vV") (hcolon : opt.opt ≠ 58)
    (hhelp : opt.opt ≠ 104) : Goes opt := by
  have hmem : opt.opt ∈ [100, 104, 114, 115, 58, 118, 86] := hlisted
  simp only [List.mem_cons, List.not_mem_nil, or_false] at hmem
  unfold Goes
  tauto

theorem Goes.known {opt : Bin.Opt} (h : Goes opt) : opt.opt ≠ 63 ∧ opt.opt ≠ 104 := by
  rcases h with heq | heq | heq | heq | heq <;> rw [heq] <;> decide

/-- The operands are the last of the arguments. -/
theorem drop_operands {argv : List CString} {spelled rest : List Bytes}
    (h : Bin.Divides (argv.map (·.val)) spelled rest) :
    (argv.drop (argv.length - rest.length)).map (·.val) = rest := by
  have hdrop := List.suffix_iff_eq_drop.mp h.suffix
  rw [List.length_map] at hdrop
  rw [List.map_drop]
  exact hdrop.symm

/-- **The command lines that the client goes on with** are spelled with known options other than
`-h` in front of the operands. -/
theorem commandLine_iff (uid : Int) (argv : List CString) (o : Options) (args : List CString) :
    commandLine uid argv = .ok (o, args) ↔
      ∃ spelled opts, Bin.Spells (lit "dhrs:vV") spelled opts ∧ (∀ opt ∈ opts, opt.opt ≠ 104)
        ∧ o = Options.with uid { socketPath := socketPath uid "holperd" } opts
        ∧ Bin.Divides (argv.map (·.val)) spelled (args.map (·.val)) := by
  constructor
  · intro h
    obtain ⟨opts, rest, hgetopts⟩ : ∃ opts rest,
      Bin.getopts (lit "dhrs:vV") (argv.map (·.val)) = (opts, rest) := ⟨_, _, rfl⟩
    unfold commandLine at h
    rw [hgetopts] at h
    dsimp only at h
    cases hopts : options uid { socketPath := socketPath uid "holperd" } opts with
    | error reason =>
      rw [hopts] at h
      cases h
    | ok o' =>
      rw [hopts] at h
      obtain ⟨rfl, rfl⟩ := Prod.mk.inj (Except.ok.inj h)
      obtain ⟨hgoes, ho⟩ := (options_iff _ _ _ _).mp hopts
      obtain ⟨spelled, hspells, hdivides⟩ := (Bin.getopts_iff _ _ _ _).mp
        ⟨hgetopts, fun opt hopt => (hgoes opt hopt).known.1⟩
      refine ⟨spelled, opts, hspells, fun opt hopt => (hgoes opt hopt).known.2, ho, ?_⟩
      rw [drop_operands hdivides]
      exact hdivides
  · rintro ⟨spelled, opts, hspells, hhelp, rfl, hdivides⟩
    have hopts := ((Bin.getopts_iff _ _ _ _).mpr ⟨spelled, hspells, hdivides⟩).1
    have hgoes : ∀ opt ∈ opts, Goes opt := fun opt hopt =>
      goes_of_listed (hspells.listed opt hopt).1 (hspells.listed opt hopt).2.1 (hhelp opt hopt)
    have hargs := List.map_injective_iff.mpr Subtype.val_injective (drop_operands hdivides)
    unfold commandLine
    rw [hopts]
    dsimp only
    rw [(options_iff _ _ _ _).mpr ⟨hgoes, rfl⟩]
    exact congrArg (fun rest => Except.ok (_, rest)) hargs
/-- The work that is made of a client's command line, for the request of its socket. -/
def lineWork (root : Command) (id : Int) (socket : ℕ) (line : Options × List CString) : Work :=
  workOf root { id, socket } (contentOf line.1.serverVerbose line.2)

/-- What is written to the socket, if anything is. -/
def Start.sent : Start → Bytes
  | .sends _ _ message => message.val
  | _ => []

theorem start_sent {uid : Int} {argv : List CString} {line : Options × List CString}
    (hline : commandLine uid argv = .ok line) (hsends : line.1.restartDaemon = false) :
    (start P uid argv).sent = (payload P line.1.serverVerbose line.2).val := by
  unfold start
  rw [hline]
  dsimp only
  rw [if_neg (ne_true_of_eq_false hsends)]
  rfl

/-- **What a client prints is decided by its own command line.** Let clients send what their command
lines come to, in any number and in any order of the daemon's steps. Then of every response that is
written the client of its socket prints the value, and exits with 0, where the action that its
command line names has returned this value; otherwise the value is the text of what ended its work,
and the client exits with 255. -/
theorem client_answered (P : Platform) (root : Command) (uid : Int) (argv : ℕ → List CString)
    (line : ℕ → Options × List CString) (hline : ∀ i, commandLine uid (argv i) = .ok (line i))
    (hsends : ∀ i, (line i).1.restartDaemon = false)
    (hpayload : ∀ i, ReadsBack P (Client.root (line i).1.serverVerbose (line i).2))
    {workers : ℕ} {s : Pipeline.State workers}
    (h : (system P root (fun i => (start P uid (argv i)).sent) workers).Reachable s) (i : ℕ)
    (text : Message) (hwritten : (i, text) ∈ s.written) :
    ∃ id value code profile runs, (id, i) ∈ s.accepted
      ∧ text.val = responseText P id (line i).1.serverVerbose value code profile
      ∧ Ending P (lineWork root id i (line i)) (value, code) runs
      ∧ (ReadsBack P (.object (responseMembers id (line i).1.serverVerbose value code profile)) →
        (finish P (line i).1.clientVerbose text.val
            = some (printed P (line i).1.clientVerbose text.val value, 0)
          ∧ ∃ action, (lineWork root id i (line i)).command.action = some action
            ∧ action.actOn id (lineWork root id i (line i)).parameters = .ok value)
        ∨ (finish P (line i).1.clientVerbose text.val
            = some (printed P (line i).1.clientVerbose text.val value, 255)
          ∧ ∃ reason, value = .string reason)) := by
  let clients : Clients P :=
    { payload := fun i => (start P uid (argv i)).sent
      content := fun i => contentOf (line i).1.serverVerbose (line i).2
      reads := fun i => by
        rw [start_sent (hline i) (hsends i)]
        exact reads_payload (hpayload i) }
  have hinv : Inv P root clients s := Inv.reachable h
  obtain ⟨id, value, code, profile, haccepted, ⟨runs, hresult⟩, rfl⟩ :=
    hinv.good .answered (.response i text) (List.mem_map.mpr ⟨_, hwritten, rfl⟩)
  have hend : Ending P (lineWork root id i (line i)) (value, code) runs := by
    obtain ⟨answer, runs', hresult', hend⟩ := result_ending P (lineWork root id i (line i))
    have hsame := hresult.symm.trans hresult'
    cases hsame
    exact hend
  refine ⟨id, value, code, profile, runs, haccepted, rfl, hend, fun hback => ?_⟩
  rcases ending_code hend with ⟨hcode, hact⟩ | ⟨hcode, hreason⟩
  · refine .inl ⟨?_, hact⟩
    have hstatus : exitStatus code = 0 := by
      rw [hcode]
      rfl
    rw [← hstatus]
    exact finish_eq _ hback (by omega)
  · refine .inr ⟨?_, hreason⟩
    have hstatus : exitStatus code = 255 := by
      rw [hcode]
      rfl
    rw [← hstatus]
    exact finish_eq _ hback (by omega)

/-! ## One client -/

open WorkPoolWorker (muteAction muteRoot validation)

theorem mute_noNul : 0 ∉ lit "mute" := by decide

/-- `mute` -/
def muteArgs : List CString := [⟨lit "mute", mute_noNul⟩]

/-- The members of its response. -/
def muteResponse : List (Bytes × Json) := responseMembers 1 false .null 0 .null

/-- The text of the document that its client writes. -/
def muteText : Message :=
  ⟨lit "\x7b\"verbose\":false,\"command\":[\"mute\"],\"parameters\":\x7b\x7d\x7d", by decide⟩

/-- The text of the response. -/
def muteResponseText : Message :=
  ⟨lit "\x7b\"response\":null,\"code\":0,\"id\":1\x7d", by decide⟩

/-- A writer and a reader of the two documents. -/
def mutePlatform : Platform :=
  { Platform.bare with
    write := fun
      | .object ((name, _) :: _) => if name = lit "verbose" then muteText else muteResponseText
      | _ => ⟨lit "null", by decide⟩
    parse := fun s =>
      if s = muteText.val then some (Client.root false muteArgs)
      else if s = muteResponseText.val then some (.object muteResponse)
      else none }

/-- The steps from the client's connection to its answer. -/
def muteSteps : List (Pipeline.Label 1) := Pipeline.toQueue ++ Pipeline.toAnswer

/-- The daemon behind them. -/
def muteState : Pipeline.State 1 :=
  let work := workOf muteRoot { id := 1, socket := 7 } (contentOf false muteArgs)
  let args : ResponderArgs :=
    { request := { id := 1, socket := 7 }, code := 0, response := .null }
  let thread : Fin 1 := ⟨0, Nat.one_pos⟩
  { idCounter := 1
    worker := Function.update (Function.update (Function.update (fun _ => .waiting) thread
      (.handling work)) thread (.sending args)) thread .waiting
    accepted := [(1, 7)]
    written := [(7, muteResponseText)] }

/-- `holper mute` exits with 0. -/
theorem client_answered_mute :
    finish mutePlatform false muteResponseText.val = some (lit "null", 0) := by
  have hback : ReadsBack mutePlatform (.object muteResponse) := ⟨by decide, rfl⟩
  have hrun : (system mutePlatform muteRoot
      (fun _ => (start mutePlatform 1000 muteArgs).sent) 1).run {} muteSteps = some muteState := rfl
  obtain ⟨id, value, code, profile, runs, haccepted, htext, hend, hprints⟩ :=
    client_answered mutePlatform muteRoot 1000 (fun _ => muteArgs)
      (fun _ => ({ socketPath := socketPath 1000 "holperd" }, muteArgs)) (fun _ => rfl)
      (fun _ => rfl) (fun _ => ⟨by decide, rfl⟩) (.run (.init rfl) hrun) 7
      muteResponseText List.mem_cons_self
  obtain rfl : id = 1 := congrArg Prod.fst (List.mem_singleton.mp haccepted)
  have haccepts : (validation mutePlatform (lineWork muteRoot 1 7
      ({ socketPath := socketPath 1000 "holperd" }, muteArgs)) muteAction).map ParamSpec.failReason
      = .ok none := rfl
  cases hend with
  | noAction haction hhelp => cases haction
  | specThrew haction hthrew =>
    cases haction
    rw [hthrew] at haccepts
    cases haccepts
  | refused haction hps hreason hhelp =>
    cases haction
    rw [hps, Except.map, hreason] at haccepts
    cases haccepts
  | helpThrew haction hps hreason hthrew =>
    cases haction
    rw [hps, Except.map, hreason] at haccepts
    cases haccepts
  | actOnThrew haction hps hreason hact =>
    cases haction
    cases hact
  | returned haction hps hreason hact =>
    cases haction
    cases hact
    rcases hprints hback with ⟨hout, -⟩ | ⟨-, reason, hvalue⟩
    · exact hout
    · cases hvalue

end Holchain.Holper.Client
