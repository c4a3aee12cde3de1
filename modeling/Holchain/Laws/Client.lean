import Holchain.Laws.Resolver
import Holchain.Holper.Client

/-!
# Laws.Client — what the Resolver makes of a command line

The client's document reads back as the tokens before `--` and the parameters after it
(`reads_root`). The Resolver keeps them in a map, so where two parameters have one name the first
one is kept (`decode_encode`).
-/

namespace Holchain.Holper.Client

open Std (TreeMap)
open CommandManager (resolveCommand)

/-- The text before the first colon. -/
def nameOf (arg : Bytes) : Bytes := arg.takeWhile (· != 58)

/-- The text after the first colon, empty where there is none. -/
def valueOf (arg : Bytes) : Bytes := (arg.dropWhile (· != 58)).drop 1

/-- The index of the first `--`, or the number of arguments. -/
def dashes (args : List CString) : Nat := args.findIdx fun arg => arg.val == lit "--"

theorem split_eq (args : List CString) :
    split args = (args.take (dashes args), args.drop (dashes args + 1)) := by
  induction args with
  | nil => rfl
  | cons arg rest ih =>
    by_cases harg : arg.val = lit "--"
    · simp [split, dashes, List.findIdx_cons, harg]
    · have : (arg.val == lit "--") = false := by simpa using harg
      simp [split, dashes, List.findIdx_cons, harg, this, ih]

/-- Splitting at the index of the first `c` is splitting before it. -/
theorem take_drop_idxOf (c : UInt8) (s : Bytes) :
    match s.idxOf? c with
    | none => s.takeWhile (· != c) = s ∧ s.dropWhile (· != c) = []
    | some i => s.takeWhile (· != c) = s.take i ∧ s.dropWhile (· != c) = s.drop i := by
  induction s with
  | nil => simp
  | cons x s ih =>
    rw [List.idxOf?_cons]
    by_cases hx : x = c
    · simp [hx]
    · cases hi : s.idxOf? c with
      | none =>
        rw [hi] at ih
        simpa [hx] using ih
      | some i =>
        rw [hi] at ih
        simpa [hx] using ih

theorem parameter_eq (arg : CString) :
    parameter arg = (nameOf arg.val, .string (valueOf arg.val)) := by
  have h := take_drop_idxOf 58 arg.val
  unfold parameter nameOf valueOf
  cases hi : arg.val.idxOf? 58 with
  | none =>
    rw [hi] at h
    simp only [h.1, h.2, List.drop_nil]
  | some i =>
    rw [hi] at h
    simp only [h.1, h.2, List.drop_drop]

/-- What the client's document holds. -/
theorem reads_root (verbose : Bool) (args : List CString) :
    Resolver.Reads (root verbose args)
      { verbose
        tokens := (args.take (dashes args)).map (·.val)
        members := (args.drop (dashes args + 1)).map parameter } := by
  unfold root
  rw [split_eq]
  refine ⟨_, rfl, rfl, ?_, rfl⟩
  rw [List.map_map]
  rfl

/-- The first argument of a name gives its text. -/
theorem firstText_parameters (args : List CString) (name : Bytes) :
    Resolver.firstText (args.map parameter) name
      = (args.find? fun arg => nameOf arg.val = name).map fun arg => valueOf arg.val := by
  induction args with
  | nil => rfl
  | cons arg args ih =>
    unfold Resolver.firstText at ih ⊢
    rw [List.map_cons, List.findSome?_cons, parameter_eq, ih, List.find?_cons]
    by_cases h : nameOf arg.val = name <;> simp [h]

/-- Parameters of a command line are all strings. -/
theorem splitParameters_raw (args : List CString) :
    (Resolver.splitParameters (args.map parameter)).rawParameters = ∅ := by
  have hkeep (ps : Parameters) :
      ((args.map parameter).foldl Resolver.insertMember ps).rawParameters = ps.rawParameters := by
    induction args generalizing ps with
    | nil => rfl
    | cons arg args ih =>
      rw [List.map_cons, List.foldl_cons, ih, parameter_eq]
      rfl
  exact hkeep {}

/-- **Client and Resolver agree.** For every command line whose document survives being written
and parsed, the Resolver resolves the arguments before the first `--`, and hands on exactly the
arguments after it as string parameters: the value of a name is that of the first argument with
this name. -/
theorem decode_encode (P : Platform) (root : Command) (request : Request) (verbose : Bool)
    (args : List CString)
    (hwrite : 0 ∉ (payload P verbose args).val)
    (hparse : P.parse (payload P verbose args).val = some (Client.root verbose args)) :
    ∃ ps : Parameters,
      Resolver.handleMessage P root request (payload P verbose args).val
        = .ok [.work
          { requestId := request.id
            command := resolveCommand root ((args.take (dashes args)).map (·.val))
            parameters := ps
            finish := { request with verbose } }]
      ∧ (∀ name, ps.parameters[name]?
          = ((args.drop (dashes args + 1)).find? fun arg => nameOf arg.val = name).map
            fun arg => valueOf arg.val)
      ∧ ps.rawParameters = ∅ := by
  have hdoc : Resolver.document P (payload P verbose args).val = Client.root verbose args := by
    rw [Resolver.document, cStr_of_notMem hwrite, hparse]
    rfl
  refine ⟨_, Resolver.handleMessage_eq_ok.mpr ⟨_, hdoc ▸ reads_root verbose args, rfl⟩, ?_, ?_⟩
  · intro name
    rw [← firstText_parameters]
    exact Resolver.splitParameters_get _ name
  · exact splitParameters_raw _

/-! ## Two command lines -/

/-- `volume -- set:40 mute` -/
def setAndMute : List CString :=
  [⟨lit "volume", by decide⟩, ⟨lit "--", by decide⟩, ⟨lit "set:40", by decide⟩,
    ⟨lit "mute", by decide⟩]

/-- `volume -- set:1 set:2` -/
def setTwice : List CString :=
  [⟨lit "volume", by decide⟩, ⟨lit "--", by decide⟩, ⟨lit "set:1", by decide⟩,
    ⟨lit "set:2", by decide⟩]

/-- The text of `volume` with these parameters. -/
def spell (parameters : String) : Bytes :=
  lit ("\x7b\"verbose\":false,\"command\":[\"volume\"],\"parameters\":\x7b"
    ++ parameters ++ "\x7d\x7d")

/-- The texts of the two command lines. -/
def setAndMuteText : Message := ⟨spell "\"set\":\"40\",\"mute\":\"\"", by decide⟩

/-- The same for the second one. -/
def setTwiceText : Message := ⟨spell "\"set\":\"1\",\"set\":\"2\"", by decide⟩

/-- A writer and a reader that agree on the text of one command line. -/
def spelling (text : Message) (args : List CString) : Platform :=
  { Platform.bare with
    write := fun _ => text
    parse := fun s => if s = text.val then some (root false args) else none }

/-- Both parameters arrive. -/
theorem decode_encode_volume :
    ∃ ps : Parameters,
      Resolver.handleMessage (spelling setAndMuteText setAndMute) (CommandManager.new 0)
          { id := 1, socket := 0 } setAndMuteText.val
        = .ok [.work
          { requestId := 1
            command := resolveCommand (CommandManager.new 0) [lit "volume"]
            parameters := ps
            finish := { id := 1, socket := 0 } }]
      ∧ ps.parameters[lit "set"]? = some (lit "40")
      ∧ ps.parameters[lit "mute"]? = some [] := by
  obtain ⟨ps, hsent, hget, -⟩ := decode_encode (spelling setAndMuteText setAndMute)
    (CommandManager.new 0) { id := 1, socket := 0 } false setAndMute (by decide) rfl
  refine ⟨ps, hsent, ?_, ?_⟩
  · rw [hget]
    decide
  · rw [hget]
    decide

/-- The second value of `set` is lost. -/
theorem decode_encode_drops_repeated :
    payload (spelling setTwiceText setTwice) false setTwice = setTwiceText
      ∧ 0 ∉ setTwiceText.val
      ∧ (spelling setTwiceText setTwice).parse setTwiceText.val = some (root false setTwice)
      ∧ ∃ work, Resolver.handleMessage (spelling setTwiceText setTwice) (CommandManager.new 0)
          { id := 1, socket := 0 } setTwiceText.val = .ok [.work work]
        ∧ ¬ ∀ arg ∈ setTwice.drop (dashes setTwice + 1),
          work.parameters.parameters[nameOf arg.val]? = some (valueOf arg.val) :=
  ⟨rfl, by decide, rfl, _, rfl, by decide⟩

end Holchain.Holper.Client
