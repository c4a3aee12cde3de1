import Holchain.Bin.Shell
import Holchain.Holper.Platform

/-!
# Holper.Client — the payload of a command line

What the client's `main` makes of the arguments that option parsing leaves: those before `--`
are the command, those after it are parameters, split at their first colon. In front of that stands
the parsing of the options, and behind it what is printed of the response.
-/

namespace Holchain.Holper.Client

/-- An element of `argv`. -/
abbrev CString := { b : Bytes // 0 ∉ b }

/-- The two loops over `argv`: the first one stops behind a `--`, the second one goes on there. -/
def split : List CString → List CString × List CString
  | [] => ([], [])
  | arg :: rest =>
    if arg.val = lit "--" then ([], rest)
    else
      let (command, parameters) := split rest
      (arg :: command, parameters)

/-- `parameters.AddMember`. -/
def parameter (arg : CString) : Bytes × Json :=
  match arg.val.idxOf? 58 with
  | none => (arg.val, .string [])
  | some cidx => (arg.val.take cidx, .string (arg.val.drop (cidx + 1)))

/-- The document, `verbose` being the option `-V` (or `-d`). -/
def root (verbose : Bool) (args : List CString) : Json :=
  let (command, parameters) := split args
  .object [(lit "verbose", .bool verbose),
    (lit "command", .array (command.map fun arg => .string arg.val)),
    (lit "parameters", .object (parameters.map parameter))]

/-- What is written to the socket. -/
def payload (P : Platform) (verbose : Bool) (args : List CString) : Message :=
  P.write (root verbose args)

/-! ## The program -/

/-- What the options say. -/
structure Options where
  socketPath : Bytes
  clientVerbose : Bool := false
  serverVerbose : Bool := false
  restartDaemon : Bool := false

/-- `/run/user/%d/NAME.sock`. -/
def socketPath (uid : Int) (name : String) : Bytes :=
  lit "/run/user/" ++ decimal uid ++ lit "/" ++ lit name ++ lit ".sock"

/-- `dev_socket_path`. -/
def devSocketPath (uid : Int) : Bytes := socketPath uid "holperdev"

/-- What `printHelpAndExit` prints. -/
def help (uid : Int) (o : Options) : Bytes :=
  lit "Holper client - Forms commands and sends to holper server\n"
    ++ lit "Options:\n"
    ++ lit "  -h: Print this message and exit\n"
    ++ lit "  -r: Restart daemon\n"
    ++ lit "  -d: Development mode (socket path: " ++ devSocketPath uid ++ lit " and verbose)\n"
    ++ lit "  -s [PATH]: Use provided unix socket path (default: " ++ o.socketPath ++ lit ")\n"
    ++ lit "  -V : Verbose (server) \n"
    ++ lit "  -v: Verbose (client)\n"

/-- The loop over the options. The error is what is printed and the code, where it ends the
program. -/
def options (uid : Int) (o : Options) : List Bin.Opt → Except (Bytes × Int) Options
  | [] => .ok o
  | opt :: opts =>
    if opt.opt = 100 then
      options uid { o with socketPath := devSocketPath uid, serverVerbose := true } opts
    else if opt.opt = 115 then options uid { o with socketPath := opt.optarg } opts
    else if opt.opt = 118 then options uid { o with clientVerbose := true } opts
    else if opt.opt = 86 then options uid { o with serverVerbose := true } opts
    else if opt.opt = 114 then options uid { o with restartDaemon := true } opts
    else .error (help uid o, if opt.opt = 104 then 0 else -1)

/-- The options of a command line and its other arguments, from `optind` on. glibc's `getopt` takes
`+dhrs:vV` as bash's `getopts` takes it without the sign. -/
def commandLine (uid : Int) (argv : List CString) : Except (Bytes × Int) (Options × List CString) :=
  let (opts, rest) := Bin.getopts (lit "dhrs:vV") (argv.map (·.val))
  (options uid { socketPath := socketPath uid "holperd" } opts).map fun o =>
    (o, argv.drop (argv.length - rest.length))

/-- What `exit` and a return from `main` leave of a code. -/
def exitStatus (code : Int) : Nat := (code % 256).toNat

/-- How `main` goes on behind its options. -/
inductive Start where
  | exits (stdout : Bytes) (status : Nat)
  /-- it becomes `systemctl` -/
  | restarts
  | sends (socketPath : Bytes) (clientVerbose : Bool) (message : Message)

/-- `main`, up to what it writes to the socket. -/
def start (P : Platform) (uid : Int) (argv : List CString) : Start :=
  match commandLine uid argv with
  | .error (stdout, code) => .exits stdout (exitStatus code)
  | .ok (o, args) =>
    if o.restartDaemon then .restarts
    else .sends o.socketPath o.clientVerbose (payload P o.serverVerbose args)

/-- What is printed of a response: its text, or the value of the member `response`. -/
def printed (P : Platform) (clientVerbose : Bool) (response : Bytes) (value : Json) : Bytes :=
  if clientVerbose then cStr response ++ lit "\n"
  else
    match value with
    | .string s => cStr s ++ lit "\n"
    | value => cStr (P.write value).val

/-- `main` from the response on: what it prints, and its exit status. None where a member is not
there or `GetInt` is asked for another value. -/
def finish (P : Platform) (clientVerbose : Bool) (response : Bytes) : Option (Bytes × Nat) :=
  let document := (P.parse (cStr response)).getD .null
  match document.member (lit "response"), document.member (lit "code") with
  | .ok value, .ok (.int code) =>
    if -2 ^ 31 ≤ code ∧ code < 2 ^ 31 then
      some (printed P clientVerbose response value, exitStatus code)
    else none
  | .error _, .ok (.int code) =>
    -- with `-v` the member is not looked up
    if clientVerbose ∧ -2 ^ 31 ≤ code ∧ code < 2 ^ 31 then
      some (printed P true response .null, exitStatus code)
    else none
  | _, _ => none

end Holchain.Holper.Client
