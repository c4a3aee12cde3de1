import Holchain.Lib.Transition
import Holchain.Laws.ParamSpec
import Holchain.Laws.CommandManager
import Holchain.Laws.Resolver
import Holchain.Laws.Socket
import Holchain.Laws.WorkPool
import Holchain.Holper.Daemon
import Holchain.Holper.Worker
import Holchain.Laws.Worker
import Holchain.Holper.Client
import Holchain.Laws.Client
import Holchain.Laws.Pipeline
import Holchain.Laws.Daemon
import Holchain.Laws.Answer
import Holchain.Holper.Scheduler
import Holchain.Lib.PriorityQueue
import Holchain.Holper.Machine
import Holchain.Laws.Scheduler
import Holchain.Holper.Display
import Holchain.Holper.Pulse
import Holchain.Holper.Clipboard
import Holchain.Laws.Action
import Holchain.Lib.Pipe
import Holchain.Holper.Subprocess
import Holchain.Laws.Subprocess
import Holchain.Holper.Fork
import Holchain.Laws.Fork
import Holchain.Bin.Fromto
import Holchain.Laws.Fromto
import Holchain.Bin.Urlencode
import Holchain.Laws.Urlencode
import Holchain.Bin.Localdb
import Holchain.Laws.Localdb
import Holchain.Bin.Bashscriptgen
import Holchain.Laws.Bashscriptgen
import Holchain.Bin.LocaldbSteps
import Holchain.Laws.LocaldbSteps
import Holchain.Lib.Codepoints
import Holchain.Lib.Json
import Holchain.Lib.JsonLaws
import Holchain.Python.Holperd
import Holchain.Laws.Holperd
import Holchain.Laws.HolperdStreams
import Holchain.Laws.HolperdReplies
import Holchain.Bin.Supp
import Holchain.Laws.Supp
import Holchain.Lib.Transaction
import Holchain.French.Conjugate
import Holchain.Laws.Jsontomysql
import Holchain.Laws.Conjugate
import Holchain.Laws.Clipboard
import Holchain.Lib.FileTree
import Holchain.Lib.Script
import Holchain.Rc.Setup
import Holchain.Laws.Setup
import Holchain.Laws.Draws
import Holchain.Laws.PasswordLimits
import Holchain.Holper.Logger
import Holchain.Lib.RingBuffer
import Holchain.Laws.Logger
import Holchain.Holper.Profiler
import Holchain.Lib.Chronicle
import Holchain.Laws.Profiler
import Holchain.Laws.TimeText
import Holchain.Laws.Text
import Holchain.Laws.Backlight
import Holchain.Holper.Split
import Holchain.Lib.Pieces
import Holchain.Laws.Split
import Holchain.Lib.Template
import Holchain.Rc.Bashrc
import Holchain.Laws.Bashrc
import Holchain.Laws.SuppNames
import Holchain.Laws.BufferSwitcher
import Holchain.Laws.PreviousBuffer
import Holchain.Lib.Regex
import Holchain.Rc.VimPy
import Holchain.Lib.Runs
import Holchain.Laws.VimPy
import Holchain.Lib.Bre
import Holchain.Laws.IncludeIn
import Holchain.Bin.Generated
import Holchain.Laws.Conversation
import Holchain.Laws.Drain
import Holchain.Laws.Generated
import Holchain.Laws.GeneratedRuns
import Holchain.Laws.SearchPath
import Holchain.Holper.Music
import Holchain.Laws.Music
import Holchain.Laws.CodeReview
import Holchain.Laws.Loads
import Holchain.Laws.LogTargets
import Holchain.Laws.SetupAgain
import Holchain.Bin.I3helper
import Holchain.Holper.Backlight
import Holchain.Laws.BacklightRuns
import Holchain.Laws.I3helper
import Holchain.Bin.SuppPrint
import Holchain.Laws.SuppPrint
import Holchain.Holper.Server
import Holchain.Laws.Server
