import Oam.Permissions.Posix
import Oam.Permissions.Net
import Oam.Cli.Inherit
import Oam.Cli.LiftFlags
import Oam.Win32.TailBytes
import Oam.Permissions.Windows
import Oam.Loader.Extract
import Oam.Loader.Install
import Oam.Loader.Resolver
import Oam.Loader.Precompile
import Oam.Http.HeadLimits
import Oam.Zlib.History
import Oam.Zlib.RoundTrip
import Oam.Http.DecoderComposes
import Oam.Fetch.Grant
import Oam.Fetch.Resends
import Oam.Fetch.Credentials
import Oam.Fetch.Idle
import Oam.Fetch.Lease
import Oam.Engine.TimerRuns
import Oam.SelfUpdate.Installs
import Oam.Tls.Identity
import Oam.Http.Bodies
import Oam.Http.Budget
import Oam.Fetch.BodyReads
import Oam.FsWatch.Watchers
import Oam.Engine.Replay
import Oam.Engine.LoopDrains
import Oam.Tls.BytePipe
import Oam.Tls.Flight
import Oam.Http.ParserLimit
import Oam.Net.BlockList
import Oam.Ts.Daemon
import Oam.Fs.Glob
import Oam.Child.Output
import Oam.Child.CommandLine
import Oam.Child.Kill
import Oam.Engine.OpRefs
import Oam.Engine.CjsRecords
import Oam.Loader.NodeTargets
import Oam.Loader.Tsconfig
import Oam.Js.SearchParams
