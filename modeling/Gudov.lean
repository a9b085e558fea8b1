import Gudov.CallOutcome
import Gudov.RowMemory
import Gudov.StepSystem
import Gudov.FlatBuffer
import Gudov.ByteCodec
import Gudov.ByteArray
import Gudov.ByteArrayCursor
import Gudov.ByteArrayOps
import Gudov.ByteArrayRuns
import Gudov.ByteArrayRefinement
import Gudov.ByteArrayTyped
import Gudov.ByteArrayRoundTrip
import Gudov.OrderedList
import Gudov.TimerManager
import Gudov.TimerInvariant
import Gudov.TimerRuns
import Gudov.Scheduler
import Gudov.SchedulerRuns
import Gudov.IOManager
import Gudov.IOManagerInvariant
import Gudov.IOManagerEvents
import Gudov.IOManagerRuns
import Gudov.IdleEvents
import Gudov.FdTable
import Gudov.TickleWakeup
import Gudov.HttpMessage
import Gudov.ActionMachine
import Gudov.Http11Machine
import Gudov.HttpParser
import Gudov.HttpSession
import Gudov.HttpReading
import Gudov.HttpSegments
import Gudov.HttpCuts
import Gudov.ByteArrayScatter
import Gudov.TimerHistory
import Gudov.TimerFront
import Gudov.FdManager
import Gudov.HookFlags
import Gudov.FiberSafety
import Gudov.FiberResume
import Gudov.TimedWait
import Gudov.TimedWaitWakeup
import Gudov.HttpKeepAlive
import Gudov.HttpPhases
import Gudov.HttpDump
import Gudov.HttpStages
import Gudov.HttpRoundTrip
import Gudov.ConnectionPool
import Gudov.PoolAge
import Gudov.ConfigVar
import Gudov.LogConfig
import Gudov.LogYaml
import Gudov.FormatterInheritance
import Gudov.LogFormatter
import Gudov.LogReload
import Gudov.HttpBody
import Gudov.MachineRun
import Gudov.UriMachine
import Gudov.UriTrace
import Gudov.UriComponents
import Gudov.Uri
import Gudov.UriCreate
import Gudov.UriSplit
import Gudov.UriRecorded
import Gudov.UriRoundTrip
import Gudov.ByteArrayUnread
import Gudov.ByteArrayVarint
import Gudov.ByteArrayStrings
import Gudov.ByteArrayAtomic
import Gudov.ByteArrayFile
import Gudov.ByteArrayPositional
import Gudov.HttpClientMachine
import Gudov.HttpResponseParser
import Gudov.HttpConnection
import Gudov.ChunkSize
import Gudov.ChunkLoops
import Gudov.ChunkedBody
import Gudov.TimerExpiry
import Gudov.TimerLiveness
import Gudov.IdleTimeout
import Gudov.HookedSleep
import Gudov.RunningFiber
import Gudov.CrlfText
import Gudov.FdSharing
import Gudov.HttpFraming
import Gudov.HttpMethodTokens
import Gudov.LatestCalls
import Gudov.ServletDispatch
import Gudov.AddressLookup
import Gudov.ColonHex
import Gudov.IPAddresses
import Gudov.IPv6Text
import Gudov.NetworkAddress
import Gudov.BroadcastAddress
import Gudov.AddressOrder
import Gudov.LogPattern
import Gudov.LogEvent
import Gudov.LogText
import Gudov.DoubledPercent
import Gudov.LogEscape
import Gudov.LogOutput
import Gudov.SequenceCasts
import Gudov.ConfigLoading
import Gudov.ConfigListeners
import Gudov.Socket
import Gudov.SocketAddresses
import Gudov.TcpServer
import Gudov.Env
import Gudov.StagedChecks
import Gudov.Shutdown
import Gudov.ShutdownRuns
import Gudov.ContainerCasts
import Gudov.FileRemoval
import Gudov.HttpServer
import Gudov.HttpClientPhases
import Gudov.HttpResponseStages
import Gudov.HttpResponseRoundTrip
import Gudov.TimedWaitCleanup
