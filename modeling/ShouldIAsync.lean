import ShouldIAsync.Lib.System
import ShouldIAsync.GoStd.Pipe
import ShouldIAsync.HarnessIo.MorphingInv
import ShouldIAsync.HarnessIo.MorphingDelivery
import ShouldIAsync.EventLoop.Command
import ShouldIAsync.Lib.History
import ShouldIAsync.EventLoop.CommandInv
import ShouldIAsync.EventLoop.CommandMain
import ShouldIAsync.EventLoop.CommandJoin
import ShouldIAsync.EventLoop.ExecCmd
import ShouldIAsync.GoStd.Lines
import ShouldIAsync.GoStd.Scanner
import ShouldIAsync.HarnessIo.ScanningWriter
import ShouldIAsync.Lib.Span
import ShouldIAsync.HarnessIo.MorphingCalls
import ShouldIAsync.HarnessIo.OutputWriter
import ShouldIAsync.HarnessIo.LogLines
import ShouldIAsync.HarnessIo.Passthrough
import ShouldIAsync.Echo.RoundTrip
import ShouldIAsync.Echo.Tcp
import ShouldIAsync.Echo.PingPong
import ShouldIAsync.Echo.Runs
import ShouldIAsync.Echo.Accounting
import ShouldIAsync.Echo.Graceful
import ShouldIAsync.Echo.Serving
import ShouldIAsync.Csgb.SocketAsync
import ShouldIAsync.Csgb.SocketAsyncInv
import ShouldIAsync.Csgb.Futex
import ShouldIAsync.Csgb.FutexEcho
import ShouldIAsync.Csgb.Socket
import ShouldIAsync.Echo.StartBarrier
import ShouldIAsync.Echo.AcceptServe
import ShouldIAsync.JavaEcho.Common
import ShouldIAsync.JavaEcho.Link
import ShouldIAsync.JavaEcho.Conversation
import ShouldIAsync.JavaEcho.Segments
import ShouldIAsync.JavaEcho.Clients
import ShouldIAsync.JavaEcho.Shutdown
import ShouldIAsync.IntelProcTrace.SlidingWindow
import ShouldIAsync.IntelProcTrace.IpcSpans
import ShouldIAsync.IntelProcTrace.IpcBounds
import ShouldIAsync.IntelProcTrace.CallHierarchy
import ShouldIAsync.IntelProcTrace.FullSyscalls
import ShouldIAsync.IntelProcTrace.Export
import ShouldIAsync.IntelProcTrace.ExportRows
import ShouldIAsync.IntelProcTrace.ExportTables
import ShouldIAsync.GoStd.Tokens
import ShouldIAsync.HarnessIo.ScanningRun
import ShouldIAsync.HarnessIo.ScanningLines
import ShouldIAsync.HarnessIo.LockingWriter
import ShouldIAsync.GoStd.Words
import ShouldIAsync.HarnessIo.Delimiters
import ShouldIAsync.Echo.AcceptResult
import ShouldIAsync.Echo.Retry
import ShouldIAsync.IntelProcTrace.OnCpuSyscalls
import ShouldIAsync.IntelProcTrace.RangeCdf
import ShouldIAsync.IntelProcTrace.TimeBounds
import ShouldIAsync.JavaEcho.Registration
import ShouldIAsync.JavaEcho.RunClients
import ShouldIAsync.Csgb.Pairs
import ShouldIAsync.Echo.Metrics
import ShouldIAsync.Harness.ContainerRunner
import ShouldIAsync.SyncServer.HandleConnection
import ShouldIAsync.HarnessIo.MorphingDone
import ShouldIAsync.Csgb.RunPairs
import ShouldIAsync.Csgb.RunCalls
import ShouldIAsync.Echo.Dialing
import ShouldIAsync.SyncServer.Conversation
import ShouldIAsync.IntelProcTrace.ContextSwitches
import ShouldIAsync.IntelProcTrace.RangeTiles
import ShouldIAsync.IntelProcTrace.ErrorsAndRanges
import ShouldIAsync.IntelProcTrace.OvfErrors
import ShouldIAsync.EventLoop.Launching
import ShouldIAsync.JavaEcho.ListenAndHandle
import ShouldIAsync.IntelProcTrace.ExportSchema
import ShouldIAsync.Csgb.RunAsync
