import Eventuals.Library.Transition
import Eventuals.Library.Intrusive
import Eventuals.Library.Fifo
import Eventuals.Library.Monitor
import Eventuals.Library.MonitorView
import Eventuals.Library.Tokens
import Eventuals.Library.Iteration
import Eventuals.Library.Countdown
import Eventuals.Library.Resumption
import Eventuals.Lock
import Eventuals.LockInvariant
import Eventuals.Wait
import Eventuals.ConditionVariable
import Eventuals.RequestResponseChannel
import Eventuals.Pipe
import Eventuals.Concurrent
import Eventuals.ConcurrentInvariant
import Eventuals.ConcurrentHistory
import Eventuals.ConcurrentProgress
import Eventuals.ConcurrentOrdered
import Eventuals.ConcurrentOrderedReorder
import Eventuals.ConcurrentOrderedTranches
import Eventuals.ConcurrentUndisturbed
import Eventuals.ConcurrentOrderedRefinement
import Eventuals.ConcurrentOrderedOutput
import Eventuals.ConcurrentOrderedProgress
import Eventuals.Join
import Eventuals.JoinInvariant
import Eventuals.JoinProgress
import Eventuals.JoinInterrupt
import Eventuals.Interrupt
import Eventuals.InterruptInvariant
import Eventuals.InterruptUndisturbed
import Eventuals.InterruptSequential
import Eventuals.Submit
import Eventuals.SubmitInvariant
import Eventuals.Register
import Eventuals.RegisterInvariant
import Eventuals.Stream
import Eventuals.StreamInvariant
import Eventuals.StreamSemantics
import Eventuals.TypeTraits
import Eventuals.Errors
import Eventuals.ErrorsSound
import Eventuals.Clock
import Eventuals.ClockHistory
import Eventuals.Handle
import Eventuals.Signal
import Eventuals.Timer
import Eventuals.TimerInvariant
import Eventuals.Poll
import Eventuals.PollInvariant
import Eventuals.ControlLoop
import Eventuals.Executor
import Eventuals.ExecutorInvariant
import Eventuals.Schedule
import Eventuals.Task
import Eventuals.Transformer
import Eventuals.TransformerTransparent
import Eventuals.HTTP
import Eventuals.HTTPInvariant
import Eventuals.Take
import Eventuals.CompletionThreadPool
import Eventuals.Route
import Eventuals.CompletionThreadPoolWait
import Eventuals.CompletionThreadPoolSchedule
import Eventuals.Catch
import Eventuals.Fusion
import Eventuals.Synchronized
import Eventuals.SynchronizedPlaced
import Eventuals.SynchronizedInvariant
import Eventuals.Server
import Eventuals.ServerInvariant
import Eventuals.ServerCalls
import Eventuals.ServerShutdown
import Eventuals.Range
import Eventuals.StaticThreadPoolForkJoin
import Eventuals.HTTPHeaders
import Eventuals.HTTPRequestHeaders
import Eventuals.HTTPResponseHeaders
import Eventuals.ReorderAdaptor
import Eventuals.TypeTraitsUnion
import Eventuals.Composed
import Eventuals.ComposedMeaning
import Eventuals.ComposedLaws
import Eventuals.ServerCall
import Eventuals.UnaryCall
import Eventuals.UnaryCallAgreement
import Eventuals.Notification
import Eventuals.StaticThreadPoolLifetime
import Eventuals.StaticThreadPoolDestruction
import Eventuals.Promisify
import Eventuals.LockLine
import Eventuals.LockMonitor
import Eventuals.LockMonitorInvariant
import Eventuals.LockMonitorRefinement
import Eventuals.LockMonitorProgress
import Eventuals.Library.Contract
import Eventuals.OpenSSL
import Eventuals.OpenSSLRules
import Eventuals.OpenSSLReference
import Eventuals.RSAKey
import Eventuals.X509Certificate
import Eventuals.ValueSemantics
import Eventuals.ValueSemanticsOwnership
import Eventuals.ValueSemanticsRuns
