import Honker.Library.Table
import Honker.Library.TopN
import Honker.Library.Numeric
import Honker.Library.Transaction
import Honker.Savepoint
import Honker.Library.Transition
import Honker.Schema
import Honker.Claim
import Honker.Jobs
import Honker.Calls
import Honker.Statements
import Honker.Effects
import Honker.Conservation
import Honker.RowState
import Honker.Fencing
import Honker.Lease
import Honker.Drain
import Honker.Library.Calendar
import Honker.Library.Loop
import Honker.Schedule
import Honker.Wake
import Honker.Cron
import Honker.NextMatch
import Honker.Zones
import Honker.Catchup
import Honker.Fires
import Honker.Refire
import Honker.Locks
import Honker.RateLimit
import Honker.Library.Interleaving
import Honker.Watcher
import Honker.Library.Monitor
import Honker.PollLoop
import Honker.Readers
import Honker.Writer
import Honker.Library.Log
import Honker.Listen
import Honker.Library.Consumer
import Honker.Streams
import Honker.StreamIter
import Honker.StreamSub
import Honker.Handout
import Honker.Migration
import Honker.Grammar
import Honker.Library.Custody
import Honker.SqlWatchers
import Honker.AckBatch
import Honker.Timestamps
import Honker.SchedulerUpdate
import Honker.Registration
import Honker.Checkpoint
import Honker.JvmJson
import Honker.JvmRoundTrip
import Honker.Library.FileSystem
import Honker.ShmRegistry
import Honker.ShmAcquire
import Honker.ShmWatcher
import Honker.ClaimWaker
import Honker.Leader
import Honker.Outbox
import Honker.Session
import Honker.Tasks
import Honker.Results
import Honker.UpdateEvents
import Honker.WaitResult
import Honker.ElixirHub
import Honker.ElixirSubscribers
import Honker.ElixirWaits
import Honker.SchedulerSleep
