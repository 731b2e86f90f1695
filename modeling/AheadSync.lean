import AheadSync.Lib.Table
import AheadSync.Lib.SortedMap
import AheadSync.Lib.Outcome
import AheadSync.Lib.Reach
import AheadSync.Lib.Run
import AheadSync.Core.Value
import AheadSync.Core.Codecs
import AheadSync.Core.Schema
import AheadSync.Core.Normal
import AheadSync.Core.Protocol
import AheadSync.Client.Store
import AheadSync.Client.Rows
import AheadSync.Client.Mutate
import AheadSync.Client.Enqueue
import AheadSync.Client.Authority
import AheadSync.Client.Push
import AheadSync.Client.Transport
import AheadSync.Client.Wellformed
import AheadSync.Client.Rebuild
import AheadSync.Client.Stage
import AheadSync.Client.Refresh
import AheadSync.Client.Perform
import AheadSync.Client.Complete
import AheadSync.Client.Run
import AheadSync.Client.Tidy
import AheadSync.Client.Replay
import AheadSync.Client.Truth
import AheadSync.Client.Cursors
import AheadSync.Client.Flight
import AheadSync.Client.Isolation
import AheadSync.Client.Frames
import AheadSync.Lib.Lww
import AheadSync.Lib.Savepoints
import AheadSync.Client.Plain
import AheadSync.Client.Commute
import AheadSync.Server.Config
import AheadSync.Server.Host
import AheadSync.Server.Decode
import AheadSync.Server.Readback
import AheadSync.Server.Live
import AheadSync.Server.Wake
import AheadSync.Client.Answers
import AheadSync.Client.Session
import AheadSync.Client.Reopen
import AheadSync.Client.Spine
import AheadSync.Client.Frozen
import AheadSync.Client.Fence
import AheadSync.Client.Serial
import AheadSync.Lib.Catalog
import AheadSync.Client.Ddl
import AheadSync.Client.Naming
import AheadSync.Compiler.Declarations
import AheadSync.Compiler.Generate
import AheadSync.Compiler.Validate
import AheadSync.Compiler.History
import AheadSync.Lib.Versions
import AheadSync.Compiler.Accepted
import AheadSync.Core.Valid
import AheadSync.Compiler.Contracts
import AheadSync.Compiler.Readers
import AheadSync.Core.Extend
import AheadSync.Compiler.Inputs
import AheadSync.Compiler.Carried
import AheadSync.Lib.Greedy
import AheadSync.Server.Grammar
import AheadSync.Compiler.Slots
import AheadSync.Lib.Parsing
import AheadSync.Compiler.Parse
import AheadSync.Server.Accepts
import AheadSync.Compiler.Loads
import AheadSync.Client.Reject
import AheadSync.Lib.Select
import AheadSync.Client.Select
import AheadSync.Client.Settle
import AheadSync.Core.Wire
import AheadSync.Core.RoundTrip
import AheadSync.Client.Live
import AheadSync.Client.Lane
import AheadSync.Lib.Ledger
import AheadSync.Server.Push
import AheadSync.Server.Accounting
import AheadSync.Client.Told
import AheadSync.Client.Alike
import AheadSync.Client.Unordered
import AheadSync.Core.Compatibility
import AheadSync.Core.Channels
import AheadSync.Server.Negotiate
import AheadSync.Lib.Lexicographic
import AheadSync.Client.Query
import AheadSync.Lib.Group
import AheadSync.Server.Pull
import AheadSync.Server.Batched
import AheadSync.Client.Epochs
import AheadSync.Client.Cycle
import AheadSync.Client.Dependencies
import AheadSync.Client.Companions
import AheadSync.Client.Cover
import AheadSync.Client.Direct
import AheadSync.Client.Calls
import AheadSync.Client.Upgrade
import AheadSync.Client.Schedule
import AheadSync.Lib.Tokens
import AheadSync.Core.Zoned
import AheadSync.Core.Reread
import AheadSync.Core.Canonical
import AheadSync.Core.Encoded
import AheadSync.Client.Closure
import AheadSync.Client.Related
import AheadSync.Lib.OrderBy
import AheadSync.Client.QueueTables
import AheadSync.Client.QueueStorage
import AheadSync.Client.QueueReading
import AheadSync.Client.QueueRun
import AheadSync.Client.Handover
import AheadSync.Client.Cells
import AheadSync.Lib.SqlFile
import AheadSync.Client.SqlRows
import AheadSync.Client.LeftBehind
import AheadSync.Lib.Stepwise
import AheadSync.Client.Files
import AheadSync.Client.Laid
import AheadSync.Client.Opening
import AheadSync.Client.InPlace
import AheadSync.Lib.Exchange
import AheadSync.Client.Passing
import AheadSync.System.Serve
import AheadSync.System.ExactlyOnce
import AheadSync.Client.Crash
import AheadSync.Client.Host
import AheadSync.Client.Undo
import AheadSync.Server.Feed
import AheadSync.System.CatchUp
import AheadSync.Client.History
import AheadSync.Server.Truthful
import AheadSync.System.Acceptable
