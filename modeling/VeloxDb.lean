import VeloxDb.Common.Decimal
import VeloxDb.Common.Checked
import VeloxDb.Common.Loop
import VeloxDb.Common.Machine
import VeloxDb.Common.SharedMutex
import VeloxDb.Common.Sweep
import VeloxDb.Common.Weight
import VeloxDb.Common.FileSystem
import VeloxDb.Common.FileProgram
import VeloxDb.Common.Framing
import VeloxDb.Common.Reservation
import VeloxDb.Common.Footprints
import VeloxDb.Common.Sections
import VeloxDb.Common.Progress
import VeloxDb.Common.Layers
import VeloxDb.Util.Strings
import VeloxDb.Config
import VeloxDb.Config.Loader
import VeloxDb.Config.Layers
import VeloxDb.Config.RoundTrip
import VeloxDb.Protocol.Resp
import VeloxDb.Protocol.Framing
import VeloxDb.Protocol.Acceptance
import VeloxDb.Protocol.Stream
import VeloxDb.Protocol.Grammar
import VeloxDb.Protocol.ReadBack
import VeloxDb.Protocol.Bounds
import VeloxDb.Protocol.Inline
import VeloxDb.Protocol.Replies
import VeloxDb.Storage.Engine
import VeloxDb.Storage.Invariant
import VeloxDb.Storage.Keyspace
import VeloxDb.Storage.Operations
import VeloxDb.Storage.Refinement
import VeloxDb.Storage.Unlimited
import VeloxDb.Storage.Accounting
import VeloxDb.Persistence.Replay
import VeloxDb.Persistence.Aof
import VeloxDb.Persistence.Snapshot
import VeloxDb.Persistence.Limits
import VeloxDb.Persistence.Outcomes
import VeloxDb.Persistence.Messages
import VeloxDb.Persistence.Manifest
import VeloxDb.Commands.Data
import VeloxDb.Commands.Registry
import VeloxDb.Commands.Effects
import VeloxDb.Server
import VeloxDb.Net.Worker
import VeloxDb.Net.Closing
import VeloxDb.Net.Accepting
import VeloxDb.Net.Handover
import VeloxDb.Net.Pool
import VeloxDb.Net.Dialogue
import VeloxDb.Recovery.Deadlines
import VeloxDb.Recovery.Reachable
import VeloxDb.Storage.Refusals
import VeloxDb.Storage.Counters
import VeloxDb.Storage.ActiveExpiration
import VeloxDb.Commands.Expiry
import VeloxDb.Commands.SetGrammar
import VeloxDb.Commands.Replies
import VeloxDb.Commands.Mutation
import VeloxDb.Commands.Budget
import VeloxDb.Commands.Locality
import VeloxDb.Recovery.Simulation
import VeloxDb.Recovery.Serving
import VeloxDb.Recovery.Records
import VeloxDb.Recovery.ErrorReplies
import VeloxDb.Recovery.PartialLoads
import VeloxDb.Recovery.Loading
import VeloxDb.Recovery.Restart
import VeloxDb.Recovery.Untimed
import VeloxDb.Recovery.Checkpoint
import VeloxDb.Recovery.Rewriting
import VeloxDb.Recovery.RoundTrip
import VeloxDb.Recovery.Crash
import VeloxDb.Recovery.TornTail
import VeloxDb.Recovery.FailedAppends
import VeloxDb.Concurrency.Workers
import VeloxDb.Concurrency.Checkpoints
import VeloxDb.Concurrency.Files
import VeloxDb.Concurrency.Order
import VeloxDb.Storage.Scripts
import VeloxDb.Storage.Soundness
import VeloxDb.Concurrency.Calls
