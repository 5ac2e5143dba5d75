import Sidecar.Binary.Binary32
import Sidecar.Binary.Checksum
import Sidecar.Binary.Word
import Sidecar.Cache.Basic
import Sidecar.Cache.Flight
import Sidecar.Cache.Operations
import Sidecar.Cache.Release
import Sidecar.Config.Basic
import Sidecar.Config.Document
import Sidecar.Config.File
import Sidecar.Engine.Basic
import Sidecar.Engine.Host
import Sidecar.Error
import Sidecar.FileTree
import Sidecar.Flat.Format
import Sidecar.Flat.Nearest
import Sidecar.Naming
import Sidecar.Path
import Sidecar.Search.Executor
import Sidecar.Search.Match
import Sidecar.Search.Outcome
import Sidecar.Search.Query
import Sidecar.Search.Scorer
import Sidecar.Session
import Sidecar.Subsystem.Background
import Sidecar.Subsystem.Basic
import Sidecar.Text.Quoted
import Sidecar.Toml.DateTime
import Sidecar.Toml.Document
import Sidecar.Toml.Item
import Sidecar.Toml.Number
import Sidecar.Toml.Scan
import Sidecar.Toml.Text
import Sidecar.Vector.Encoding
import Sidecar.Watcher
import Sidecar.Watcher.Post
import Sidecar.WorkerPool
import Sidecar.WorkerPool.Crew
import Sidecar.Writer.Builders
import Sidecar.Writer.Compound
import Sidecar.Writer.DocMap
import Sidecar.Writer.Merge
import Sidecar.Writer.Sidecar
import Sidecar.Proofs.Cache.Entries
import Sidecar.Proofs.Cache.Service
import Sidecar.Proofs.Cache.Move
import Sidecar.Proofs.Cache.Operation
import Sidecar.Proofs.Cache.Weight
import Sidecar.Proofs.Cache.Custody
import Sidecar.Proofs.Cache.Validity
import Sidecar.Proofs.Cache.Alike
import Sidecar.Proofs.Cache.Order
import Sidecar.Proofs.Cache.Sweep
import Sidecar.Proofs.Cache.Idle
import Sidecar.Proofs.Cache.Board
import Sidecar.Proofs.Cache.SingleFlight
import Sidecar.Proofs.Cache.Watched
import Sidecar.Proofs.Merge.Lanes
import Sidecar.Proofs.Merge.Merging
import Sidecar.Proofs.Merge.Survivors
import Sidecar.Proofs.Merge.Interleaving
import Sidecar.Proofs.Files.Address
import Sidecar.Proofs.Files.Key
import Sidecar.Proofs.Search.Ranking
import Sidecar.Proofs.Cache.Contents
import Sidecar.Proofs.Search.FlatEngine
import Sidecar.Proofs.Search.TopK
import Sidecar.Proofs.Search.Transparency
import Sidecar.Proofs.Files.Changes
import Sidecar.Proofs.WorkerPool.Traffic
import Sidecar.Proofs.Writer.Workers
import Sidecar.Proofs.Writer.Abandoned
import Sidecar.Proofs.Writer.Failure
import Sidecar.Proofs.Files.Presence
import Sidecar.Proofs.Files.Rename
import Sidecar.Proofs.Writer.Published
import Sidecar.Proofs.Search.Afresh
import Sidecar.Proofs.Search.Rebuilt
import Sidecar.Proofs.Flat.RoundTrip
import Sidecar.Proofs.Flat.Burst
import Sidecar.Proofs.Flat.Damage
import Sidecar.Proofs.Writer.Awaited
import Sidecar.Proofs.Writer.Flush
import Sidecar.Proofs.Cache.WatchTable
import Sidecar.Proofs.WorkerPool.Rundown
import Sidecar.Proofs.Search.Verdict
import Sidecar.Proofs.Search.Merged
import Sidecar.Proofs.Writer.Workshop
import Sidecar.Proofs.Writer.Retry
import Sidecar.Proofs.Writer.Race
import Sidecar.Proofs.Writer.Sequential
import Sidecar.Proofs.WorkerPool.Logbook
import Sidecar.Proofs.Writer.Naming
import Sidecar.Proofs.Cache.Closed
import Sidecar.Proofs.Cache.Accounts
import Sidecar.Proofs.Search.Reordered
import Sidecar.Proofs.Cache.Eviction
import Sidecar.Proofs.Writer.Twins
import Sidecar.Proofs.Search.Packed
import Sidecar.Proofs.Toml.Values
import Sidecar.Proofs.Toml.Lines
import Sidecar.Proofs.Config.RoundTrip
import Sidecar.Proofs.Search.Heap
import Sidecar.Proofs.Search.Attempts
import Sidecar.Proofs.Cache.Refusal
import Sidecar.Proofs.Cache.Deletion
import Sidecar.Proofs.Search.Scores
import Sidecar.Proofs.Search.Walk
import Sidecar.Proofs.Vector.Decoding
import Sidecar.Proofs.Flat.Bounds
import Sidecar.Proofs.Merge.Heads
