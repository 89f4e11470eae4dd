import LogEngine.Verified.Tiling
import LogEngine.Verified.Framing
import LogEngine.Verified.Bisection
import LogEngine.Verified.Fallible
import LogEngine.Verified.Blindness
import LogEngine.Verified.Machine
import LogEngine.Verified.ShiftRegister
import LogEngine.Verified.Positional
import LogEngine.Verified.Quorum
import LogEngine.Verified.Election
import LogEngine.Verified.Seats
import LogEngine.Verified.Replication
import LogEngine.Verified.Completeness
import LogEngine.Verified.Standing
import LogEngine.Verified.Acts
import LogEngine.Base.Bytes
import LogEngine.Base.Buffer
import LogEngine.Base.Crc
import LogEngine.Sim.Scheduler
import LogEngine.Sim.Timeline
import LogEngine.Runtime.EventLoop
import LogEngine.Io.Disk
import LogEngine.Io.SimDisk
import LogEngine.Io.SeededRandom
import LogEngine.Io.SimNetwork
import LogEngine.Io.FabricSteps
import LogEngine.Io.ByteStream
import LogEngine.Io.StreamEnd
import LogEngine.Wire.Frame
import LogEngine.Storage.RecordBatch
import LogEngine.Storage.Frame
import LogEngine.Storage.Records
import LogEngine.Storage.Corruption
import LogEngine.Storage.Hostile
import LogEngine.Storage.SparseIndex
import LogEngine.Storage.Segment
import LogEngine.Storage.Contents
import LogEngine.Storage.Walks
import LogEngine.Storage.Recovery
import LogEngine.Storage.Salvage
import LogEngine.Storage.Sidecar
import LogEngine.Storage.Log
import LogEngine.Storage.Names
import LogEngine.Storage.Steps
import LogEngine.Storage.Intact
import LogEngine.Storage.Reads
import LogEngine.Storage.Reopen
import LogEngine.Storage.ReadErrors
import LogEngine.Storage.Session
import LogEngine.Storage.Progress
import LogEngine.Storage.Consumer
import LogEngine.Storage.Truncation
import LogEngine.Storage.Leftovers
import LogEngine.Storage.Platter
import LogEngine.Storage.Shutdown
import LogEngine.Storage.Steady
import LogEngine.Storage.Replica
import LogEngine.Storage.Failures
import LogEngine.Storage.Torn
import LogEngine.Storage.Crash
import LogEngine.Storage.PowerCut
import LogEngine.Raft.Types
import LogEngine.Raft.StateFile
import LogEngine.Raft.Node
import LogEngine.Raft.Effects
import LogEngine.Raft.Announce
import LogEngine.Raft.LogView
import LogEngine.Raft.Codec
import LogEngine.Raft.Candidacy
import LogEngine.Raft.EpochMap
import LogEngine.Raft.TermList
import LogEngine.Raft.Cluster
import LogEngine.Raft.Refinement
import LogEngine.Raft.Simulation
import LogEngine.Raft.Delivery
import LogEngine.Raft.Commit
import LogEngine.Raft.Safety
import LogEngine.Raft.SendPosition
import LogEngine.Raft.CommitRule
import LogEngine.Raft.CommitBound
import LogEngine.Raft.Backoff
import LogEngine.Raft.MatchIndex
import LogEngine.Raft.Lease
import LogEngine.Server.Stream
import LogEngine.Server.LogOrders
import LogEngine.Server.Replicate
import LogEngine.Server.Broker
import LogEngine.Server.Calls
import LogEngine.Server.Host
import LogEngine.Server.Persistence
import LogEngine.Server.StateSlots
import LogEngine.Server.Fleet
import LogEngine.Server.Agreement
import LogEngine.Server.Durable
import LogEngine.Server.Mirror
import LogEngine.Server.Lockstep
import LogEngine.Server.Wired
