import LogEngine.Raft.Node
import LogEngine.Raft.StateFile
import LogEngine.Storage.Log

/-!
# The broker

`src/server/broker.{h,cpp}`: a `raft::Node`, a `storage::Log` and `raft.state`,
driven together.  A broker here is one that `start` has brought up, so that it
has a log and a node.

What leaves a broker is recorded in `observed`, with the disk and the node as they
are at that moment: the messages it puts on the wire and the commits it reports to
its observer.  A message the network then loses is lost by whoever reads that list.
Frames and sockets are left out: a message arrives as `decode_message` hands it to
`receive_raft`, with the bytes of its entry.
-/

namespace LogEngine.Server

open Base Io Io.Disk Storage Raft Verified.Fallible

/-- `BrokerConfig`, with the part that `raft::Config` takes over as one field. -/
structure BrokerConfig where
  raft : Config
  segmentMaxBytes : Nat := 0x2000000
  fsyncHardState : Bool := true
  ackOnLocalAppend : Bool := false
  deriving DecidableEq, Repr

def BrokerConfig.logOptions (c : BrokerConfig) : LogOptions :=
  { segmentMaxBytes := c.segmentMaxBytes }

/-- `kEntryScratchBytes`. -/
def kEntryScratchBytes : Nat := 0x10000

inductive Event
  /-- A message goes onto the wire, with the bytes of its entry. -/
  | sent (message : Message) (entry : Bytes)
  /-- `BrokerObserver::on_committed`. -/
  | committed (start stop : Nat)

/-- Something that left the broker, and the state it left in. -/
structure Observation where
  event : Event
  disk : Disk
  raft : Node

structure Broker where
  config : BrokerConfig
  store : Store
  raft : Node
  stateSequence : Nat
  lastCommitSeen : Nat := 0
  running : Bool := true
  observed : List Observation := []

/-- A program of a broker. -/
abbrev BrokerM := EStateM ErrorCode Broker

namespace Broker

def disk (b : Broker) : Disk := b.store.disk

def log (b : Broker) : Log := b.store.log

def withDisk (d : Disk) (b : Broker) : Broker := { b with store := { b.store with disk := d } }

def onLog {α : Type} (x : LogM α) : BrokerM α := zoom store (fun s b => { b with store := s }) x

def onDisk {α : Type} (x : DiskM α) : BrokerM α := zoom disk withDisk x

/-- The node is replaced. -/
def setRaft (n : Node) : BrokerM Unit := fun b => .ok () { b with raft := n }

/-- Something leaves the broker. -/
def observe (e : Event) : BrokerM Unit := fun b =>
  .ok () { b with observed := b.observed ++ [⟨e, b.disk, b.raft⟩] }

section Operations

variable [Faults]

/-- `load_hard_state`: the state, and the sequence number of the next write. -/
def loadHardState : DiskM (HardState × Nat) := do
  openCreate .state
  let size ← Disk.size .state
  if size = 0 then return ({}, 0) else
  let bytes ← pread .state kStateFileBytes 0
  match scanStateFile bytes with
  | .error e => throw e
  | .ok found => return (found.hard, found.sequence + 1)

/-- `start`, on the disk it is given; `draw` sets the first election timer. -/
def start (config : BrokerConfig) (draw : Nat) : DiskM Broker := do
  let log ← Log.open config.logOptions
  let (hard, sequence) ← loadHardState
  let epochs ← log.scanEpochs
  let node := (Node.new config.raft draw hard).restoreLog log.nextOffset
    (epochs.map fun e => ⟨e.epoch, e.startOffset⟩)
  let disk ← get
  return { config := config, store := ⟨log, disk⟩, raft := node, stateSequence := sequence }

/-- `note_commit`. -/
def noteCommit (commitIndex : Nat) : BrokerM Unit := do
  let b ← get
  if commitIndex ≤ b.lastCommitSeen then return () else
  observe (.committed b.lastCommitSeen commitIndex)
  modify fun b => { b with lastCommitSeen := commitIndex }

/-- The write of `persist`: one slot, and all of it. -/
def writeSlot (state : HardState) (sequence : Nat) : DiskM Unit := do
  let slot := encodeStateSlot state sequence
  let written ← pwrite .state slot (stateSlotOffset sequence)
  if written ≠ slot.length then throw .ioError else return ()

/-- The `fsync` of `persist`. -/
def flushState (config : BrokerConfig) : DiskM Unit :=
  if config.fsyncHardState then Disk.fsync .state else return ()

/-- `persist`. -/
def persist (state : HardState) : BrokerM Unit := do
  let b ← get
  onDisk (writeSlot state b.stateSequence)
  onDisk (flushState b.config)
  modify fun b => { b with stateSequence := b.stateSequence + 1 }

/-- The truncation a `Ready` asks for. -/
def truncateOrder : Option Nat → LogM Unit
  | none => return ()
  | some index => Log.truncateTo index

/-- The append a `Ready` asks for. -/
def appendOrder (appendEntry : Bool) (entry : Bytes) : LogM Unit := do
  if !appendEntry then return () else
  if entry = [] then throw .invalidRequest else
  Log.appendReplicated entry
  Log.fsync

/-- `carry_out_log_orders`: truncate first, then append. -/
def carryOutLogOrders (ready : Ready) (entry : Bytes) : LogM Unit := do
  truncateOrder ready.truncateFrom
  appendOrder ready.appendEntry entry

/-- `read_entry`. -/
def readEntry (index : Nat) : BrokerM Bytes := do
  let b ← get
  let framed ← onDisk (b.log.read index kEntryScratchBytes)
  if framed = [] then throw .offsetOutOfRange else
  match decodeHeader framed with
  | .error _ => throw .corruptRecord
  | .ok h =>
      if h.baseOffset ≠ index then throw .offsetOutOfRange
      else return framed.take h.totalBytes

/-- `send_raft`: only to peers, and a message that names an entry only with that
entry and its extent. -/
def sendRaft (m : Message) : BrokerM Unit := do
  let b ← get
  if m.target ∉ b.config.raft.peers then return () else
  match m.entryIndex with
  | none => observe (.sent m [])
  | some index =>
      match ← attempt (readEntry index) with
      | .error _ => return ()
      | .ok entry =>
          match decodeHeader entry with
          | .error _ => return ()
          | .ok h => observe (.sent { m with entryEnd := h.nextOffset } entry)

/-- The loop over the messages of a `Ready`. -/
def sendAll : List Message → BrokerM Unit
  | [] => return ()
  | m :: rest => do
      sendRaft m
      sendAll rest

/-- The end of `drive`: the hard state first, then the messages. -/
def persistAndSend (ready : Ready) : BrokerM Unit := do
  if ready.persistHardState then
    match ← attempt (persist ready.hardState) with
    | .error _ => return ()
    | .ok _ =>
        modify fun b => { b with raft := b.raft.hardStatePersisted }
        sendAll ready.messages
  else sendAll ready.messages

/-- `drive`: log orders, hard state, messages. -/
def drive (entry : Bytes) : BrokerM Unit := do
  let b ← get
  let (ready, node) := b.raft.takeReady
  setRaft node
  noteCommit ready.commitIndex
  if ready.empty then return () else
  match ← attempt (onLog (carryOutLogOrders ready entry)) with
  | .error _ => modify fun b => { b with running := false }
  | .ok _ => persistAndSend ready

/-- `on_tick`. -/
def onTick (draw : Nat) : BrokerM Unit := do
  let b ← get
  if !b.running then return () else
  setRaft (b.raft.tick draw)
  drive []

/-- The batch a leader of `term` writes carries the term, cut to 32 bits. -/
def metaFor (term : Nat) : BatchMeta := { leaderEpoch := term % 0x100000000 }

/-- `acks=1`: the append is reported as committed before a peer has seen it. -/
def ackLocally : BrokerM Unit := do
  let b ← get
  if b.config.ackOnLocalAppend then noteCommit b.log.nextOffset else return ()

/-- The node is told what has been appended. -/
def noteAppended (assigned : Nat) : BrokerM Unit := do
  let b ← get
  setRaft (b.raft.logAppended assigned b.log.nextOffset b.raft.hard.term)

/-- `propose`: the base offset assigned. -/
def propose (builder : BatchBuilder) : BrokerM Nat := do
  let b ← get
  if !b.running then throw .closed else
  if b.raft.role ≠ .leader then throw .notLeader else
  let assigned ← onLog (Log.append builder (metaFor b.raft.hard.term))
  onLog Log.fsync
  ackLocally
  noteAppended assigned
  drive []
  return assigned

/-- `deliver_locally`. -/
def deliverLocally (draw : Nat) (m : Message) (entry : Bytes) : BrokerM Unit := do
  let b ← get
  setRaft (b.raft.step draw m)
  drive entry

/-- `receive_raft`, after decoding: a message for another node is dropped. -/
def receiveRaft (draw : Nat) (m : Message) (entry : Bytes) : BrokerM Unit := do
  let b ← get
  if m.target ≠ b.config.raft.id then return () else
  deliverLocally draw m entry

/-- The calls a broker gets from its event loop and its clients. -/
inductive Call
  | tick (draw : Nat)
  | receive (draw : Nat) (message : Message) (entry : Bytes)
  | propose (builder : BatchBuilder)

def call : Call → BrokerM Unit
  | .tick draw => onTick draw
  | .receive draw m entry => receiveRaft draw m entry
  | .propose builder => do
      let _ ← propose builder
      return ()

end Operations

/-- The broker after a call, with what has left it during the call. -/
def after (b : Broker) (faults : Faults) (c : Call) : Broker :=
  match call c { b with observed := [] } with
  | .ok _ b' => b'
  | .error _ b' => b'

end Broker

end LogEngine.Server
