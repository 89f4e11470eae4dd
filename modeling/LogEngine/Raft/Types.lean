import Mathlib.Data.Finset.Card

/-!
# The consensus layer's data: messages, hard state, configuration

`src/raft/types.h`.  Node ids, terms and indices are naturals.  Indices are record
offsets, and a log is described by its exclusive end.  `kNoNode` and `kNoTerm` are
the source's sentinels; `kNoIndex` is `none`, so that every natural is an index.
-/

namespace LogEngine.Raft

/-- No vote cast, or no leader known. -/
def kNoNode : Nat := 0xffffffff

/-- No entry is ever produced in term `0`. -/
def kNoTerm : Nat := 0

inductive Role
  | follower
  | candidate
  | leader
  deriving DecidableEq, Repr

/-- One run of consecutive indices produced by a single leader. -/
structure Epoch where
  term : Nat := kNoTerm
  /-- First index produced in this term. -/
  start : Nat := 0
  deriving DecidableEq, Repr

/-- The two facts that have to survive a crash. -/
structure HardState where
  term : Nat := 0
  votedFor : Nat := kNoNode
  deriving DecidableEq, Repr

inductive MessageType
  | requestVote
  | requestVoteResponse
  | appendEntries
  | appendEntriesResponse
  deriving DecidableEq, Repr

/-- One RPC, request or response, in one flat record.  `sender` and `target` are
the source's `from` and `to`. -/
structure Message where
  type : MessageType := .requestVote
  sender : Nat := kNoNode
  target : Nat := kNoNode
  term : Nat := 0
  /-- The candidate's log end; the index before the attached entry, `none` when
  there is nothing before it; or the responder's log end. -/
  logIndex : Option Nat := some 0
  logTerm : Nat := 0
  commitIndex : Nat := 0
  /-- `none`: a heartbeat. -/
  entryIndex : Option Nat := none
  entryEnd : Nat := 0
  entryTerm : Nat := 0
  granted : Bool := false
  deriving DecidableEq, Repr

/-- `Message::carries_entry`. -/
def Message.carriesEntry (m : Message) : Bool := m.entryIndex.isSome

structure Config where
  id : Nat := 0
  /-- Every other member. -/
  peers : List Nat
  electionTimeoutTicks : Nat := 15
  electionTimeoutJitterTicks : Nat := 15
  heartbeatTimeoutTicks : Nat := 5
  deriving DecidableEq, Repr

def Config.clusterSize (c : Config) : Nat := c.peers.length + 1

def Config.quorum (c : Config) : Nat := c.clusterSize / 2 + 1

/-- Everything the state machine wants done, handed over in one piece. -/
structure Ready where
  persistHardState : Bool := false
  hardState : HardState := {}
  messages : List Message := []
  truncateFrom : Option Nat := none
  appendEntry : Bool := false
  commitIndex : Nat := 0
  deriving DecidableEq, Repr

/-- `Ready::empty`. -/
def Ready.empty (r : Ready) : Bool :=
  !r.persistHardState && r.messages.isEmpty && !r.appendEntry &&
    r.truncateFrom.isNone

end LogEngine.Raft
