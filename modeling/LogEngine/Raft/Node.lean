import LogEngine.Raft.Types
import Mathlib.Data.List.DropRight
import Mathlib.Data.List.Sort

/-!
# The Raft state machine

`src/raft/node.{h,cpp}`, function by function and under the source's names.  A
node is a pure value: an operation returns the node it leaves behind, and what it
wants said is appended to `out`.

The random source is read only by `resetElectionTimer`.  Each operation takes
the number drawn; where the source draws twice in one operation, the second draw
replaces the first.
-/

namespace LogEngine.Raft

structure Node where
  config : Config
  hard : HardState
  hardStateDirty : Bool := false
  role : Role := .follower
  leader : Nat := kNoNode
  votes : Finset Nat := ∅
  logEnd : Nat := 0
  lastTerm : Nat := kNoTerm
  commitIndex : Nat := 0
  epochs : List Epoch := []
  /-- How much of this log each peer is known to hold. -/
  match_ : Nat → Option Nat := fun _ => none
  /-- Where to send from. -/
  next_ : Nat → Option Nat := fun _ => none
  pendingTruncate : Option Nat := none
  pendingAppend : Bool := false
  electionElapsed : Nat := 0
  heartbeatElapsed : Nat := 0
  electionTimeout : Nat := 0
  campaigns : Nat := 0
  leaseRefusals : Nat := 0
  out : List Message := []

/-- What an index field is worth where the source compares it without asking for
the sentinel. -/
def indexValue (i : Option Nat) : Nat := i.getD 0xffffffffffffffff

/-! ## The epoch map -/

/-- The epochs that begin at or before `index`: what lies before the iterator
that `std::upper_bound` returns. -/
def epochsUpTo (epochs : List Epoch) (index : Nat) : List Epoch :=
  epochs.takeWhile fun e => e.start ≤ index

/-- `append_epoch`: only a change of term opens an epoch. -/
def appendEpoch (epochs : List Epoch) (term : Nat) (start : Nat) :
    List Epoch :=
  if epochs.getLast?.any (fun e => e.term == term) then epochs
  else epochs ++ [⟨term, start⟩]

/-- `truncate_epochs_from`: pops from the back. -/
def truncateEpochsFrom (epochs : List Epoch) (index : Nat) : List Epoch :=
  epochs.rdropWhile fun e => index ≤ e.start

namespace Node

/-- `term_at`. -/
def termAt (n : Node) (index : Nat) : Nat :=
  if n.logEnd ≤ index ∨ n.epochs = [] then kNoTerm
  else match (epochsUpTo n.epochs index).getLast? with
    | none => kNoTerm
    | some e => e.term

/-- `epoch_start_at`. -/
def epochStartAt (n : Node) (index : Nat) : Nat :=
  match n.epochs with
  | [] => 0
  | e :: _ =>
      match (epochsUpTo n.epochs index).getLast? with
      | none => e.start
      | some e' => e'.start

/-! ## Timers and messages -/

/-- `reset_election_timer`, with the number drawn. -/
def resetElectionTimer (n : Node) (draw : Nat) : Node :=
  let jitter := if n.config.electionTimeoutJitterTicks = 0 then 0
    else draw % n.config.electionTimeoutJitterTicks
  let timeout := n.config.electionTimeoutTicks + jitter
  { n with
    electionElapsed := 0
    electionTimeout := if timeout = 0 then 1 else timeout }

/-- The constructor: a node with the hard state that was recovered. -/
def new (config : Config) (draw : Nat) (persisted : HardState) : Node :=
  resetElectionTimer { config := config, hard := persisted } draw

def send (n : Node) (m : Message) : Node :=
  { n with out := n.out ++ [{ m with sender := n.config.id, term := n.hard.term }] }

def reply (n : Node) (m : Message) (type : MessageType) (granted : Bool) : Node :=
  n.send
    { type := type
      target := m.sender
      granted := granted
      logIndex := some n.logEnd
      logTerm := n.lastTerm }

/-- `log_is_up_to_date`. -/
def logIsUpToDate (n : Node) (logEnd : Nat) (term : Nat) : Bool :=
  if term ≠ n.lastTerm then n.lastTerm < term else n.logEnd ≤ logEnd

def matchEnd (n : Node) (peer : Nat) : Nat := (n.match_ peer).getD 0

def nextIndex (n : Node) (peer : Nat) : Nat := (n.next_ peer).getD 0

/-- `send_append_entries`: a heartbeat to a peer that is caught up, the one entry
at its `nextIndex` to any other. -/
def sendAppendEntries (n : Node) (peer : Nat) : Node :=
  let start := n.nextIndex peer
  n.send
    { type := .appendEntries
      target := peer
      commitIndex := n.commitIndex
      logIndex := if start = 0 then none else some (start - 1)
      logTerm := if start = 0 then kNoTerm else n.termAt (start - 1)
      entryIndex := if start < n.logEnd then some start else none
      entryTerm := if start < n.logEnd then n.termAt start else 0 }

/-- `broadcast_heartbeat`. -/
def broadcastHeartbeat (n : Node) : Node :=
  n.config.peers.foldl sendAppendEntries n

/-- Every log end that some member is known to hold, this node included, from
the highest down. -/
def sortedEnds (n : Node) : List Nat :=
  (n.logEnd :: n.config.peers.map n.matchEnd).insertionSort (· ≥ ·)

/-- `advance_commit_index`. -/
def advanceCommitIndex (n : Node) : Node :=
  if n.role ≠ .leader then n
  else
    let quorumEnd := n.sortedEnds.getD (n.config.quorum - 1) 0
    if quorumEnd ≤ n.commitIndex then n
    else if n.termAt (quorumEnd - 1) ≠ n.hard.term then n
    else { n with commitIndex := quorumEnd }

/-- `restore_log`. -/
def restoreLog (n : Node) (logEnd : Nat) (epochs : List Epoch) : Node :=
  let n := { n with logEnd := logEnd, epochs := epochs }
  { n with
    lastTerm := if logEnd = 0 then kNoTerm else n.termAt (logEnd - 1)
    commitIndex := if logEnd < n.commitIndex then logEnd else n.commitIndex }

/-- The node's view of its log once a batch has been appended to it. -/
def appended (n : Node) (index stop term : Nat) : Node :=
  { n with
    epochs := appendEpoch n.epochs term index
    logEnd := if index < stop then stop else index + 1
    lastTerm := term }

/-- `log_appended`. -/
def logAppended (n : Node) (index stop term : Nat) : Node :=
  let n := n.appended index stop term
  if n.role ≠ .leader then n
  else
    n.config.peers.foldl
      (fun n peer => if n.nextIndex peer = index then n.sendAppendEntries peer else n)
      n.advanceCommitIndex

/-! ## Roles -/

/-- `become_follower`. -/
def becomeFollower (n : Node) (draw : Nat) (term : Nat) (leader : Nat) :
    Node :=
  let n := if n.hard.term < term then
      { n with hard := ⟨term, kNoNode⟩, hardStateDirty := true }
    else n
  resetElectionTimer { n with role := .follower, leader := leader, votes := ∅ } draw

/-- `become_candidate`. -/
def becomeCandidate (n : Node) (draw : Nat) : Node :=
  resetElectionTimer
    { n with
      hard := ⟨n.hard.term + 1, n.config.id⟩
      hardStateDirty := true
      role := .candidate
      leader := kNoNode
      votes := {n.config.id}
      campaigns := n.campaigns + 1 } draw

/-- `become_leader`. -/
def becomeLeader (n : Node) : Node :=
  broadcastHeartbeat
    { n with
      role := .leader
      leader := n.config.id
      heartbeatElapsed := 0
      match_ := fun p => if p ∈ n.config.peers then some 0 else none
      next_ := fun p => if p ∈ n.config.peers then some n.logEnd else none }

def campaign (n : Node) (draw : Nat) : Node :=
  let n := n.becomeCandidate draw
  if n.config.quorum ≤ n.votes.card then n.becomeLeader
  else
    n.config.peers.foldl
      (fun n peer => n.send
        { type := .requestVote
          target := peer
          logIndex := some n.logEnd
          logTerm := n.lastTerm })
      n

def tick (n : Node) (draw : Nat) : Node :=
  if n.role = .leader then
    let n := { n with heartbeatElapsed := n.heartbeatElapsed + 1 }
    if n.config.heartbeatTimeoutTicks ≤ n.heartbeatElapsed then
      broadcastHeartbeat { n with heartbeatElapsed := 0 }
    else n
  else
    let n := { n with electionElapsed := n.electionElapsed + 1 }
    if n.electionTimeout ≤ n.electionElapsed then n.campaign draw else n

/-! ## Messages -/

/-- `handle_request_vote`. -/
def handleRequestVote (n : Node) (m : Message) : Node :=
  let alreadyCommittedElsewhere :=
    n.hard.votedFor ≠ kNoNode ∧ n.hard.votedFor ≠ m.sender
  let granted := !decide alreadyCommittedElsewhere &&
    n.logIsUpToDate (indexValue m.logIndex) m.logTerm
  let n := if granted then
      let n := if n.hard.votedFor ≠ m.sender then
          { n with
            hard := { n.hard with votedFor := m.sender }
            hardStateDirty := true }
        else n
      { n with electionElapsed := 0 }
    else n
  n.reply m .requestVoteResponse granted

def countVote (n : Node) (voter : Nat) : Node := { n with votes := insert voter n.votes }

/-- `handle_request_vote_response`. -/
def handleRequestVoteResponse (n : Node) (m : Message) : Node :=
  if n.role ≠ .candidate then n
  else if !m.granted then n
  else
    let n := n.countVote m.sender
    if n.config.quorum ≤ n.votes.card then n.becomeLeader else n

/-- Where the entry attached to an append goes. -/
def appendAt (m : Message) : Nat :=
  match m.logIndex with
  | none => 0
  | some i => i + 1

/-- How far the attached entry reaches; one record where the sender left the
extent unset. -/
def entryEndOf (m : Message) (entryIndex : Nat) : Nat :=
  if entryIndex < m.entryEnd then m.entryEnd else entryIndex + 1

/-- The log-matching check. -/
def matches_ (n : Node) (m : Message) : Bool :=
  match m.logIndex with
  | none => true
  | some i => i < n.logEnd && n.termAt i == m.logTerm

/-- The rejection of an append, with its hint. -/
def rejectAppend (n : Node) (m : Message) : Node :=
  let index := indexValue m.logIndex
  n.send
    { type := .appendEntriesResponse
      target := m.sender
      granted := false
      logTerm := n.lastTerm
      logIndex := some (if n.logEnd ≤ index then n.logEnd else n.epochStartAt index) }

/-- The node's view of its log once the tail from `index` on is to go. -/
def truncated (n : Node) (index : Nat) : Node :=
  let n := { n with
    pendingTruncate := some index
    epochs := truncateEpochsFrom n.epochs index
    logEnd := index }
  { n with lastTerm := if n.logEnd = 0 then kNoTerm else n.termAt (n.logEnd - 1) }

/-- Drops a tail that disagrees with the arriving entry. -/
def truncateTail (n : Node) (appendAt entryTerm : Nat) : Node :=
  let existing := n.termAt appendAt
  if existing ≠ kNoTerm ∧ existing ≠ entryTerm then n.truncated appendAt else n

def orderAppend (n : Node) : Node := { n with pendingAppend := true }

/-- Takes the attached entry, if there is one, unless the log already reaches past
its place. -/
def acceptEntry (n : Node) (m : Message) : Node :=
  match m.entryIndex with
  | none => n
  | some entryIndex =>
      let n := n.truncateTail (appendAt m) m.entryTerm
      if n.logEnd ≤ appendAt m then
        n.orderAppend.logAppended (appendAt m) (entryEndOf m entryIndex) m.entryTerm
      else n

/-- The commit index a follower adopts: the leader's, clamped to its own log
end. -/
def adoptCommit (n : Node) (m : Message) : Node :=
  if n.commitIndex < m.commitIndex then
    { n with commitIndex := min m.commitIndex n.logEnd }
  else n

/-- What an accepted append confirms. -/
def confirmedEnd (m : Message) : Nat :=
  match m.entryIndex with
  | none => appendAt m
  | some i => entryEndOf m i

/-- `handle_append_entries`. -/
def handleAppendEntries (n : Node) (draw : Nat) (m : Message) : Node :=
  if n.role = .leader then n
  else
    let n := n.becomeFollower draw m.term m.sender
    if !n.matches_ m then n.rejectAppend m
    else
      let n := (n.acceptEntry m).adoptCommit m
      n.send
        { type := .appendEntriesResponse
          target := m.sender
          granted := true
          logIndex := some (confirmedEnd m)
          logTerm := n.lastTerm }

/-- Where a leader resumes after a rejection: the follower's hint, clamped to the
leader's own end and to what the follower has confirmed. -/
def retryFrom (n : Node) (m : Message) : Nat :=
  max (min (indexValue m.logIndex) n.logEnd) (n.matchEnd m.sender)

def setMatch (n : Node) (peer k : Nat) : Node :=
  { n with match_ := Function.update n.match_ peer (some k) }

def setNext (n : Node) (peer k : Nat) : Node :=
  { n with next_ := Function.update n.next_ peer (some k) }

/-- Raises a peer's match and next index to what it has confirmed. -/
def noteConfirmed (n : Node) (peer confirmed : Nat) : Node :=
  let n := if n.matchEnd peer < confirmed then n.setMatch peer confirmed else n
  if n.nextIndex peer < confirmed then n.setNext peer confirmed else n

/-- `handle_append_entries_response`. -/
def handleAppendEntriesResponse (n : Node) (m : Message) : Node :=
  if n.role ≠ .leader then n
  else if !m.granted then
    (n.setNext m.sender (n.retryFrom m)).sendAppendEntries m.sender
  else
    let confirmed := min (indexValue m.logIndex) n.logEnd
    let n := (n.noteConfirmed m.sender confirmed).advanceCommitIndex
    if n.nextIndex m.sender < n.logEnd then n.sendAppendEntries m.sender else n

/-- The disruptive-server rule: a follower that has heard from its leader within
a full election timeout does not consider a vote at all. -/
def leaseRefuses (n : Node) (m : Message) : Bool :=
  m.type == .requestVote && n.role == .follower && n.leader != kNoNode &&
    n.electionElapsed < n.config.electionTimeoutTicks

/-- The term rule: a higher term makes the node a follower of that term. -/
def observeTerm (n : Node) (draw : Nat) (m : Message) : Node :=
  if n.hard.term < m.term then
    n.becomeFollower draw m.term
      (if m.type = .appendEntries then m.sender else kNoNode)
  else n

/-- The answer to a sender that has fallen behind. -/
def answerStale (n : Node) (m : Message) : Node :=
  match m.type with
  | .requestVote => n.reply m .requestVoteResponse false
  | .appendEntries => n.reply m .appendEntriesResponse false
  | .requestVoteResponse => n
  | .appendEntriesResponse => n

/-- The handler of a message of the node's own term. -/
def handle (n : Node) (draw : Nat) (m : Message) : Node :=
  match m.type with
  | .requestVote => n.handleRequestVote m
  | .requestVoteResponse => n.handleRequestVoteResponse m
  | .appendEntries => n.handleAppendEntries draw m
  | .appendEntriesResponse => n.handleAppendEntriesResponse m

def step (n : Node) (draw : Nat) (m : Message) : Node :=
  if n.leaseRefuses m then { n with leaseRefusals := n.leaseRefusals + 1 }
  else
    let n := n.observeTerm draw m
    if m.term < n.hard.term then n.answerStale m else n.handle draw m

/-- `take_ready`: the pending effects, and the node with its log orders and
messages drained.  The debt to persist stays. -/
def takeReady (n : Node) : Ready × Node :=
  ({ persistHardState := n.hardStateDirty
     hardState := n.hard
     messages := n.out
     truncateFrom := n.pendingTruncate
     appendEntry := n.pendingAppend
     commitIndex := n.commitIndex },
   { n with out := [], pendingTruncate := none, pendingAppend := false })

/-- `hard_state_persisted`. -/
def hardStatePersisted (n : Node) : Node := { n with hardStateDirty := false }

end Node

end LogEngine.Raft
