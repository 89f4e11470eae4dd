import LogEngine.Raft.Node

/-!
# What the operations of a node do

Equations for the operations of `Node` that send.  A node that says something
changes in nothing else (`Node.say`), so each broadcast is one `say` of a list of
messages that can be read off the node itself.
-/

namespace LogEngine.Raft.Node

/-- The node with more to say. -/
def say (n : Node) (ms : List Message) : Node := { n with out := n.out ++ ms }

section Say

variable (n : Node) (ms : List Message)

@[simp] theorem say_config : (n.say ms).config = n.config := rfl
@[simp] theorem say_hard : (n.say ms).hard = n.hard := rfl
@[simp] theorem say_dirty : (n.say ms).hardStateDirty = n.hardStateDirty := rfl
@[simp] theorem say_role : (n.say ms).role = n.role := rfl
@[simp] theorem say_votes : (n.say ms).votes = n.votes := rfl
@[simp] theorem say_logEnd : (n.say ms).logEnd = n.logEnd := rfl
@[simp] theorem say_lastTerm : (n.say ms).lastTerm = n.lastTerm := rfl
@[simp] theorem say_commitIndex : (n.say ms).commitIndex = n.commitIndex := rfl
@[simp] theorem say_epochs : (n.say ms).epochs = n.epochs := rfl
@[simp] theorem say_matchEnd : (n.say ms).matchEnd = n.matchEnd := rfl
@[simp] theorem say_nextIndex : (n.say ms).nextIndex = n.nextIndex := rfl
@[simp] theorem say_pendingTruncate :
    (n.say ms).pendingTruncate = n.pendingTruncate := rfl
@[simp] theorem say_pendingAppend : (n.say ms).pendingAppend = n.pendingAppend := rfl
@[simp] theorem say_out : (n.say ms).out = n.out ++ ms := rfl

theorem say_nil : n.say [] = n := by simp [say]

private theorem say_say (ms' : List Message) : (n.say ms).say ms' = n.say (ms ++ ms') := by
  simp [say]

end Say

/-- Saying something to each of a list of peers is one `say`. -/
theorem foldl_say {f : Node → Nat → List Message}
    (hf : ∀ n ms, f (n.say ms) = f n) (peers : List Nat) (n : Node) :
    peers.foldl (fun n p => n.say (f n p)) n = n.say (peers.flatMap (f n)) := by
  induction peers generalizing n with
  | nil => simp [say_nil]
  | cons p peers ih => simp [ih, hf, say_say]

/-- What `sendAppendEntries` says to a peer. -/
def appendMessage (n : Node) (peer : Nat) : Message where
  type := .appendEntries
  sender := n.config.id
  target := peer
  term := n.hard.term
  commitIndex := n.commitIndex
  logIndex := if n.nextIndex peer = 0 then none else some (n.nextIndex peer - 1)
  logTerm := if n.nextIndex peer = 0 then kNoTerm else n.termAt (n.nextIndex peer - 1)
  entryIndex := if n.nextIndex peer < n.logEnd then some (n.nextIndex peer) else none
  entryTerm := if n.nextIndex peer < n.logEnd then n.termAt (n.nextIndex peer) else 0

/-- What a candidate says to a peer. -/
def voteRequest (n : Node) (peer : Nat) : Message where
  type := .requestVote
  sender := n.config.id
  target := peer
  term := n.hard.term
  logIndex := some n.logEnd
  logTerm := n.lastTerm

theorem sendAppendEntries_eq (n : Node) (peer : Nat) :
    n.sendAppendEntries peer = n.say [n.appendMessage peer] := rfl

private theorem broadcastHeartbeat_eq (n : Node) :
    n.broadcastHeartbeat = n.say (n.config.peers.map n.appendMessage) := by
  have := foldl_say (f := fun n p => [n.appendMessage p]) (fun _ _ => rfl)
    n.config.peers n
  rw [← List.map_eq_flatMap] at this
  exact this

/-- A node that has just won, before it says so. -/
def takeOffice (n : Node) : Node :=
  { n with
    role := .leader
    leader := n.config.id
    heartbeatElapsed := 0
    match_ := fun p => if p ∈ n.config.peers then some 0 else none
    next_ := fun p => if p ∈ n.config.peers then some n.logEnd else none }

theorem becomeLeader_eq (n : Node) :
    n.becomeLeader = n.takeOffice.say (n.config.peers.map n.takeOffice.appendMessage) :=
  broadcastHeartbeat_eq n.takeOffice

theorem takeOffice_matchEnd (n : Node) (p : Nat) : n.takeOffice.matchEnd p = 0 := by
  simp only [matchEnd, takeOffice]
  split <;> rfl

theorem takeOffice_nextIndex_le (n : Node) (p : Nat) :
    n.takeOffice.nextIndex p ≤ n.logEnd := by
  simp only [nextIndex, takeOffice]
  split
  · exact le_rfl
  · exact Nat.zero_le _

theorem campaign_eq (n : Node) (draw : Nat) :
    n.campaign draw =
      if n.config.quorum ≤ 1 then (n.becomeCandidate draw).becomeLeader
      else (n.becomeCandidate draw).say
        (n.config.peers.map (n.becomeCandidate draw).voteRequest) := by
  have := foldl_say (f := fun n p => [n.voteRequest p]) (fun _ _ => rfl)
    n.config.peers (n.becomeCandidate draw)
  rw [← List.map_eq_flatMap] at this
  exact if_congr (by rfl) rfl this

/-- The node with another commit index. -/
def withCommit (n : Node) (c : Nat) : Node := { n with commitIndex := c }

theorem advanceCommitIndex_eq (n : Node) :
    ∃ c, n.advanceCommitIndex = n.withCommit c := by
  unfold advanceCommitIndex
  dsimp only
  split_ifs <;> exact ⟨_, rfl⟩

theorem adoptCommit_eq (n : Node) (m : Message) :
    ∃ c, n.adoptCommit m = n.withCommit c := by
  unfold adoptCommit
  split <;> exact ⟨_, rfl⟩

/-- What a leader does once a batch is on its disk. -/
theorem logAppended_leader {n : Node} (hr : n.role = .leader) (index stop term : Nat) :
    n.logAppended index stop term =
      (n.appended index stop term).advanceCommitIndex.say
        (n.config.peers.flatMap fun p =>
          if n.nextIndex p = index then
            [(n.appended index stop term).advanceCommitIndex.appendMessage p]
          else []) := by
  have hr' : ¬ (n.appended index stop term).role ≠ .leader := not_not.2 hr
  obtain ⟨c, hc⟩ := advanceCommitIndex_eq (n.appended index stop term)
  unfold logAppended
  rw [if_neg hr', hc]
  refine Eq.trans ?_ (foldl_say (f := fun n p => if n.nextIndex p = index then
    [n.appendMessage p] else []) (fun _ _ => rfl) n.config.peers
    ((n.appended index stop term).withCommit c))
  congr 1
  funext n p
  split
  · rfl
  · rw [say_nil]

/-- What a follower does with a batch it takes. -/
theorem logAppended_follower {n : Node} (hr : n.role ≠ .leader)
    (index stop term : Nat) :
    n.logAppended index stop term = n.appended index stop term := by
  have hr' : (n.appended index stop term).role ≠ .leader := hr
  unfold logAppended
  simp [hr']

/-! ## The operations case by case -/

theorem tick_cases (n : Node) (draw : Nat) :
    (∃ e h, n.tick draw = { n with electionElapsed := e, heartbeatElapsed := h }) ∨
      (n.role = .leader ∧ ∃ h, n.tick draw =
        say { n with heartbeatElapsed := h } (n.config.peers.map n.appendMessage)) ∨
      (n.role ≠ .leader ∧ ∃ e, n.tick draw =
        campaign { n with electionElapsed := e } draw) := by
  unfold tick
  by_cases hr : n.role = .leader
  · rw [if_pos hr]
    dsimp only
    split
    · rw [broadcastHeartbeat_eq]
      exact .inr (.inl ⟨hr, _, rfl⟩)
    · exact .inl ⟨_, _, rfl⟩
  · rw [if_neg hr]
    dsimp only
    split
    · exact .inr (.inr ⟨hr, _, rfl⟩)
    · exact .inl ⟨_, _, rfl⟩

theorem observeTerm_cases (n : Node) (draw : Nat) (m : Message) :
    (m.term ≤ n.hard.term ∧ n.observeTerm draw m = n) ∨
      (n.hard.term < m.term ∧ ∃ leader,
        n.observeTerm draw m = n.becomeFollower draw m.term leader) := by
  unfold observeTerm
  split
  case isTrue h => exact .inr ⟨h, _, rfl⟩
  case isFalse h => exact .inl ⟨by omega, rfl⟩

theorem becomeFollower_hard (n : Node) (draw T leader : Nat) :
    (n.becomeFollower draw T leader).hard =
      if n.hard.term < T then ⟨T, kNoNode⟩ else n.hard := by
  unfold becomeFollower
  split <;> rfl

private theorem observeTerm_le (n : Node) (draw : Nat) (m : Message) :
    m.term ≤ (n.observeTerm draw m).hard.term := by
  rcases observeTerm_cases n draw m with ⟨hle, heq⟩ | ⟨hlt, leader, heq⟩
  · rw [heq]
    exact hle
  · rw [heq, becomeFollower_hard, if_pos hlt]

theorem step_cases (n : Node) (draw : Nat) (m : Message) :
    (m.type = .requestVote ∧ ∃ k, n.step draw m = { n with leaseRefusals := k }) ∨
      (m.term < (n.observeTerm draw m).hard.term ∧
        n.step draw m = (n.observeTerm draw m).answerStale m) ∨
      ((n.observeTerm draw m).hard.term = m.term ∧
        n.step draw m = (n.observeTerm draw m).handle draw m) := by
  unfold step
  split
  case isTrue h =>
    simp only [leaseRefuses, Bool.and_eq_true, beq_iff_eq] at h
    exact .inl ⟨h.1.1.1, _, rfl⟩
  case isFalse h =>
    dsimp only
    have hle := observeTerm_le n draw m
    split
    case isTrue hlt => exact .inr (.inl ⟨hlt, rfl⟩)
    case isFalse hge => exact .inr (.inr ⟨by omega, rfl⟩)

/-- The answer `reply` builds. -/
def replyMessage (n : Node) (m : Message) (type : MessageType) (granted : Bool) :
    Message where
  type := type
  sender := n.config.id
  target := m.sender
  term := n.hard.term
  granted := granted
  logIndex := some n.logEnd
  logTerm := n.lastTerm

/-- The node once it has decided to vote for `v`. -/
def withVote (n : Node) (v : Nat) : Node :=
  { n with hard := { n.hard with votedFor := v }, hardStateDirty := true }

/-- The node with its election timer started again. -/
def rested (n : Node) : Node := { n with electionElapsed := 0 }

/-- A vote is refused, given again, or given for the first time. -/
theorem handleRequestVote_cases (n : Node) (m : Message) :
    n.handleRequestVote m = n.say [n.replyMessage m .requestVoteResponse false] ∨
      (n.logIsUpToDate (indexValue m.logIndex) m.logTerm = true ∧
        n.hard.votedFor = m.sender ∧ n.handleRequestVote m =
          n.rested.say [n.replyMessage m .requestVoteResponse true]) ∨
      (n.logIsUpToDate (indexValue m.logIndex) m.logTerm = true ∧
        n.hard.votedFor = kNoNode ∧ n.handleRequestVote m =
          (n.withVote m.sender).rested.say
            [n.replyMessage m .requestVoteResponse true]) := by
  unfold handleRequestVote
  dsimp only
  by_cases hup : n.logIsUpToDate (indexValue m.logIndex) m.logTerm = true
  · by_cases hv : n.hard.votedFor = m.sender
    · refine .inr (.inl ⟨hup, hv, ?_⟩)
      simp only [hv, hup, ne_eq, not_true_eq_false, and_false, decide_false, Bool.not_false,
        Bool.and_true, if_true, if_false]
      rfl
    · by_cases hn : n.hard.votedFor = kNoNode
      · refine .inr (.inr ⟨hup, hn, ?_⟩)
        rw [hn] at hv
        simp only [hn, hup, hv, ne_eq, not_true_eq_false, not_false_eq_true, and_true,
          decide_false, Bool.not_false, Bool.and_true, if_true]
        rfl
      · refine .inl ?_
        simp only [hn, hup, hv, ne_eq, not_false_eq_true, and_self, decide_true,
          Bool.not_true, Bool.false_and, Bool.false_eq_true, if_false]
        rfl
  · refine .inl ?_
    simp only [hup, Bool.and_false, Bool.false_eq_true, if_false]
    rfl

theorem handleRequestVoteResponse_cases (n : Node) (m : Message) :
    n.handleRequestVoteResponse m = n ∨
      (n.role = .candidate ∧ m.granted = true ∧
        ((n.config.quorum ≤ (n.countVote m.sender).votes.card ∧
            n.handleRequestVoteResponse m = (n.countVote m.sender).becomeLeader) ∨
          n.handleRequestVoteResponse m = n.countVote m.sender)) := by
  unfold handleRequestVoteResponse
  by_cases hr : n.role = .candidate
  case neg => exact .inl (if_pos hr)
  by_cases hg : m.granted = true
  case neg => exact .inl (by simp [hg])
  rw [if_neg (not_not.2 hr), if_neg (by simp [hg])]
  refine .inr ⟨hr, hg, ?_⟩
  by_cases hq : n.config.quorum ≤ (n.countVote m.sender).votes.card
  · exact .inl ⟨hq, if_pos hq⟩
  · exact .inr (if_neg hq)

/-- The acceptance of an append. -/
def confirmMessage (n : Node) (m : Message) : Message where
  type := .appendEntriesResponse
  sender := n.config.id
  target := m.sender
  term := n.hard.term
  granted := true
  logIndex := some (confirmedEnd m)
  logTerm := n.lastTerm

/-- An append is ignored by a leader, refused, or accepted. -/
theorem handleAppendEntries_cases (n : Node) (draw : Nat) (m : Message) :
    (n.role = .leader ∧ n.handleAppendEntries draw m = n) ∨
      (n.role ≠ .leader ∧
        n.handleAppendEntries draw m =
          (n.becomeFollower draw m.term m.sender).rejectAppend m) ∨
      (n.role ≠ .leader ∧ (n.becomeFollower draw m.term m.sender).matches_ m = true ∧
        n.handleAppendEntries draw m =
          (((n.becomeFollower draw m.term m.sender).acceptEntry m).adoptCommit m).say
            [(((n.becomeFollower draw m.term m.sender).acceptEntry m).adoptCommit
              m).confirmMessage m]) := by
  unfold handleAppendEntries
  by_cases hr : n.role = .leader
  · exact .inl ⟨hr, if_pos hr⟩
  · rw [if_neg hr]
    dsimp only
    by_cases hm : (n.becomeFollower draw m.term m.sender).matches_ m = true
    · rw [if_neg (by simp [hm])]
      exact .inr (.inr ⟨hr, hm, rfl⟩)
    · rw [if_pos (by simp [hm])]
      exact .inr (.inl ⟨hr, rfl⟩)

theorem setNext_nextIndex (n : Node) (peer k p : Nat) :
    (n.setNext peer k).nextIndex p = if p = peer then k else n.nextIndex p := by
  by_cases hp : p = peer <;> simp [setNext, nextIndex, hp]

private theorem setMatch_matchEnd (n : Node) (peer k p : Nat) :
    (n.setMatch peer k).matchEnd p = if p = peer then k else n.matchEnd p := by
  by_cases hp : p = peer <;> simp [setMatch, matchEnd, hp]

theorem noteConfirmed_eq (n : Node) (peer k : Nat) :
    ∃ f g, n.noteConfirmed peer k = { n with match_ := f, next_ := g } := by
  unfold noteConfirmed
  dsimp only
  split_ifs <;> exact ⟨_, _, rfl⟩

theorem noteConfirmed_matchEnd (n : Node) (peer k p : Nat) :
    (n.noteConfirmed peer k).matchEnd p =
      if p = peer then max (n.matchEnd peer) k else n.matchEnd p := by
  have hnext : ∀ n : Node, (n.setNext peer k).matchEnd p = n.matchEnd p := fun _ => rfl
  unfold noteConfirmed
  by_cases hp : p = peer
  · subst hp
    by_cases hk : n.matchEnd p < k
    · simp only [hk, if_true]
      split <;> simp only [hnext, setMatch_matchEnd, if_true] <;> omega
    · simp only [hk, if_false]
      split <;> simp only [hnext, if_true] <;> omega
  · by_cases hk : n.matchEnd peer < k <;> simp only [hk, if_true, if_false, hp] <;>
      split <;> simp [hnext, setMatch_matchEnd, hp]

theorem noteConfirmed_nextIndex (n : Node) (peer k p : Nat) :
    (n.noteConfirmed peer k).nextIndex p =
      if p = peer then max (n.nextIndex peer) k else n.nextIndex p := by
  have hmatch : ∀ p, (if n.matchEnd peer < k then n.setMatch peer k else n).nextIndex p =
      n.nextIndex p := by
    intro p
    split <;> rfl
  unfold noteConfirmed
  simp only [hmatch]
  by_cases hp : p = peer
  · subst hp
    split <;> simp only [setNext_nextIndex, hmatch, if_true] <;> omega
  · split <;> simp [setNext_nextIndex, hmatch, hp]

/-- A leader is told no, told yes, or it is no leader. -/
theorem handleAppendEntriesResponse_cases (n : Node) (m : Message) :
    (n.role ≠ .leader ∧ n.handleAppendEntriesResponse m = n) ∨
      (n.role = .leader ∧ m.granted = false ∧ n.handleAppendEntriesResponse m =
        (n.setNext m.sender (n.retryFrom m)).sendAppendEntries m.sender) ∨
      (n.role = .leader ∧ m.granted = true ∧ ∃ n' ms, n' =
        (n.noteConfirmed m.sender (min (indexValue m.logIndex) n.logEnd)).advanceCommitIndex ∧
        n.handleAppendEntriesResponse m = n'.say ms ∧
        ∀ x ∈ ms, x = n'.appendMessage m.sender) := by
  unfold handleAppendEntriesResponse
  by_cases hr : n.role = .leader
  case neg => simp [hr]
  by_cases hg : m.granted = true
  case neg => exact .inr (.inl ⟨hr, by simpa using hg, by simp [hr, hg]⟩)
  rw [if_neg (not_not.2 hr), if_neg (by simp [hg])]
  dsimp only
  generalize (n.noteConfirmed m.sender
    (min (indexValue m.logIndex) n.logEnd)).advanceCommitIndex = n'
  refine .inr (.inr ⟨hr, hg, n', ?_⟩)
  split
  · exact ⟨[n'.appendMessage m.sender], rfl, rfl, by simp⟩
  · exact ⟨[], rfl, (say_nil _).symm, by simp⟩

/-- Taking an entry, as a follower, changes the view of the log and the orders for it. -/
theorem acceptEntry_eq {n : Node} (hr : n.role ≠ .leader) (m : Message) :
    ∃ e l t p q, n.acceptEntry m =
      { n with
        epochs := e, logEnd := l, lastTerm := t, pendingTruncate := p, pendingAppend := q } := by
  unfold acceptEntry
  cases m.entryIndex with
  | none => exact ⟨_, _, _, _, _, rfl⟩
  | some entryIndex =>
      have htail : ∃ e l t p, n.truncateTail (appendAt m) m.entryTerm =
          { n with epochs := e, logEnd := l, lastTerm := t, pendingTruncate := p } := by
        unfold truncateTail
        dsimp only
        split
        · exact ⟨_, _, _, _, rfl⟩
        · exact ⟨_, _, _, _, rfl⟩
      obtain ⟨e, l, t, p, htail⟩ := htail
      dsimp only
      rw [htail]
      split
      · rw [logAppended_follower (by exact hr)]
        exact ⟨_, _, _, _, _, rfl⟩
      · exact ⟨_, _, _, _, _, rfl⟩

theorem acceptEntry_ballot {n : Node} (hr : n.role ≠ .leader) (m : Message) :
    (n.acceptEntry m).hard = n.hard ∧ (n.acceptEntry m).config = n.config ∧
      (n.acceptEntry m).hardStateDirty = n.hardStateDirty ∧
      (n.acceptEntry m).out = n.out ∧ (n.acceptEntry m).role = n.role ∧
      (n.acceptEntry m).votes = n.votes := by
  obtain ⟨e, l, t, p, q, heq⟩ := acceptEntry_eq hr m
  rw [heq]
  exact ⟨rfl, rfl, rfl, rfl, rfl, rfl⟩

theorem becomeFollower_role (n : Node) (draw T leader : Nat) :
    (n.becomeFollower draw T leader).role ≠ .leader := by
  unfold becomeFollower
  split <;> exact fun h => Role.noConfusion h

end LogEngine.Raft.Node
