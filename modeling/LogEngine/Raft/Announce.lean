import LogEngine.Raft.Effects

/-!
# What a node says, and what it owes its disk

A message speaks for the hard state: it carries its term, a granted vote names
whom it voted for and answers a request, and a request for votes implies a vote for
the sender.  Only leaders append, and responses only answer requests.  `Announces` is
that everything a node has to say is true of its hard state as it stands, and `Owes`
that an operation only moves the hard state ahead, and where it does so leaves the
debt to persist it.  Both are about one operation on a node with nothing left to say,
which is how a driver calls it.
-/

namespace LogEngine.Raft

/-- `h'` is a later hard state than `h`, or the same: a higher term, or a vote cast in
the same term. -/
def HardState.Ahead (h h' : HardState) : Prop :=
  h.term < h'.term ∨
    h.term = h'.term ∧ (h.votedFor = kNoNode ∨ h.votedFor = h'.votedFor)

theorem HardState.Ahead.refl (h : HardState) : h.Ahead h := .inr ⟨rfl, .inr rfl⟩

theorem HardState.Ahead.trans {h h' h'' : HardState} (hb : h.Ahead h')
    (hc : h'.Ahead h'') :
    h.Ahead h'' := by
  rcases hb with hlt | ⟨heq, hv⟩ <;> rcases hc with hlt' | ⟨heq', hv'⟩
  · exact .inl (hlt.trans hlt')
  · exact .inl (heq' ▸ hlt)
  · exact .inl (heq ▸ hlt')
  · refine .inr ⟨heq.trans heq', ?_⟩
    rcases hv with hn | hsame
    · exact .inl hn
    · rw [hsame]
      exact hv'

theorem HardState.Ahead.term_le {h h' : HardState} (hb : h.Ahead h') :
    h.term ≤ h'.term := by
  rcases hb with hlt | ⟨heq, -⟩
  · exact hlt.le
  · exact heq.le

/-- A request, in contrast to a response. -/
def Message.IsRequest (m : Message) : Prop :=
  m.type = .requestVote ∨ m.type = .appendEntries

instance (m : Message) : Decidable m.IsRequest :=
  inferInstanceAs (Decidable (_ ∨ _))

namespace Node

/-- The message is true of the node's hard state, `asked` being the message that it
answers, if it answers one. -/
structure Honest (n : Node) (asked : Option Message) (m : Message) : Prop where
  sender : m.sender = n.config.id
  term : m.term = n.hard.term
  grant : m.type = .requestVoteResponse → m.granted = true →
    n.hard.votedFor = m.target ∧
      ∃ q ∈ asked, q.type = .requestVote ∧ q.sender = m.target ∧ q.term = m.term
  request : m.type = .requestVote → n.hard.votedFor = n.config.id ∧ n.role = .candidate
  append : m.type = .appendEntries → n.role = .leader
  response : ¬ m.IsRequest → ∃ q ∈ asked, q.IsRequest ∧ q.sender = m.target

/-- Everything the node has to say is true of its hard state. -/
def Announces (n : Node) (asked : Option Message) : Prop :=
  ∀ m ∈ n.out, n.Honest asked m

/-- The configuration is the same, the hard state moves ahead at most, and one that is
not owed to the disk is the old one. -/
structure Owes (n n' : Node) : Prop where
  config : n'.config = n.config
  ahead : n.hard.Ahead n'.hard
  clean : n'.hardStateDirty = false → n.hardStateDirty = false ∧ n'.hard = n.hard

theorem Owes.refl (n : Node) : n.Owes n := ⟨rfl, .refl _, fun h => ⟨h, rfl⟩⟩

theorem Owes.trans {n n' n'' : Node} (h : n.Owes n') (h' : n'.Owes n'') :
    n.Owes n'' where
  config := h'.config.trans h.config
  ahead := h.ahead.trans h'.ahead
  clean hc :=
    have hc' := h'.clean hc
    have hc'' := h.clean hc'.1
    ⟨hc''.1, hc'.2.trans hc''.2⟩

/-- An operation that keeps hard state, debt and configuration. -/
theorem owes_of_eq {n n' : Node} (hc : n'.config = n.config) (hh : n'.hard = n.hard)
    (hd : n'.hardStateDirty = n.hardStateDirty) : n.Owes n' :=
  ⟨hc, hh ▸ .refl _, fun h => ⟨hd ▸ h, hh⟩⟩

private theorem owes_of_dirty {n n' : Node} (hc : n'.config = n.config)
    (ha : n.hard.Ahead n'.hard)
    (hd : n'.hardStateDirty = true) : n.Owes n' :=
  ⟨hc, ha, fun h => Bool.noConfusion (hd.symm.trans h)⟩

/-! ## Messages -/

section Messages

variable {n : Node} {asked : Option Message}

private theorem honest_appendMessage {n : Node} (hr : n.role = .leader) (peer : Nat) :
    n.Honest asked (n.appendMessage peer) where
  sender := rfl
  term := rfl
  grant h := MessageType.noConfusion h
  request h := MessageType.noConfusion h
  append _ := hr
  response h := absurd (.inr rfl) h

/-- A refusal commits the node to nothing but its term. -/
theorem honest_of_refusal {m q : Message} (hs : m.sender = n.config.id)
    (ht : m.term = n.hard.term) (hg : m.granted = false) (hr : ¬ m.IsRequest)
    (hq : q.IsRequest) (hto : q.sender = m.target) : n.Honest (some q) m where
  sender := hs
  term := ht
  grant _ h := Bool.noConfusion (hg.symm.trans h)
  request h := absurd (.inl h) hr
  append h := absurd (.inr h) hr
  response _ := ⟨q, rfl, hq, hto⟩

/-- A response is no request. -/
theorem not_isRequest {m : Message}
    (h : m.type = .requestVoteResponse ∨ m.type = .appendEntriesResponse) :
    ¬ m.IsRequest := by
  unfold Message.IsRequest
  rcases h with h | h <;> rw [h] <;> decide

theorem Announces.of_say {ms : List Message} (hout : n.out = [])
    (h : ∀ m ∈ ms, n.Honest asked m) : (n.say ms).Announces asked := by
  intro m hm
  rw [say_out, hout, List.nil_append] at hm
  have hh := h m hm
  exact ⟨hh.sender, hh.term, hh.grant, hh.request, hh.append, hh.response⟩

theorem Announces.of_nil (hout : n.out = []) : n.Announces asked := by
  intro m hm
  rw [hout] at hm
  cases hm

end Messages

/-! ## Operations that change the ballot -/

theorem becomeFollower_out (n : Node) (draw T leader : Nat) :
    (n.becomeFollower draw T leader).out = n.out := by
  unfold becomeFollower
  split <;> rfl

private theorem owes_becomeFollower (n : Node) (draw T leader : Nat) :
    n.Owes (n.becomeFollower draw T leader) := by
  unfold becomeFollower
  split
  case isTrue hlt => exact owes_of_dirty rfl (.inl hlt) rfl
  case isFalse => exact owes_of_eq rfl rfl rfl

private theorem owes_becomeCandidate (n : Node) (draw : Nat) :
    n.Owes (n.becomeCandidate draw) :=
  owes_of_dirty rfl (.inl (Nat.lt_succ_self _)) rfl

private theorem owes_becomeLeader (n : Node) : n.Owes n.becomeLeader := by
  rw [becomeLeader_eq]
  exact owes_of_eq rfl rfl rfl

private theorem announces_becomeLeader {n : Node} {asked : Option Message}
    (hout : n.out = []) :
    n.becomeLeader.Announces asked := by
  rw [becomeLeader_eq]
  refine Announces.of_say hout fun m hm => ?_
  obtain ⟨peer, -, rfl⟩ := List.mem_map.1 hm
  exact honest_appendMessage rfl _

private theorem owes_observeTerm (n : Node) (draw : Nat) (m : Message) :
    n.Owes (n.observeTerm draw m) := by
  rcases observeTerm_cases n draw m with ⟨-, heq⟩ | ⟨-, leader, heq⟩ <;> rw [heq]
  · exact Owes.refl n
  · exact owes_becomeFollower n draw m.term leader

theorem observeTerm_out (n : Node) (draw : Nat) (m : Message) :
    (n.observeTerm draw m).out = n.out := by
  rcases observeTerm_cases n draw m with ⟨-, heq⟩ | ⟨-, leader, heq⟩ <;> rw [heq]
  exact becomeFollower_out _ _ _ _

/-! ## Ticks -/

theorem owes_tick (n : Node) (draw : Nat) : n.Owes (n.tick draw) := by
  rcases tick_cases n draw with ⟨e, h, heq⟩ | ⟨-, h, heq⟩ | ⟨-, e, heq⟩ <;> rw [heq]
  · exact owes_of_eq rfl rfl rfl
  · exact owes_of_eq rfl rfl rfl
  · have hrest : n.Owes { n with electionElapsed := e } := owes_of_eq rfl rfl rfl
    have hc := hrest.trans (owes_becomeCandidate { n with electionElapsed := e } draw)
    rw [campaign_eq]
    split
    · exact hc.trans (owes_becomeLeader _)
    · exact hc.trans (owes_of_eq rfl rfl rfl)

private theorem announces_tick {n : Node} (hout : n.out = []) (draw : Nat) :
    (n.tick draw).Announces none := by
  rcases tick_cases n draw with ⟨e, h, heq⟩ | ⟨hr, h, heq⟩ | ⟨-, e, heq⟩ <;> rw [heq]
  · exact Announces.of_nil hout
  · refine Announces.of_say hout fun m hm => ?_
    obtain ⟨peer, -, rfl⟩ := List.mem_map.1 hm
    exact honest_appendMessage (n := { n with heartbeatElapsed := h }) hr peer
  · rw [campaign_eq]
    split
    · exact announces_becomeLeader hout
    · refine Announces.of_say hout fun m hm => ?_
      obtain ⟨peer, -, rfl⟩ := List.mem_map.1 hm
      exact ⟨rfl, rfl, fun h => MessageType.noConfusion h, fun _ => ⟨rfl, rfl⟩,
        fun h => MessageType.noConfusion h, fun h => absurd (.inl rfl) h⟩

/-! ## Messages that arrive -/

private theorem owes_handleRequestVote (n : Node) (m : Message) :
    n.Owes (n.handleRequestVote m) := by
  rcases handleRequestVote_cases n m with heq | ⟨-, -, heq⟩ | ⟨-, hnone, heq⟩ <;>
    rw [heq]
  · exact owes_of_eq rfl rfl rfl
  · exact owes_of_eq rfl rfl rfl
  · exact owes_of_dirty rfl (.inr ⟨rfl, .inl hnone⟩) rfl

private theorem announces_handleRequestVote {n : Node} (hout : n.out = []) {m : Message}
    (ht : m.type = .requestVote) (hterm : n.hard.term = m.term) :
    (n.handleRequestVote m).Announces (some m) := by
  rcases handleRequestVote_cases n m with heq | ⟨-, hv, heq⟩ | ⟨-, -, heq⟩ <;>
    rw [heq] <;>
    refine Announces.of_say hout fun x hx => ?_ <;> rw [List.mem_singleton] at hx <;>
      subst hx
  · exact honest_of_refusal rfl rfl rfl (not_isRequest (.inl rfl)) (.inl ht) rfl
  · exact ⟨rfl, rfl, fun _ _ => ⟨hv, m, rfl, ht, rfl, hterm.symm⟩,
      fun h => MessageType.noConfusion h, fun h => MessageType.noConfusion h,
      fun _ => ⟨m, rfl, .inl ht, rfl⟩⟩
  · exact ⟨rfl, rfl, fun _ _ => ⟨rfl, m, rfl, ht, rfl, hterm.symm⟩,
      fun h => MessageType.noConfusion h, fun h => MessageType.noConfusion h,
      fun _ => ⟨m, rfl, .inl ht, rfl⟩⟩

private theorem owes_handleRequestVoteResponse (n : Node) (m : Message) :
    n.Owes (n.handleRequestVoteResponse m) := by
  have hcount : n.Owes (n.countVote m.sender) := owes_of_eq rfl rfl rfl
  rcases handleRequestVoteResponse_cases n m with heq | ⟨-, -, ⟨-, heq⟩ | heq⟩ <;>
    rw [heq]
  · exact Owes.refl n
  · exact hcount.trans (owes_becomeLeader _)
  · exact hcount

private theorem announces_handleRequestVoteResponse {n : Node} {asked : Option Message}
    (hout : n.out = []) (m : Message) :
    (n.handleRequestVoteResponse m).Announces asked := by
  rcases handleRequestVoteResponse_cases n m with heq | ⟨-, -, ⟨-, heq⟩ | heq⟩ <;>
    rw [heq]
  · exact Announces.of_nil hout
  · exact announces_becomeLeader hout
  · exact Announces.of_nil hout

private theorem owes_handleAppendEntries (n : Node) (draw : Nat) (m : Message) :
    n.Owes (n.handleAppendEntries draw m) := by
  have hf := owes_becomeFollower n draw m.term m.sender
  rcases handleAppendEntries_cases n draw m with ⟨-, heq⟩ | ⟨-, heq⟩ | ⟨-, -, heq⟩ <;>
    rw [heq]
  · exact Owes.refl n
  · exact hf.trans (owes_of_eq rfl rfl rfl)
  · obtain ⟨hh, hc, hd, -⟩ :=
      acceptEntry_ballot (becomeFollower_role n draw m.term m.sender) m
    obtain ⟨c, hcommit⟩ :=
      adoptCommit_eq ((n.becomeFollower draw m.term m.sender).acceptEntry m) m
    rw [hcommit]
    exact hf.trans (owes_of_eq hc hh hd)

private theorem announces_handleAppendEntries {n : Node} (hout : n.out = [])
    (draw : Nat)
    {m : Message} (ht : m.type = .appendEntries) :
    (n.handleAppendEntries draw m).Announces (some m) := by
  have hf := becomeFollower_out n draw m.term m.sender
  rw [hout] at hf
  rcases handleAppendEntries_cases n draw m with ⟨-, heq⟩ | ⟨-, heq⟩ | ⟨-, -, heq⟩ <;>
    rw [heq]
  · exact Announces.of_nil hout
  · refine Announces.of_say hf fun x hx => ?_
    rw [List.mem_singleton] at hx
    subst hx
    exact honest_of_refusal rfl rfl rfl (not_isRequest (.inr rfl)) (.inr ht) rfl
  · obtain ⟨-, -, -, ho, -⟩ :=
      acceptEntry_ballot (becomeFollower_role n draw m.term m.sender) m
    obtain ⟨c, hcommit⟩ :=
      adoptCommit_eq ((n.becomeFollower draw m.term m.sender).acceptEntry m) m
    rw [hcommit]
    refine Announces.of_say (ho.trans hf) fun x hx => ?_
    rw [List.mem_singleton] at hx
    subst hx
    exact ⟨rfl, rfl, fun h => MessageType.noConfusion h,
      fun h => MessageType.noConfusion h,
      fun h => MessageType.noConfusion h, fun _ => ⟨m, rfl, .inr ht, rfl⟩⟩

private theorem owes_handleAppendEntriesResponse (n : Node) (m : Message) :
    n.Owes (n.handleAppendEntriesResponse m) := by
  rcases handleAppendEntriesResponse_cases n m with
    ⟨-, heq⟩ | ⟨-, -, heq⟩ | ⟨-, -, n', ms, hn', heq, -⟩ <;> rw [heq]
  · exact Owes.refl n
  · exact owes_of_eq rfl rfl rfl
  · obtain ⟨f, g, hfg⟩ :=
      noteConfirmed_eq n m.sender (min (indexValue m.logIndex) n.logEnd)
    obtain ⟨c, hc⟩ := advanceCommitIndex_eq
      (n.noteConfirmed m.sender (min (indexValue m.logIndex) n.logEnd))
    rw [hn', hc, hfg]
    exact owes_of_eq rfl rfl rfl

private theorem announces_handleAppendEntriesResponse {n : Node}
    {asked : Option Message}
    (hout : n.out = []) (m : Message) :
    (n.handleAppendEntriesResponse m).Announces asked := by
  rcases handleAppendEntriesResponse_cases n m with
    ⟨-, heq⟩ | ⟨hr, -, heq⟩ | ⟨hr, -, n', ms, hn', heq, hms⟩ <;> rw [heq]
  · exact Announces.of_nil hout
  · rw [sendAppendEntries_eq]
    refine Announces.of_say hout fun x hx => ?_
    rw [List.mem_singleton] at hx
    subst hx
    exact honest_appendMessage (n := n.setNext m.sender (n.retryFrom m)) hr _
  · obtain ⟨f, g, hfg⟩ :=
      noteConfirmed_eq n m.sender (min (indexValue m.logIndex) n.logEnd)
    obtain ⟨c, hc⟩ := advanceCommitIndex_eq
      (n.noteConfirmed m.sender (min (indexValue m.logIndex) n.logEnd))
    have hout' : n'.out = [] := by
      rw [hn', hc, hfg]
      exact hout
    have hr' : n'.role = .leader := by
      rw [hn', hc, hfg]
      exact hr
    refine Announces.of_say hout' fun x hx => ?_
    rw [hms x hx]
    exact honest_appendMessage hr' _

private theorem owes_answerStale (n : Node) (m : Message) :
    n.Owes (n.answerStale m) := by
  unfold answerStale
  split <;> exact owes_of_eq rfl rfl rfl

private theorem announces_answerStale {n : Node} (hout : n.out = []) (m : Message) :
    (n.answerStale m).Announces (some m) := by
  unfold answerStale
  split
  case h_1 ht =>
    refine Announces.of_say hout fun x hx => ?_
    rw [List.mem_singleton] at hx
    subst hx
    exact honest_of_refusal rfl rfl rfl (not_isRequest (.inl rfl)) (.inl ht) rfl
  case h_2 ht =>
    refine Announces.of_say hout fun x hx => ?_
    rw [List.mem_singleton] at hx
    subst hx
    exact honest_of_refusal rfl rfl rfl (not_isRequest (.inr rfl)) (.inr ht) rfl
  · exact Announces.of_nil hout
  · exact Announces.of_nil hout

/-- Handling a message leaves the debt for every change of the hard state. -/
theorem owes_step (n : Node) (draw : Nat) (m : Message) : n.Owes (n.step draw m) := by
  have ho := owes_observeTerm n draw m
  rcases step_cases n draw m with ⟨-, k, heq⟩ | ⟨-, heq⟩ | ⟨-, heq⟩ <;> rw [heq]
  · exact owes_of_eq rfl rfl rfl
  · exact ho.trans (owes_answerStale _ m)
  · unfold handle
    split
    · exact ho.trans (owes_handleRequestVote _ m)
    · exact ho.trans (owes_handleRequestVoteResponse _ m)
    · exact ho.trans (owes_handleAppendEntries _ draw m)
    · exact ho.trans (owes_handleAppendEntriesResponse _ m)

/-- What a node says about a message is true of the hard state it ends up with. -/
theorem announces_step {n : Node} (hout : n.out = []) (draw : Nat) (m : Message) :
    (n.step draw m).Announces (some m) := by
  have ho := (observeTerm_out n draw m).trans hout
  rcases step_cases n draw m with ⟨-, k, heq⟩ | ⟨-, heq⟩ | ⟨hterm, heq⟩ <;> rw [heq]
  · exact Announces.of_nil hout
  · exact announces_answerStale ho m
  · unfold handle
    split
    case h_1 ht => exact announces_handleRequestVote ho ht hterm
    · exact announces_handleRequestVoteResponse ho m
    case h_3 ht => exact announces_handleAppendEntries ho draw ht
    · exact announces_handleAppendEntriesResponse ho m

/-! ## Appends of a leader -/

theorem owes_logAppended {n : Node} (hr : n.role = .leader) (index stop term : Nat) :
    n.Owes (n.logAppended index stop term) := by
  obtain ⟨c, hc⟩ := advanceCommitIndex_eq (n.appended index stop term)
  rw [logAppended_leader hr, hc]
  exact owes_of_eq rfl rfl rfl

private theorem announces_logAppended {n : Node} (hout : n.out = [])
    (hr : n.role = .leader)
    (index stop term : Nat) : (n.logAppended index stop term).Announces none := by
  obtain ⟨c, hc⟩ := advanceCommitIndex_eq (n.appended index stop term)
  rw [logAppended_leader hr, hc]
  refine Announces.of_say hout fun x hx => ?_
  obtain ⟨p, -, hp⟩ := List.mem_flatMap.1 hx
  split at hp
  · rw [List.mem_singleton] at hp
    subst hp
    exact honest_appendMessage (n := (n.appended index stop term).withCommit c) hr _
  · cases hp

/-! ## All operations -/

/-- What a driver does with its node before it drives it, `asked` being the message it
hands over, if any. -/
inductive Operates (n : Node) : Option Message → Node → Prop
  | tick (draw : Nat) : Operates n none (n.tick draw)
  | step (draw : Nat) (m : Message) : Operates n (some m) (n.step draw m)
  | append (hr : n.role = .leader) (index stop : Nat) :
      Operates n none (n.logAppended index stop n.hard.term)

theorem Operates.owes {n n' : Node} {asked : Option Message} (h : n.Operates asked n') :
    n.Owes n' := by
  cases h with
  | tick draw => exact owes_tick n draw
  | step draw m => exact owes_step n draw m
  | append hr index stop => exact owes_logAppended hr index stop _

theorem Operates.announces {n n' : Node} {asked : Option Message}
    (h : n.Operates asked n')
    (hout : n.out = []) : n'.Announces asked := by
  cases h with
  | tick draw => exact announces_tick hout draw
  | step draw m => exact announces_step hout draw m
  | append hr index stop => exact announces_logAppended hout hr index stop _

end Node

end LogEngine.Raft
