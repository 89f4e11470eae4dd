import LogEngine.Raft.Announce
import LogEngine.Raft.Refinement
import LogEngine.Verified.Seats

/-!
# What a node does in an election

The operations of a node as moves of its seat in `Verified.Election`, with what is on
its disk a separate matter: a node may be ahead of its disk for as long as writing
the hard state fails.  `Sits` relates a seat to a node and the hard state on its disk;
`exists_becomes` covers every operation a driver makes.

In a cluster of one a campaign is won before anything is written, so the lemmas here
are about quorums of two or more.
-/

namespace LogEngine.Raft

open Verified Verified.Election

/-- The seat is that of node `n` with `old` on its disk. -/
structure Sits (M : Membership) (s : Seat Nat) (n : Node) (old : HardState) : Prop where
  mem : s.mem = n.hard.ballot
  dur : s.dur = old.ballot
  role : s.role = n.role.abs
  tally : n.role = .candidate → s.tally = n.votes
  votes : n.role = .candidate → n.votes ⊆ M.members

/-- The node that was in seat `s` is now `n`: it has moved, or moved and then won. -/
inductive Becomes (M : Membership) (i : Nat) (G : Set (Nat × Nat × Nat)) (s : Seat Nat)
    (n : Node) (old : HardState) : Prop
  | moved {s' : Seat Nat} (moves : Moves i G s s') (sits : Sits M s' n old)
  | won {s' : Seat Nat} (moves : Moves i G s s') (role : s'.role = .candidate)
      (tally : s'.tally = n.votes) (votes : n.votes ⊆ M.members)
      (quorum : n.config.quorum ≤ n.votes.card)
      (sits : Sits M { s' with role := .leader } n old)

section Operations

variable {M : Membership} {i : Nat} {G : Set (Nat × Nat × Nat)} {s s' : Seat Nat}
  {n n' : Node} {old : HardState}

/-- An operation that has nothing to do with elections. -/
theorem Sits.congr (h : Sits M s n old) (hh : n'.hard = n.hard) (hr : n'.role = n.role)
    (hv : n'.votes = n.votes) : Sits M s n' old where
  mem := by rw [h.mem, hh]
  dur := h.dur
  role := by rw [h.role, hr]
  tally hc := by
    rw [hv]
    exact h.tally (hr ▸ hc)
  votes hc := by
    rw [hv]
    exact h.votes (hr ▸ hc)

/-- Whatever a node in no candidacy has counted does not matter. -/
theorem Sits.of_role (hm : s.mem = n.hard.ballot) (hd : s.dur = old.ballot)
    (hr : s.role = n.role.abs) (hne : n.role ≠ .candidate) : Sits M s n old where
  mem := hm
  dur := hd
  role := hr
  tally hc := absurd hc hne
  votes hc := absurd hc hne

theorem Sits.becomes (h : Sits M s n old) : Becomes M i G s n old := .moved .refl h

theorem Becomes.of_moves (h : Moves i G s s') (hb : Becomes M i G s' n old) :
    Becomes M i G s n old := by
  cases hb with
  | moved hm hs => exact .moved (h.trans hm) hs
  | won hm hr ht hv hq hs => exact .won (h.trans hm) hr ht hv hq hs

theorem Sits.becomeFollower (h : Sits M s n old) (draw T leader : Nat) :
    ∃ s', Moves i G s s' ∧ Sits M s' (n.becomeFollower draw T leader) old := by
  have hrole : (n.becomeFollower draw T leader).role = .follower := rfl
  have hne : (n.becomeFollower draw T leader).role ≠ .candidate := fun h => Role.noConfusion h
  have hhard := n.becomeFollower_hard draw T leader
  by_cases hT : n.hard.term < T
  · rw [if_pos hT] at hhard
    have hlt : s.mem.term < T := by
      rw [h.mem]
      exact hT
    refine ⟨_, .single (.observe s T hlt), .of_role ?_ h.dur ?_ hne⟩
    · rw [hhard, HardState.ballot_none]
    · rw [hrole]
      rfl
  · rw [if_neg hT] at hhard
    refine ⟨_, .single (.stepDown s), .of_role ?_ h.dur ?_ hne⟩
    · rw [hhard]
      exact h.mem
    · rw [hrole]
      rfl

theorem Sits.becomeCandidate (hi : i ∈ M.members) (hid : n.config.id = i)
    (h : Sits M s n old) (draw : Nat) :
    ∃ s', Moves i G s s' ∧ Sits M s' (n.becomeCandidate draw) old := by
  have hhard : (n.becomeCandidate draw).hard = ⟨n.hard.term + 1, i⟩ := by
    rw [← hid]
    rfl
  have hvotes : (n.becomeCandidate draw).votes = {i} := by
    rw [← hid]
    rfl
  refine ⟨_, .single (.campaign s), ?_, h.dur, rfl, fun _ => hvotes.symm, fun _ => ?_⟩
  · rw [hhard, HardState.ballot_some (M.member_ne i hi), h.mem]
    rfl
  · rw [hvotes]
    exact Finset.singleton_subset_iff.2 hi

private theorem becomeLeader_ballot (n : Node) :
    n.becomeLeader.hard = n.hard ∧ n.becomeLeader.role = .leader ∧
      n.becomeLeader.votes = n.votes ∧ n.becomeLeader.config = n.config := by
  rw [Node.becomeLeader_eq]
  exact ⟨rfl, rfl, rfl, rfl⟩

/-! ## Ticks and appends -/

private theorem becomes_tick (hi : i ∈ M.members) (hid : n.config.id = i)
    (hq : 1 < n.config.quorum) (h : Sits M s n old) (draw : Nat) :
    Becomes M i G s (n.tick draw) old := by
  rcases Node.tick_cases n draw with ⟨e, b, heq⟩ | ⟨-, b, heq⟩ | ⟨-, e, heq⟩ <;> rw [heq]
  · exact .moved .refl (h.congr rfl rfl rfl)
  · exact .moved .refl (h.congr rfl rfl rfl)
  · have h' : Sits M s { n with electionElapsed := e } old := h.congr rfl rfl rfl
    obtain ⟨s', hm, hs⟩ := Sits.becomeCandidate (n := { n with electionElapsed := e })
      (G := G) hi hid h' draw
    rw [Node.campaign_eq, if_neg (Nat.not_le.2 hq)]
    exact .moved hm (hs.congr rfl rfl rfl)

private theorem sits_logAppended (h : Sits M s n old) (hr : n.role = .leader)
    (index stop term : Nat) :
    Sits M s (n.logAppended index stop term) old := by
  obtain ⟨c, hc⟩ := Node.advanceCommitIndex_eq (n.appended index stop term)
  rw [Node.logAppended_leader hr, hc]
  exact h.congr rfl rfl rfl

/-! ## Messages -/

private theorem becomes_handleRequestVote {m : Message} (hm : m.sender ≠ kNoNode)
    (h : Sits M s n old) : Becomes M i G s (n.handleRequestVote m) old := by
  rcases Node.handleRequestVote_cases n m with heq | ⟨-, -, heq⟩ | ⟨-, hnone, heq⟩ <;> rw [heq]
  · exact .moved .refl (h.congr rfl rfl rfl)
  · exact .moved .refl (h.congr rfl rfl rfl)
  · have hfree : s.mem.vote = none := by
      rw [h.mem, HardState.ballot, if_pos hnone]
    refine .moved (.single (.vote s m.sender hfree)) ⟨?_, h.dur, h.role, h.tally, h.votes⟩
    have hhard : ((n.withVote m.sender).rested.say
        [n.replyMessage m .requestVoteResponse true]).hard = ⟨n.hard.term, m.sender⟩ := rfl
    rw [hhard, HardState.ballot_some hm, h.mem]
    rfl

/-- A vote for this candidacy is counted, and may be the one that decides it. -/
theorem becomes_handleRequestVoteResponse {m : Message} (hsender : m.sender ∈ M.members)
    (hg : m.granted = true → (m.sender, i, n.hard.term) ∈ G) (h : Sits M s n old) :
    Becomes M i G s (n.handleRequestVoteResponse m) old := by
  rcases Node.handleRequestVoteResponse_cases n m with heq | ⟨hr, hgr, hcase⟩
  · rw [heq]
    exact h.becomes
  have hterm : (m.sender, i, s.mem.term) ∈ G := by
    rw [h.mem]
    exact hg hgr
  have hmove : Moves i G s { s with tally := insert m.sender s.tally } :=
    .single (.count s m.sender fun _ => hterm)
  have htally : insert m.sender s.tally = (n.countVote m.sender).votes := by
    rw [h.tally hr]
    rfl
  have hvotes : (n.countVote m.sender).votes ⊆ M.members :=
    Finset.insert_subset hsender (h.votes hr)
  rcases hcase with ⟨hq, heq⟩ | heq <;> rw [heq]
  · obtain ⟨hhard, hrole, hv, hc⟩ := becomeLeader_ballot (n.countVote m.sender)
    refine .won hmove ?_ ?_ ?_ ?_ (.of_role ?_ h.dur ?_ ?_)
    · rw [h.role, hr]
      rfl
    · rw [hv]
      exact htally
    · rw [hv]
      exact hvotes
    · rw [hc, hv]
      exact hq
    · rw [hhard]
      exact h.mem
    · rw [hrole]
      rfl
    · rw [hrole]
      exact fun h => Role.noConfusion h
  · exact .moved hmove ⟨h.mem, h.dur, h.role, fun _ => htally, fun _ => hvotes⟩

private theorem becomes_handleAppendEntries (h : Sits M s n old) (draw : Nat) (m : Message) :
    Becomes M i G s (n.handleAppendEntries draw m) old := by
  obtain ⟨s', hm, hs⟩ := h.becomeFollower (G := G) (i := i) draw m.term m.sender
  rcases Node.handleAppendEntries_cases n draw m with ⟨-, heq⟩ | ⟨-, heq⟩ | ⟨-, -, heq⟩ <;>
    rw [heq]
  · exact h.becomes
  · exact .moved hm (hs.congr rfl rfl rfl)
  · obtain ⟨hh, -, -, -, hr, hv⟩ :=
      Node.acceptEntry_ballot (n.becomeFollower_role draw m.term m.sender) m
    obtain ⟨c, hc⟩ := Node.adoptCommit_eq ((n.becomeFollower draw m.term m.sender).acceptEntry m) m
    rw [hc]
    exact .moved hm (hs.congr hh hr hv)

private theorem sits_handleAppendEntriesResponse (h : Sits M s n old) (m : Message) :
    Sits M s (n.handleAppendEntriesResponse m) old := by
  rcases Node.handleAppendEntriesResponse_cases n m with
    ⟨-, heq⟩ | ⟨-, -, heq⟩ | ⟨-, -, n', ms, hn', heq, -⟩ <;> rw [heq]
  · exact h
  · exact h.congr rfl rfl rfl
  · obtain ⟨f, g, hfg⟩ := Node.noteConfirmed_eq n m.sender (min (indexValue m.logIndex) n.logEnd)
    obtain ⟨c, hc⟩ := Node.advanceCommitIndex_eq
      (n.noteConfirmed m.sender (min (indexValue m.logIndex) n.logEnd))
    rw [hn', hc, hfg]
    exact h.congr rfl rfl rfl

private theorem sits_answerStale (h : Sits M s n old) (m : Message) :
    Sits M s (n.answerStale m) old := by
  unfold Node.answerStale
  split <;> exact h.congr rfl rfl rfl

private theorem becomes_step {m : Message} (hsender : m.sender ∈ M.members)
    (hg : m.type = .requestVoteResponse → m.granted = true → (m.sender, i, m.term) ∈ G)
    (h : Sits M s n old) (draw : Nat) : Becomes M i G s (n.step draw m) old := by
  obtain ⟨s', hmove, hs⟩ : ∃ s', Moves i G s s' ∧ Sits M s' (n.observeTerm draw m) old := by
    rcases Node.observeTerm_cases n draw m with ⟨-, heq⟩ | ⟨-, leader, heq⟩ <;> rw [heq]
    · exact ⟨s, .refl, h⟩
    · exact h.becomeFollower draw m.term leader
  rcases Node.step_cases n draw m with ⟨-, k, heq⟩ | ⟨-, heq⟩ | ⟨hterm, heq⟩ <;> rw [heq]
  · exact .moved .refl (h.congr rfl rfl rfl)
  · exact .moved hmove (sits_answerStale hs m)
  · refine .of_moves hmove ?_
    unfold Node.handle
    split
    · exact becomes_handleRequestVote (M.member_ne _ hsender) hs
    case h_2 htype =>
      exact becomes_handleRequestVoteResponse hsender (fun hgr => hterm ▸ hg htype hgr) hs
    · exact becomes_handleAppendEntries hs draw m
    · exact (sits_handleAppendEntriesResponse hs m).becomes

/-- Whatever a driver does with its node is a sequence of moves, and perhaps a win. -/
theorem exists_becomes {asked : Option Message} (hop : n.Operates asked n')
    (hi : i ∈ M.members) (hid : n.config.id = i) (hq : 1 < n.config.quorum)
    (hsender : ∀ m ∈ asked, m.sender ∈ M.members)
    (hg : ∀ m ∈ asked, m.type = .requestVoteResponse → m.granted = true →
      (m.sender, i, m.term) ∈ G)
    (h : Sits M s n old) : Becomes M i G s n' old := by
  cases hop with
  | tick draw => exact becomes_tick hi hid hq h draw
  | step draw m => exact becomes_step (hsender m rfl) (hg m rfl) h draw
  | append hr index stop => exact (sits_logAppended h hr index stop _).becomes

end Operations

end LogEngine.Raft
